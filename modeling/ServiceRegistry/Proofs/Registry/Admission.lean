import ServiceRegistry.Proofs.Registry.Slot

/-! # Admission of records

A registration is let in if its record passes the check and the lease is of admissible length.
The check reads who the instance is and what lease it asks for, but not its status.
-/

namespace ServiceRegistry

set_option autoImplicit false

theorem checkLease_eq_ok_iff {id : String} {seconds : UInt64} :
    checkLease id seconds = .ok () ↔ seconds ≠ 0 ∧ ¬ maxLeaseSeconds < seconds := by
  unfold checkLease
  split
  · simp [*]
  · split <;> simp [*]

theorem checkLease_congr {id id' : String} {seconds : UInt64} (h : checkLease id seconds = .ok ()) :
    checkLease id' seconds = .ok () :=
  checkLease_eq_ok_iff.mpr (checkLease_eq_ok_iff.mp h)

namespace Instance

theorem check_eq_ok_iff {x : Instance} :
    x.check = .ok () ↔ checkApp x.app = .ok () ∧ checkId x.id = .ok () ∧
      (Text.trim x.host).isEmpty = false ∧ checkLease x.id x.terms.duration = .ok () ∧
      x.terms.renewalInterval ≠ 0 := by
  unfold check
  cases checkApp x.app with
  | error e => simp [bind, Except.bind]
  | ok _ =>
    cases checkId x.id with
    | error e => simp [bind, Except.bind]
    | ok _ =>
      cases (Text.trim x.host).isEmpty with
      | true => simp [bind, Except.bind, throw, throwThe, MonadExceptOf.throw]
      | false =>
        cases checkLease x.id x.terms.duration with
        | error e => simp [bind, Except.bind]
        | ok _ =>
          by_cases h : x.terms.renewalInterval = 0 <;>
            simp [bind, Except.bind, pure, Except.pure, throw, throwThe, MonadExceptOf.throw, h]

theorem check_congr {x y : Instance} (happ : x.app = y.app) (hid : x.id = y.id)
    (hhost : x.host = y.host) (hterms : x.terms = y.terms) :
    x.check = .ok () ↔ y.check = .ok () := by
  rw [check_eq_ok_iff, check_eq_ok_iff, happ, hid, hhost, hterms]

/-- Whether a record passes the check once its application is in upper case. -/
def Admissible (x : Instance) : Prop := { x with app := Text.upper x.app }.check = .ok ()

instance (x : Instance) : Decidable x.Admissible :=
  match h : { x with app := Text.upper x.app }.check with
  | .ok _ => .isTrue h
  | .error _ => .isFalse fun hok => nomatch h.symm.trans hok

end Instance

namespace Slot

variable {now : Millis} {record incoming : Instance} {duration : Option UInt64} {granted : UInt64}

theorem accept_eq_ok_iff :
    accept now record duration = .ok (incoming, granted) ↔
      record.Admissible ∧ granted = Registry.grantedDuration duration record ∧
      checkLease record.id granted = .ok () ∧
      incoming = { record with
        app := Text.upper record.app
        dirtyAt := if record.dirtyAt = 0 then now else record.dirtyAt } := by
  have hgranted : Registry.grantedDuration duration { record with app := Text.upper record.app } =
      Registry.grantedDuration duration record := rfl
  simp only [accept, Instance.Admissible, bind, Except.bind, pure, Except.pure, hgranted]
  cases Instance.check { record with app := Text.upper record.app } with
  | error e => simp
  | ok _ =>
    cases h : checkLease record.id (Registry.grantedDuration duration record) with
    | error e =>
      simp only [reduceCtorEq, false_iff]
      rintro ⟨-, rfl, hlease, -⟩
      cases h.symm.trans hlease
    | ok _ =>
      simp only [Except.ok.injEq, Prod.mk.injEq, true_and]
      constructor
      · rintro ⟨rfl, rfl⟩
        refine ⟨rfl, h, ?_⟩
        split <;> rfl
      · rintro ⟨rfl, -, rfl⟩
        refine ⟨?_, rfl⟩
        split <;> rfl

theorem accept_eq_error (now : Millis) (duration : Option UInt64) (h : ¬ record.Admissible) :
    ∃ e, accept now record duration = .error e := by
  cases haccept : accept now record duration with
  | error e => exact ⟨e, rfl⟩
  | ok x => exact absurd (accept_eq_ok_iff.mp haccept).1 h

theorem accept_own_terms (h : record.Admissible) (now : Millis) :
    accept now record (some record.terms.duration) =
      .ok ({ record with
        app := Text.upper record.app
        dirtyAt := if record.dirtyAt = 0 then now else record.dirtyAt },
        record.terms.duration) := by
  refine accept_eq_ok_iff.mpr ⟨h, ?_, (Instance.check_eq_ok_iff.mp h).2.2.2.1, rfl⟩
  exact (ite_self _).symm

end Slot

end ServiceRegistry
