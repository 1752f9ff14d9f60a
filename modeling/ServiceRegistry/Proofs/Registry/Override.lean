import ServiceRegistry.Proofs.Registry.Admission
import ServiceRegistry.Proofs.Registry.Lockstep

/-! # Imposed statuses and the records that show them

A status that is imposed on an instance is the override and the status of its record. The other
way round, a record can show an override `unknown` that is imposed nowhere: a client's registration
brings it in, and the next change of the instance that is logged ends it. `concordant_perform_iff`
says that there is no other disagreement.
-/

namespace ServiceRegistry

set_option autoImplicit false

namespace Slot

/-- The record shows an override `unknown`, and no status is imposed. -/
def Stray (s : Slot) : Prop :=
  s.override = none ∧ ∃ l, s.lease = some l ∧ l.holder.overridden = some .unknown

/-- A registration of a client that leaves an instance without an imposed status, while the
record that is kept shows an override `unknown`. -/
def AdmitsStray (s : Slot) (now : Millis) : Command → Prop
  | .register .client record duration =>
    s.override = none ∧ ∃ x, accept now record duration = .ok x ∧
      (s.chosen x.1).overridden = some .unknown
  | _ => False

variable {k : Key} {s s' : Slot} {l : Lease Instance} {now : Millis} {status : Status}

theorem Sound.of_override (hs : s.Sound k) (h : s.override = some status) :
    ∃ l, s.lease = some l ∧ l.holder.overridden = some status ∧ l.holder.status = status := by
  rcases hs with rfl | ⟨l, hl, ht⟩
  · cases h
  · rcases ht.agrees with ⟨hsame, hstatus⟩ | ⟨hnone, -⟩
    · exact ⟨l, hl, hsame.symm.trans h, hstatus status h⟩
    · cases hnone.symm.trans h

theorem Sound.override_or_unknown (hs : s.Sound k) (hl : s.lease = some l)
    (h : l.holder.overridden = some status) :
    s.override = some status ∨ status = .unknown ∧ s.override = none := by
  rcases (hs.tended hl).agrees with ⟨hsame, -⟩ | ⟨hnone, hunknown⟩
  · exact .inl (hsame.trans h)
  · exact .inr ⟨Option.some.inj (h.symm.trans hunknown), hnone⟩

theorem stray_iff_of_lease (h : s.lease = some l) :
    s.Stray ↔ s.override = none ∧ l.holder.overridden = some .unknown := by
  simp [Stray, h]

theorem stray_congr (hholder : s'.lease.map (·.holder) = s.lease.map (·.holder))
    (hoverride : s'.override = s.override) : s'.Stray ↔ s.Stray := by
  have hstray (s : Slot) : s.Stray ↔
      s.override = none ∧ (s.lease.map (·.holder)).bind (·.overridden) = some .unknown := by
    cases hl : s.lease <;> simp [Stray, hl]
  rw [hstray, hstray, hholder, hoverride]

theorem not_stray_empty : ¬ Stray {} := fun ⟨_, _, hl, _⟩ => nomatch hl

theorem stray_settle_iff (override : Option Status) (origin : Origin) (x : Instance) :
    (settle override origin x).1 = none ∧ (settle override origin x).2.overridden = some .unknown ↔
      origin = .client ∧ override = none ∧ x.overridden = some .unknown := by
  cases origin with
  | peer => cases himposed : Registry.imposed x <;> simp [settle, himposed]
  | client =>
    cases override with
    | some s => simp [settle]
    | none =>
      cases himposed : Registry.imposed x with
      | none => simp [settle, himposed]
      | some s =>
        have hknown : x.overridden ≠ some .unknown := by
          intro hunknown
          rw [Registry.imposed, hunknown] at himposed
          cases himposed
        simp [settle, himposed, hknown]

theorem stray_enroll_iff (s : Slot) (now : Millis) (origin : Origin) (x : Instance)
    (duration : UInt64) :
    (s.enroll now origin x duration).slot.Stray ↔
      origin = .client ∧ s.override = none ∧ (s.chosen x).overridden = some .unknown := by
  rw [← stray_settle_iff, stray_iff_of_lease rfl, leaseFor_holder]
  rfl

theorem not_stray_changeStatus {dirtyAt : Option Millis} {change : StatusChange}
    (hchange : Consistent change) (h : (s.changeStatus now dirtyAt change).change ≠ none) :
    ¬ (s.changeStatus now dirtyAt change).slot.Stray := by
  unfold changeStatus at h ⊢
  cases hheld : s.held with
  | none => exact absurd (by rw [hheld]) h
  | some l =>
    simp only [hheld] at h ⊢
    by_cases hstale : dirtyAt.any (· < l.holder.dirtyAt) = true
    · exact absurd (by rw [if_pos hstale]) h
    rw [if_neg hstale] at h ⊢
    cases hsome : change s.override l.holder with
    | none => exact absurd (by rw [hsome]) h
    | some p =>
      obtain ⟨-, hoverridden, -⟩ := hchange _ _ _ hsome
      rw [stray_iff_of_lease rfl, holder_relabel]
      rintro ⟨hnone, hunknown⟩
      exact nomatch hunknown.symm.trans (hoverridden.symm.trans hnone)

theorem not_stray_withdraw {test : Lease Instance → Bool}
    (h : (s.withdraw now test).change ≠ none) : ¬ (s.withdraw now test).slot.Stray := by
  unfold withdraw at h ⊢
  split at h
  · exact absurd rfl h
  · exact not_stray_empty

theorem stray_move_iff {c : Command} (h : (s.move now c).change ≠ none) :
    (s.move now c).slot.Stray ↔ s.AdmitsStray now c := by
  cases c with
  | register origin record duration =>
    simp only [Slot.move] at h ⊢
    split at h
    · exact absurd rfl h
    · rename_i incoming granted haccept
      rw [stray_enroll_iff]
      cases origin <;> simp [AdmitsStray, haccept]
  | renew origin app id dirtyAt =>
    refine absurd ?_ h
    simp only [Slot.move, Slot.renew]
    split <;> rfl
  | cancel origin app id => exact iff_of_false (not_stray_withdraw h) not_false
  | evict seen app id grace => exact iff_of_false (not_stray_withdraw h) not_false
  | updateStatus origin app id status dirtyAt =>
    exact iff_of_false (not_stray_changeStatus (consistent_impose status) h) not_false
  | deleteOverride origin app id status dirtyAt =>
    exact iff_of_false (not_stray_changeStatus (consistent_release status) h) not_false

theorem Sound.stray_move_of_rest {c : Command} (hs : s.Sound c.key)
    (h : (s.move now c).change = none) : (s.move now c).slot.Stray ↔ s.Stray := by
  rcases hs.outcome_move now with ⟨hchange, -, -⟩ | ⟨-, hlease, hoverride, -⟩
  · cases h.symm.trans hchange
  · exact stray_congr hlease.holder_eq hoverride

end Slot

namespace Registry

variable {r : Registry} {app id : String}

/-- The imposed status of an instance is the override of its record, and then also the status. -/
structure Concordant (r : Registry) (app id : String) : Prop where
  imposed : ∀ s, r.override? app id = some s ↔
    ∃ x, r.instance? app id = some x ∧ x.overridden = some s
  shown : ∀ s x, r.override? app id = some s → r.instance? app id = some x → x.status = s

theorem Sound.instance?_eq (hr : r.Sound) (app id : String) :
    r.instance? app id = (r.slot (keyOf app id)).lease.map (·.holder) := by
  rw [instance?, hr.lease?_eq_slot_lease]

theorem Sound.concordant_iff (hr : r.Sound) :
    r.Concordant app id ↔ ¬ (r.slot (keyOf app id)).Stray := by
  have hs := hr (keyOf app id)
  have hoverride : r.override? app id = (r.slot (keyOf app id)).override := rfl
  constructor
  · rintro ⟨himposed, -⟩ ⟨hnone, l, hl, hunknown⟩
    have hx : r.instance? app id = some l.holder := by
      rw [hr.instance?_eq, hl]
      rfl
    exact nomatch hnone.symm.trans ((himposed .unknown).mpr ⟨_, hx, hunknown⟩)
  · intro hstray
    refine ⟨fun s => ⟨fun h => ?_, ?_⟩, fun s x h hx => ?_⟩
    · obtain ⟨l, hl, hoverridden, -⟩ := hs.of_override h
      exact ⟨_, by rw [hr.instance?_eq, hl]; rfl, hoverridden⟩
    · rintro ⟨x, hx, hoverridden⟩
      rw [hr.instance?_eq] at hx
      obtain ⟨l, hl, rfl⟩ := Option.map_eq_some_iff.mp hx
      rcases hs.override_or_unknown hl hoverridden with h | ⟨rfl, hnone⟩
      · exact h
      · exact absurd ⟨hnone, l, hl, hoverridden⟩ hstray
    · obtain ⟨l, hl, -, hstatus⟩ := hs.of_override h
      rw [hr.instance?_eq, hl] at hx
      exact Option.some.inj hx ▸ hstatus

theorem Acts.version_ne_iff {now : Millis} {c : Command} {m : Move} {s : Response CommandAnswer}
    (hacts : Acts r now c m s) : s.registry.log.version ≠ r.log.version ↔ m.change ≠ none := by
  rw [hacts.log, Move.logged]
  cases m.change with
  | none => simp
  | some p => simp

/-- An imposed status is that of a registered record. A record that shows another override shows
`unknown`, which is imposed nowhere. Such a disagreement is left by a client's registration that
admits it, and lasts until the next change of the instance is logged. -/
theorem Reachable.concordant_perform_iff (hr : r.Reachable) (app id : String) :
    (∀ s, r.override? app id = some s →
      ∃ x, r.instance? app id = some x ∧ x.overridden = some s ∧ x.status = s) ∧
    (∀ s x, r.instance? app id = some x → x.overridden = some s →
      r.override? app id = some s ∨ s = .unknown ∧ r.override? app id = none) ∧
    ∀ now c,
      let after := (r.perform now c).registry
      (c.key = keyOf app id → after.log.version ≠ r.log.version →
        (after.Concordant app id ↔ ¬ (r.slot (keyOf app id)).AdmitsStray now c)) ∧
      (c.key ≠ keyOf app id ∨ after.log.version = r.log.version →
        (after.Concordant app id ↔ r.Concordant app id)) := by
  have hs := hr.sound (keyOf app id)
  refine ⟨fun s h => ?_, fun s x hx hoverridden => ?_, fun now c => ?_⟩
  · obtain ⟨l, hl, hoverridden, hstatus⟩ := hs.of_override h
    exact ⟨_, by rw [hr.sound.instance?_eq, hl]; rfl, hoverridden, hstatus⟩
  · rw [hr.sound.instance?_eq] at hx
    obtain ⟨l, hl, rfl⟩ := Option.map_eq_some_iff.mp hx
    exact hs.override_or_unknown hl hoverridden
  · have hacts := perform_acts hr.sound.filed now c
    have hversion := hacts.version_ne_iff
    intro after
    rw [(hr.sound.perform now c).concordant_iff, hr.sound.concordant_iff, hacts.slot]
    refine ⟨fun hkey hlogged => ?_, fun hsame => ?_⟩
    · rw [if_pos hkey, ← hkey]
      exact not_congr (Slot.stray_move_iff (hversion.mp hlogged))
    · by_cases hkey : c.key = keyOf app id
      · have hrest := Classical.not_not.mp (mt hversion.mpr fun h =>
          hsame.elim (fun hother => hother hkey) h)
        rw [if_pos hkey, ← hkey]
        exact not_congr ((hr.sound c.key).stray_move_of_rest hrest)
      · rw [if_neg hkey]

/-- A record that a client registers with an override `unknown` shows what nobody imposed, until
an operator imposes a status. -/
theorem register_unknown_discordant :
    let x := { Instance.named "WEB" "web-1" "host" 80 with overridden := some .unknown }
    let r := Registry.start {} 1
    let s := (r.perform 2 (.register .client x none)).registry
    let t := (s.perform 3 (.updateStatus .client "WEB" "web-1" .down none)).registry
    r.Reachable ∧ s.Reachable ∧ r.Concordant "WEB" "web-1" ∧ ¬ s.Concordant "WEB" "web-1" ∧
      t.Concordant "WEB" "web-1" := by
  intro x r s t
  have hr : r.Reachable := .start {} 1
  have hs : s.Reachable := .perform 2 _ hr
  obtain ⟨-, -, hregister⟩ := hr.concordant_perform_iff "WEB" "web-1"
  obtain ⟨-, -, hupdate⟩ := hs.concordant_perform_iff "WEB" "web-1"
  have hadmits : (r.slot (keyOf "WEB" "web-1")).AdmitsStray 2 (.register .client x none) :=
    ⟨rfl, _, Slot.accept_eq_ok_iff.mpr ⟨by decide +kernel, rfl,
      checkLease_eq_ok_iff.mpr (by decide), rfl⟩, rfl⟩
  refine ⟨hr, hs, hr.sound.concordant_iff.mpr Slot.not_stray_empty, ?_, ?_⟩
  · rw [(hregister 2 _).1 rfl (by decide +kernel)]
    exact fun h => h hadmits
  · rw [(hupdate 3 _).1 rfl (by decide +kernel)]
    exact not_false

end Registry

end ServiceRegistry
