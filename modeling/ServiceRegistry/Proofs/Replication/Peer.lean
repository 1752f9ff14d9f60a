import ServiceRegistry.Proofs.Registry.Admission
import ServiceRegistry.Proofs.Registry.Receipt

/-! # Items at a peer

What a slot of a peer becomes when an item about its instance is received. Records are compared
up to their times of change, and leases by their durations.
-/

namespace ServiceRegistry

set_option autoImplicit false

open Replication

namespace Instance

/-- A record apart from its times and the notes of its registry. -/
def substance (x : Instance) : Instance := { x.content with dirtyAt := 0 }

def frame (x : Instance) : Instance := { x.substance with status := .up, overridden := none }

theorem substance_eq_of_frame {x y : Instance} (hframe : x.frame = y.frame)
    (hstatus : x.status = y.status) (hoverridden : x.overridden = y.overridden) :
    x.substance = y.substance := by
  cases x
  cases y
  simp_all [frame, substance, content]

theorem check_of_frame {x y : Instance} (h : x.frame = y.frame) :
    x.key = y.key ∧ (x.check = .ok () ↔ y.check = .ok ()) := by
  have happ : x.frame.app = y.frame.app := congrArg _ h
  have hid : x.frame.id = y.frame.id := congrArg _ h
  have hhost : x.frame.host = y.frame.host := congrArg _ h
  have hterms : x.frame.terms = y.frame.terms := congrArg _ h
  exact ⟨Prod.ext happ hid, check_congr happ hid hhost hterms⟩

/-- A record that a registry keeps of its own accord: valid, with a time of change, and showing
the status that is imposed on it. -/
structure Settled (x : Instance) : Prop where
  upper : Text.upper x.app = x.app
  valid : x.check = .ok ()
  dirty : 0 < x.dirtyAt
  known : x.overridden ≠ some .unknown
  imposed : ∀ s, x.overridden = some s → x.status = s

theorem Settled.accept {x : Instance} (hx : x.Settled) {d : UInt64}
    (hd : checkLease x.id d = .ok ()) (now : Millis) :
    Slot.accept now x (some d) = .ok (x, d) := by
  have hdirty : x.dirtyAt ≠ 0 := fun h => Int64.ne_of_lt hx.dirty h.symm
  refine Slot.accept_eq_ok_iff.mpr ⟨?_, ?_, hd, ?_⟩
  · rw [Admissible, hx.upper]
    exact hx.valid
  · exact (if_neg (checkLease_eq_ok_iff.mp hd).1).symm
  · rw [hx.upper, if_neg hdirty]

theorem Settled.settle_peer {x : Instance} (hx : x.Settled) (override : Option Status) :
    Slot.settle override .peer x = (x.overridden, x) := by
  cases hoverridden : x.overridden with
  | none =>
    have himposed : Registry.imposed x = none := by
      rw [Registry.imposed, hoverridden]
      rfl
    have hsame : { x with overridden := none } = x := by rw [← hoverridden]
    simp only [Slot.settle, himposed, hsame]
  | some s =>
    have hknown : s ≠ .unknown := fun h => hx.known (h ▸ hoverridden)
    have himposed : Registry.imposed x = some s := by
      simp [Registry.imposed, hoverridden, hknown]
    have hsame : { x with status := s } = x := by rw [← hx.imposed s hoverridden]
    simp only [Slot.settle, himposed, hsame]

end Instance

namespace Slot

variable {k : Key} {s : Slot} {l : Lease Instance} {now : Millis}

def kept (s : Slot) : Option (Instance × UInt64) := s.lease.map fun l => (l.holder, l.duration)

/-- What two registries agree on: the substance of the record, the duration, the override. -/
def face (s : Slot) : Option (Instance × UInt64) × Option Status :=
  (s.kept.map fun p => (p.1.substance, p.2), s.override)

def base (s : Slot) : Option (Instance × UInt64) := s.kept.map fun p => (p.1.frame, p.2)

def Within (s : Slot) (t : Millis) : Prop := ∀ p, s.kept = some p → p.1.dirtyAt ≤ t

theorem kept_of_lease (h : s.lease = some l) : s.kept = some (l.holder, l.duration) := by
  rw [kept, h]
  rfl

theorem base_eq_of_face {s s' : Slot} (h : s.face = s'.face) : s.base = s'.base := by
  have hkept := congrArg (fun f => f.1.map fun p : Instance × UInt64 =>
    ({ p.1 with status := .up, overridden := none }, p.2)) h
  simp only [face, Option.map_map] at hkept
  exact hkept

theorem Within.mono {t t' : Millis} (h : s.Within t) (ht : t ≤ t') : s.Within t' :=
  fun p hp => Int64.le_trans (h p hp) ht

theorem leaseFor_duration (x : Instance) (d : UInt64) (now upSince : Millis) :
    (Registry.leaseFor x d now upSince).duration = d := congrArg Lease.duration (leaseFor_eq ..)

theorem kept_enroll (s : Slot) (now : Millis) (origin : Origin) (incoming : Instance) (d : UInt64) :
    (s.enroll now origin incoming d).slot.kept =
      some ((s.enrolled now origin incoming).2.2, d) :=
  congrArg some (Prod.ext (leaseFor_holder ..) (leaseFor_duration ..))

theorem receive_register_eq {i : Item} {x : Instance} {d : UInt64} (hop : i.operation = .register)
    (hrecord : i.record = some x) (hlease : i.lease = some d) (hx : x.Settled)
    (hd : checkLease x.id d = .ok ()) :
    s.receive now i = (s.enroll now .peer x d).slot := by
  simp only [receive, Item.command?, hop, hrecord, hlease, Option.map_some, Slot.move, hx.accept hd]

theorem Sound.chosen_of_within (hs : s.Sound k) {x : Instance} (hbehind : s.Within x.dirtyAt) :
    s.chosen x = x := by
  rw [chosen, hs.held_eq_lease]
  cases hl : s.lease with
  | none => rfl
  | some l => exact if_neg (Int64.not_lt.mpr (hbehind _ (kept_of_lease hl)))

theorem Sound.receive_register (hs : s.Sound k) {i : Item} {x : Instance} {d : UInt64}
    (hop : i.operation = .register) (hrecord : i.record = some x) (hlease : i.lease = some d)
    (hx : x.Settled) (hd : checkLease x.id d = .ok ()) (hbehind : s.Within x.dirtyAt)
    (now : Millis) :
    ∃ y, (s.receive now i).kept = some (y, d) ∧ y.substance = x.substance ∧
      y.dirtyAt = x.dirtyAt ∧ (s.receive now i).override = x.overridden := by
  have hchosen : s.chosen x = x := hs.chosen_of_within hbehind
  have hsettle := hx.settle_peer s.override
  rw [receive_register_eq hop hrecord hlease hx hd, kept_enroll]
  refine ⟨_, rfl, ?_, ?_, ?_⟩
  · rw [Instance.substance, content_enrolled, hchosen, hsettle]
    rfl
  · refine (dirtyAt_settle s.override .peer (s.chosen x)).trans ?_
    rw [hchosen]
  · change (settle s.override .peer (s.chosen x)).1 = x.overridden
    rw [hchosen, hsettle]

theorem Sound.kept_receive_register (hs : s.Sound k) {i : Item} {x : Instance} {d : UInt64}
    (hop : i.operation = .register) (hrecord : i.record = some x) (hlease : i.lease = some d)
    (hx : x.Settled) (hd : checkLease x.id d = .ok ()) (now : Millis) :
    ∃ y, (s.receive now i).kept = some (y, d) ∧ s.Within y.dirtyAt ∧
      ∀ t, s.Within t → x.dirtyAt ≤ t → y.dirtyAt ≤ t := by
  have hdirty : (s.enrolled now .peer x).2.2.dirtyAt = (s.chosen x).dirtyAt :=
    dirtyAt_settle s.override .peer (s.chosen x)
  rw [receive_register_eq hop hrecord hlease hx hd, kept_enroll]
  refine ⟨_, rfl, ?_⟩
  rw [hdirty, chosen, hs.held_eq_lease]
  cases hl : s.lease with
  | none =>
    refine ⟨fun p hp => ?_, fun t _ ht => ht⟩
    rw [kept, hl] at hp
    cases hp
  | some l =>
    have hkept := kept_of_lease hl
    simp only [Registry.newer]
    by_cases hnewer : x.dirtyAt < l.holder.dirtyAt
    · rw [if_pos hnewer]
      refine ⟨fun p hp => ?_, fun t ht _ => ht (l.holder, l.duration) hkept⟩
      cases hkept.symm.trans hp
      exact Int64.le_refl _
    · rw [if_neg hnewer]
      refine ⟨fun p hp => ?_, fun t _ ht => ht⟩
      cases hkept.symm.trans hp
      exact Int64.not_lt.mp hnewer

theorem Sound.receive_cancel (hs : s.Sound k) {i : Item} (hop : i.operation = .cancel)
    (now : Millis) : s.receive now i = {} := by
  simp only [receive, Item.command?, hop, Slot.move, Slot.withdraw]
  rcases hs with rfl | ⟨l, hl, -⟩
  · rfl
  · simp [hl, Option.filter_some]

theorem Sound.receive_heartbeat (hs : s.Sound k) {i : Item} (hop : i.operation = .heartbeat)
    (now : Millis) :
    (s.receive now i).kept = s.kept ∧ (s.receive now i).override = s.override := by
  simp only [receive, Item.command?, hop, Slot.move, Slot.renew, hs.held_eq_lease]
  cases hl : s.lease with
  | none => exact ⟨rfl, rfl⟩
  | some l => exact ⟨(kept_of_lease hl).symm, rfl⟩

/-- A change of the status sets the status and the override, unless the record shows both. -/
structure Puts (change : StatusChange) (status : Status) (override : Option Status) : Prop where
  changed : ∀ o x p, change o x = some p →
    p = (override, { x with status, overridden := override })
  inPlace : ∀ o x, change o x = none → x.status = status ∧ x.overridden = override
  content : ∀ o x, change o x = none ↔ change o x.content = none

theorem puts_impose (status : Status) : Puts (impose status) status (some status) where
  changed _ _ _ h := impose_eq_some h
  inPlace _ _ h := impose_eq_none h
  content _ _ := ⟨fun h => if_pos (impose_eq_none h), fun h => if_pos (impose_eq_none h)⟩

theorem puts_release (status : Status) : Puts (release status) status none where
  changed _ _ _ h := release_eq_some h
  inPlace _ _ h := ⟨(release_eq_none h).2.2, (release_eq_none h).2.1⟩
  content _ _ := ⟨fun h => if_pos (release_eq_none h), fun h => if_pos (release_eq_none h)⟩

structure Turned (s s' : Slot) (time : Millis) (status : Status) (override : Option Status) :
    Prop where
  base : s'.base = s.base
  imposes : s'.override = override
  shows : ∀ p, s'.kept = some p → p.1.status = status ∧ p.1.overridden = override
  within : ∀ t, s.Within t → time ≤ t → s'.Within t

variable {change : StatusChange} {status : Status} {override : Option Status}

theorem Puts.override_eq (h : Puts change status override) (hknown : override ≠ some .unknown)
    {o : Option Status} {x : Instance} (hagrees : Agrees o x) (hnone : change o x = none) :
    o = override := by
  have hoverridden := (h.inPlace o x hnone).2
  rcases hagrees with ⟨ho, -⟩ | ⟨-, hunknown⟩
  · exact ho.trans hoverridden
  · exact absurd (hoverridden.symm.trans hunknown) hknown

theorem kept_relabel (l : Lease Instance) (now : Millis) (x : Instance) (o : Option Status) :
    (⟨some (relabel l now x), o⟩ : Slot).kept = some (x, l.duration) :=
  congrArg some (Prod.ext (holder_relabel ..) (duration_relabel ..))

theorem Sound.base_changeStatus (hs : s.Sound k) (hputs : Puts change status override)
    (dirtyAt : Option Millis) (now : Millis) :
    (s.changeStatus now dirtyAt change).slot.base = s.base ∧
      ∀ t, s.Within t → dirtyAt.getD now ≤ t →
        (s.changeStatus now dirtyAt change).slot.Within t := by
  simp only [Slot.changeStatus, hs.held_eq_lease]
  cases hl : s.lease with
  | none => exact ⟨rfl, fun t ht _ => ht⟩
  | some l =>
    simp only
    split
    · exact ⟨rfl, fun t ht _ => ht⟩
    cases hp : change s.override l.holder with
    | none => exact ⟨rfl, fun t ht _ => ht⟩
    | some p =>
      cases hputs.changed _ _ _ hp
      refine ⟨?_, fun t _ ht p hp => ?_⟩
      · rw [base, kept_relabel, base, kept_of_lease hl]
        rfl
      · rw [kept_relabel] at hp
        cases hp
        exact ht

theorem Sound.turned_changeStatus (hs : s.Sound k) (hputs : Puts change status override)
    (hknown : override ≠ some .unknown) (hl : s.lease = some l) {dirtyAt : Option Millis}
    (hnewer : dirtyAt.any (· < l.holder.dirtyAt) = false) (now : Millis) :
    Turned s (s.changeStatus now dirtyAt change).slot (dirtyAt.getD now) status override := by
  obtain ⟨hbase, hwithin⟩ := hs.base_changeStatus hputs dirtyAt now
  simp only [Slot.changeStatus, hs.held_eq_lease, hl, hnewer, Bool.false_eq_true,
    if_false] at hbase hwithin ⊢
  cases hchange : change s.override l.holder with
  | none =>
    refine ⟨rfl, hputs.override_eq hknown (hs.tended hl).agrees hchange, fun p hp => ?_,
      fun t ht _ => ht⟩
    rw [kept_of_lease hl] at hp
    cases hp
    exact hputs.inPlace _ _ hchange
  | some p =>
    have hp := hputs.changed _ _ _ hchange
    subst hp
    rw [hchange] at hbase hwithin
    refine ⟨hbase, rfl, fun p hp => ?_, hwithin⟩
    rw [kept_relabel] at hp
    cases hp
    exact ⟨rfl, rfl⟩

end Slot

end ServiceRegistry
