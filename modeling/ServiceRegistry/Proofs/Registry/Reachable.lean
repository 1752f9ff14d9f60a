import ServiceRegistry.Proofs.Registry.Locality

/-! # Reachable registries

A registry is reachable if commands and chores lead to it from an empty one, at any readings of
the clock. Every slot of such a registry is tended: its lease is live and filed under its own
key, and its record agrees with the imposed status. Of the status `unknown` as an override only
the weaker clause of `Agrees` holds.
-/

namespace ServiceRegistry

set_option autoImplicit false

namespace Text

theorem toUpper_toUpper (c : Char) : c.toUpper.toUpper = c.toUpper := by
  unfold Char.toUpper
  split
  · rename_i h
    obtain ⟨hlow, hhigh⟩ := h
    rw [dif_neg]
    rintro ⟨hlow', -⟩
    simp only [UInt32.le_iff_toNat_le, UInt32.toNat_add] at hlow hhigh hlow'
    simp at hlow hhigh hlow'
    omega
  · rfl

theorem upper_upper (s : String) : upper (upper s) = upper s := by
  have h : Char.toUpper ∘ Char.toUpper = Char.toUpper := funext toUpper_toUpper
  rw [upper, upper, String.map_map, h]

end Text

theorem KeyMap.get?_filter {κ α : Type} [DecidableEq κ] (m : KeyMap κ α) (p : κ × α → Bool)
    (k : κ) :
    (m.filter p).get? k = (m.get? k).filter fun a => p (k, a) := by
  apply Option.ext
  intro a
  rw [KeyMap.get?_eq_some_iff, Option.filter_eq_some_iff, KeyMap.get?_eq_some_iff]
  exact List.mem_filter

/-- An imposed status is that of the record; an override `unknown` may also be imposed by
nobody. -/
def Agrees (override : Option Status) (r : Instance) : Prop :=
  (override = r.overridden ∧ ∀ s, override = some s → r.status = s) ∨
    (override = none ∧ r.overridden = some .unknown)

/-- A lease as a registry keeps it under a key, beside the status imposed there. -/
structure Tended (k : Key) (override : Option Status) (l : Lease Instance) : Prop where
  filed : l.holder.key = k
  upper : Text.upper k.1 = k.1
  live : l.isEvicted = false
  agrees : Agrees override l.holder

namespace Slot

/-- The slot is empty, or holds a tended lease. -/
def Sound (k : Key) (s : Slot) : Prop :=
  (s = {}) ∨ ∃ l, s.lease = some l ∧ Tended k s.override l

variable {k : Key} {s : Slot} {now : Millis}

theorem Sound.empty (k : Key) : Sound k {} := .inl rfl

theorem Sound.tended (hs : s.Sound k) {l : Lease Instance} (h : s.lease = some l) :
    Tended k s.override l := by
  rcases hs with rfl | ⟨l', hl', ht⟩
  · cases h
  · cases hl'.symm.trans h
    exact ht

theorem Sound.held_eq_lease (hs : s.Sound k) : s.held = s.lease := by
  rcases hs with rfl | ⟨l, hl, ht⟩
  · rfl
  · simp [held, hl, ht.live]

theorem key_settle (override : Option Status) (origin : Origin) (x : Instance) :
    (settle override origin x).2.key = x.key := by
  unfold settle
  split <;> rfl

theorem dirtyAt_settle (override : Option Status) (origin : Origin) (x : Instance) :
    (settle override origin x).2.dirtyAt = x.dirtyAt := by
  unfold settle
  split <;> rfl

theorem overridden_of_imposed {x : Instance} {s : Status} (h : Registry.imposed x = some s) :
    x.overridden = some s := Option.eq_some_of_filter_eq_some h

theorem overridden_of_not_imposed {x : Instance} (h : Registry.imposed x = none) :
    x.overridden = none ∨ x.overridden = some .unknown := by
  unfold Registry.imposed at h
  cases ho : x.overridden with
  | none => exact .inl rfl
  | some s =>
    rw [ho] at h
    simp at h
    exact .inr (congrArg some h)

theorem agrees_settle (override : Option Status) (origin : Origin) (x : Instance) :
    Agrees (settle override origin x).1 (settle override origin x).2 := by
  cases origin with
  | peer =>
    cases himposed : Registry.imposed x with
    | none => simp [settle, himposed, Agrees]
    | some s => simp [settle, himposed, Agrees, overridden_of_imposed himposed]
  | client =>
    cases override with
    | some s => simp [settle, Agrees]
    | none =>
      cases himposed : Registry.imposed x with
      | some s => simp [settle, himposed, Agrees, overridden_of_imposed himposed]
      | none =>
        rcases overridden_of_not_imposed himposed with h | h <;>
          simp [settle, himposed, Agrees, h]

theorem leaseFor_eq (x : Instance) (duration : UInt64) (now upSince : Millis) :
    Registry.leaseFor x duration now upSince =
      { Lease.grant x duration now with
        upSince := if x.status = .up ∧ upSince = 0 then now else upSince } := by
  unfold Registry.leaseFor Lease.markUp
  by_cases hup : x.status = .up <;> by_cases hsince : upSince = 0 <;> simp [hup, hsince]

theorem relabel_eq (l : Lease Instance) (now : Millis) (x : Instance) :
    relabel l now x =
      { l with
        holder := x, upSince := if x.status = .up ∧ l.upSince = 0 then now else l.upSince } := by
  unfold relabel Lease.markUp
  by_cases hup : x.status = .up <;> by_cases hsince : l.upSince = 0 <;> simp [hup, hsince]

theorem leaseFor_holder (x : Instance) (duration : UInt64) (now upSince : Millis) :
    (Registry.leaseFor x duration now upSince).holder = x := congrArg Lease.holder (leaseFor_eq ..)

theorem leaseFor_isEvicted (x : Instance) (duration : UInt64) (now upSince : Millis) :
    (Registry.leaseFor x duration now upSince).isEvicted = false :=
  congrArg Lease.isEvicted (leaseFor_eq ..)

theorem holder_relabel (l : Lease Instance) (now : Millis) (x : Instance) :
    (relabel l now x).holder = x := congrArg Lease.holder (relabel_eq ..)

theorem isEvicted_relabel (l : Lease Instance) (now : Millis) (x : Instance) :
    (relabel l now x).isEvicted = l.isEvicted := by
  rw [relabel_eq]
  rfl

theorem duration_relabel (l : Lease Instance) (now : Millis) (x : Instance) :
    (relabel l now x).duration = l.duration := by
  rw [relabel_eq]

theorem Sound.key_chosen (hs : s.Sound k) {incoming : Instance} (hkey : incoming.key = k) :
    (s.chosen incoming).key = k := by
  rw [chosen, hs.held_eq_lease]
  cases h : s.lease with
  | none => exact hkey
  | some l =>
    simp only [Registry.newer]
    split
    · exact (hs.tended h).filed
    · exact hkey

theorem Sound.enroll (hs : s.Sound k) (now : Millis) (origin : Origin) {incoming : Instance}
    (duration : UInt64) (hkey : incoming.key = k) (hupper : Text.upper k.1 = k.1) :
    (s.enroll now origin incoming duration).slot.Sound k := by
  refine .inr ⟨_, rfl, ?_, hupper, leaseFor_isEvicted .., ?_⟩
  · rw [leaseFor_holder]
    exact (key_settle ..).trans (hs.key_chosen hkey)
  · rw [leaseFor_holder]
    exact agrees_settle ..

theorem Sound.renew (hs : s.Sound k) (now : Millis) (origin : Origin) (dirtyAt : Option Millis) :
    (s.renew now origin dirtyAt).slot.Sound k := by
  rw [Slot.renew, hs.held_eq_lease]
  cases h : s.lease with
  | none => exact hs
  | some l =>
    obtain ⟨hfiled, hupper, hlive, hagrees⟩ := hs.tended h
    exact .inr ⟨_, rfl, hfiled, hupper, hlive, hagrees⟩

theorem Sound.withdraw (hs : s.Sound k) (now : Millis) (test : Lease Instance → Bool) :
    (s.withdraw now test).slot.Sound k := by
  unfold Slot.withdraw
  split
  · exact hs
  · exact .empty k

/-- A change of a status keeps the key of the record, and imposes what the record shows. -/
def Consistent (change : StatusChange) : Prop :=
  ∀ override x p, change override x = some p →
    p.2.key = x.key ∧ p.1 = p.2.overridden ∧ ∀ s, p.1 = some s → p.2.status = s

theorem consistent_impose (status : Status) : Consistent (impose status) := by
  intro override x p h
  cases impose_eq_some h
  exact ⟨rfl, rfl, fun _ hs => Option.some.inj hs⟩

theorem consistent_release (status : Status) : Consistent (release status) := by
  intro override x p h
  cases release_eq_some h
  exact ⟨rfl, rfl, fun _ hs => nomatch hs⟩

theorem Sound.changeStatus (hs : s.Sound k) (now : Millis) (dirtyAt : Option Millis)
    {change : StatusChange}
    (hchange : Consistent change) : (s.changeStatus now dirtyAt change).slot.Sound k := by
  rw [Slot.changeStatus, hs.held_eq_lease]
  cases h : s.lease with
  | none => exact hs
  | some l =>
    simp only
    split
    · exact hs
    cases hp : change s.override l.holder with
    | none => exact hs
    | some p =>
      obtain ⟨hkey, hoverridden, hstatus⟩ := hchange _ _ _ hp
      obtain ⟨hfiled, hupper, hlive, -⟩ := hs.tended h
      refine .inr ⟨_, rfl, ?_, hupper, ?_, ?_⟩
      · rw [holder_relabel]
        exact hkey.trans hfiled
      · rw [isEvicted_relabel]
        exact hlive
      · rw [holder_relabel]
        exact .inl ⟨hoverridden, hstatus⟩

theorem upper_key (c : Command) : Text.upper c.key.1 = c.key.1 := by
  cases c <;> exact Text.upper_upper _

theorem Sound.move {c : Command} (hs : s.Sound c.key) (now : Millis) :
    (s.move now c).slot.Sound c.key := by
  cases c with
  | register origin record duration =>
    simp only [Slot.move]
    cases h : accept now record duration with
    | error e => exact hs
    | ok x =>
      exact hs.enroll now origin x.2 (Registry.accept_key h)
        (upper_key (.register origin record duration))
  | renew origin app id dirtyAt => exact hs.renew now origin dirtyAt
  | cancel origin app id => exact hs.withdraw now _
  | evict seen app id grace => exact hs.withdraw now _
  | updateStatus origin app id status dirtyAt =>
    exact hs.changeStatus now dirtyAt (consistent_impose status)
  | deleteOverride origin app id status dirtyAt =>
    exact hs.changeStatus now dirtyAt (consistent_release status)

end Slot

namespace Registry

def Sound (r : Registry) : Prop := ∀ k, (r.slot k).Sound k

variable {r : Registry}

theorem Sound.filed (hr : r.Sound) : r.Filed := fun k _ h => ((hr k).tended h).filed

theorem Sound.held?_eq_stored? (hr : r.Sound) (k : Key) : r.held? k = r.stored? k :=
  (hr k).held_eq_lease

theorem Sound.lease?_eq_slot_lease (hr : r.Sound) {app id : String} :
    r.lease? app id = (r.slot (keyOf app id)).lease := hr.held?_eq_stored? _

theorem Sound.slot_perform (hr : r.Sound) (now : Millis) (c : Command) (k : Key) :
    (r.perform now c).registry.slot k =
      if c.key = k then ((r.slot k).move now c).slot else r.slot k := by
  rw [(perform_acts hr.filed now c).slot k]
  split
  · rename_i hk
    rw [hk]
  · rfl

theorem Sound.perform (hr : r.Sound) (now : Millis) (c : Command) :
    (r.perform now c).registry.Sound := by
  intro k
  rw [hr.slot_perform now c k]
  split
  · rename_i hk
    subst hk
    exact (hr c.key).move now
  · exact hr k

inductive Reachable : Registry → Prop where
  | start (settings : RegistrySettings) (now : Millis) : Reachable (.start settings now)
  | perform {r : Registry} (now : Millis) (c : Command) :
    Reachable r → Reachable (r.perform now c).registry
  | takeDirty {r : Registry} : Reachable r → Reachable r.takeDirty.2
  | prune {r : Registry} : Reachable r → Reachable r.prune.2
  | purge {r : Registry} (now : Millis) : Reachable r → Reachable (r.purge now).2
  | rotate {r : Registry} : Reachable r → Reachable { r with renewals := r.renewals.rotate }

theorem stored?_prune (r : Registry) (k : Key) : r.prune.2.stored? k = r.stored? k := by
  simp only [stored?, prune, KeyMap.get?_filter]
  cases h : r.apps.get? k.1 with
  | none => rfl
  | some leases =>
    rw [Option.filter_some]
    split
    · rfl
    · rename_i hempty
      have hentries : leases.entries = [] := by simpa [KeyMap.isEmpty] using hempty
      simp [KeyMap.get?, hentries, KeyMap.lookup]

theorem slot_prune (r : Registry) (k : Key) : r.prune.2.slot k = r.slot k := by
  rw [slot, stored?_prune]
  rfl

theorem Reachable.sound (h : r.Reachable) : r.Sound := by
  induction h with
  | start settings now => exact fun k => .empty k
  | perform now c _ ih => exact ih.perform now c
  | prune _ ih =>
    intro k
    rw [slot_prune]
    exact ih k
  | takeDirty _ ih | purge _ _ ih | rotate _ ih => exact ih

end Registry

end ServiceRegistry
