import ServiceRegistry.Proofs.Registry.Lockstep

/-! # Times of change that go back

A record that stays registered keeps its time of change or gets a later one. One kind of command
makes an exception: a change of the status that names no time is stamped with the clock, also
where the record is ahead of the clock. `perform_dirtyAt_le_iff` says that there is no other.
-/

namespace ServiceRegistry

set_option autoImplicit false

namespace Command

/-- The changes of a status that leave the time of change to the clock. -/
def Untimed : Command → Prop
  | .updateStatus _ _ _ _ none => True
  | .deleteOverride _ _ _ _ none => True
  | _ => False

/-- A command that changes a record which is ahead of the clock, and stamps it with the clock. -/
def Rewinds (now : Millis) (override : Option Status) (x : Instance) (c : Command) : Prop :=
  c.Untimed ∧ ¬ c.InPlace override x ∧ now < x.dirtyAt

end Command

namespace Slot

variable {k : Key} {s : Slot} {l l' : Lease Instance} {now : Millis}

theorem le_dirtyAt_newer (stored incoming : Instance) :
    stored.dirtyAt ≤ (Registry.newer stored incoming).dirtyAt := by
  unfold Registry.newer
  split
  · exact Int64.le_refl _
  · rename_i hnewer
    exact Int64.not_lt.mp hnewer

theorem Sound.dirtyAt_enroll (hs : s.Sound k) (hl : s.lease = some l) (origin : Origin)
    (incoming : Instance) (duration : UInt64)
    (hl' : (s.enroll now origin incoming duration).slot.lease = some l') :
    l.holder.dirtyAt ≤ l'.holder.dirtyAt := by
  have hchosen : s.chosen incoming = Registry.newer l.holder incoming := by
    rw [chosen, hs.held_eq_lease, hl]
  have hholder : l'.holder = (s.enrolled now origin incoming).2.2 :=
    (congrArg Lease.holder (Option.some.inj hl')).symm.trans (leaseFor_holder ..)
  have hdirty : l'.holder.dirtyAt = (Registry.newer l.holder incoming).dirtyAt := by
    rw [hholder, ← hchosen]
    exact dirtyAt_settle s.override origin (s.chosen incoming)
  rw [hdirty]
  exact le_dirtyAt_newer l.holder incoming

/-- A withdrawal that leaves a lease leaves the lease it found. -/
theorem lease_withdraw (hl : s.lease = some l) {test : Lease Instance → Bool}
    (hl' : (s.withdraw now test).slot.lease = some l') : l' = l := by
  unfold withdraw at hl'
  split at hl'
  · rw [hl] at hl'
    exact (Option.some.inj hl').symm
  · cases hl'

theorem Sound.lease_renew (hs : s.Sound k) (hl : s.lease = some l) (origin : Origin)
    (dirtyAt : Option Millis) (hl' : (s.renew now origin dirtyAt).slot.lease = some l') :
    l'.holder = l.holder := by
  rw [Slot.renew, hs.held_eq_lease, hl] at hl'
  rw [← Option.some.inj hl']
  rfl

/-- A change of the status that goes through stamps the record with its own time, or else with
the clock. -/
theorem Sound.dirtyAt_changeStatus_iff (hs : s.Sound k) (hl : s.lease = some l)
    {change : StatusChange} (dirtyAt : Option Millis)
    (hl' : (s.changeStatus now dirtyAt change).slot.lease = some l') :
    l.holder.dirtyAt ≤ l'.holder.dirtyAt ↔
      ¬ (dirtyAt = none ∧ change s.override l.holder ≠ none ∧ now < l.holder.dirtyAt) := by
  have hrests {m : Move} (hm : m.slot = s) (hlease : m.slot.lease = some l') :
      l.holder.dirtyAt ≤ l'.holder.dirtyAt := by
    rw [hm, hl] at hlease
    rw [Option.some.inj hlease]
    exact Int64.le_refl _
  simp only [Slot.changeStatus, hs.held_eq_lease, hl] at hl'
  by_cases hstale : dirtyAt.any (· < l.holder.dirtyAt) = true
  · rw [if_pos hstale] at hl'
    refine iff_of_true (hrests rfl hl') ?_
    rintro ⟨rfl, -⟩
    cases hstale
  rw [if_neg hstale] at hl'
  cases hchange : change s.override l.holder with
  | none =>
    rw [hchange] at hl'
    refine iff_of_true (hrests rfl hl') ?_
    rintro ⟨-, hne, -⟩
    exact hne rfl
  | some p =>
    rw [hchange] at hl'
    have hholder : l'.holder = stamp now dirtyAt p.2 := by
      rw [← Option.some.inj hl', holder_relabel]
    rw [hholder]
    cases dirtyAt with
    | none => simp [stamp, Int64.not_lt]
    | some d =>
      refine iff_of_true ?_ (fun h => Option.some_ne_none d h.1)
      change l.holder.dirtyAt ≤ d
      simpa [Int64.not_lt] using hstale

theorem impose_ne_none_iff {status : Status} {override : Option Status} {x : Instance} :
    impose status override x ≠ none ↔ ¬ (x.status = status ∧ x.overridden = some status) := by
  unfold impose
  split <;> simp [*]

theorem release_ne_none_iff {status : Status} {override : Option Status} {x : Instance} :
    release status override x ≠ none ↔
      ¬ (override = none ∧ x.overridden = none ∧ x.status = status) := by
  unfold release
  split <;> simp [*]

/-- A move does not turn the time of change of its record back, unless its command rewinds. -/
theorem Sound.dirtyAt_move_iff {c : Command} (hs : s.Sound c.key) (hl : s.lease = some l)
    (hl' : (s.move now c).slot.lease = some l') :
    l.holder.dirtyAt ≤ l'.holder.dirtyAt ↔ ¬ c.Rewinds now s.override l.holder := by
  cases c with
  | register origin record duration =>
    refine iff_of_true ?_ (fun h => h.1)
    simp only [Slot.move] at hl'
    split at hl'
    · rw [hl] at hl'
      rw [Option.some.inj hl']
      exact Int64.le_refl _
    · exact hs.dirtyAt_enroll hl _ _ _ hl'
  | renew origin app id dirtyAt =>
    refine iff_of_true ?_ (fun h => h.1)
    rw [hs.lease_renew hl origin dirtyAt hl']
    exact Int64.le_refl _
  | cancel origin app id =>
    refine iff_of_true ?_ (fun h => h.1)
    rw [lease_withdraw hl hl']
    exact Int64.le_refl _
  | evict seen app id grace =>
    refine iff_of_true ?_ (fun h => h.1)
    rw [lease_withdraw hl hl']
    exact Int64.le_refl _
  | updateStatus origin app id status dirtyAt =>
    rw [hs.dirtyAt_changeStatus_iff hl dirtyAt hl', impose_ne_none_iff]
    cases dirtyAt <;> simp [Command.Rewinds, Command.Untimed, Command.InPlace]
  | deleteOverride origin app id status dirtyAt =>
    rw [hs.dirtyAt_changeStatus_iff hl dirtyAt hl', release_ne_none_iff]
    cases dirtyAt <;> simp [Command.Rewinds, Command.Untimed, Command.InPlace]

end Slot

namespace Registry

variable {r : Registry} {now : Millis} {app id : String} {l : Lease Instance}

theorem Reachable.dirtyAt_perform_iff (hr : r.Reachable) (c : Command) {l' : Lease Instance}
    (hheld : r.lease? app id = some l)
    (hafter : (r.perform now c).registry.lease? app id = some l') :
    l.holder.dirtyAt ≤ l'.holder.dirtyAt ↔
      ¬ (c.key = keyOf app id ∧ c.Rewinds now (r.override? app id) l.holder) := by
  have hlease : (r.slot (keyOf app id)).lease = some l := by
    rw [← hr.sound.lease?_eq_slot_lease]
    exact hheld
  have hlease' : ((r.perform now c).registry.slot (keyOf app id)).lease = some l' := by
    rw [← (hr.sound.perform now c).lease?_eq_slot_lease]
    exact hafter
  rw [(perform_acts hr.sound.filed now c).slot] at hlease'
  by_cases hkey : c.key = keyOf app id
  · rw [if_pos hkey] at hlease'
    rw [← hkey] at hlease
    rw [(hr.sound c.key).dirtyAt_move_iff hlease hlease', hkey]
    simp only [true_and]
    rfl
  · rw [if_neg hkey, hlease] at hlease'
    rw [Option.some.inj hlease']
    exact iff_of_true (Int64.le_refl _) fun h => hkey h.1

/-- To adopt a record is to register it as a peer's. -/
theorem adopt_registry (r : Registry) (now : Millis) (record : Instance) (lease : Option UInt64)
    {s : Response Unit} (h : r.adopt now record lease = .ok s) :
    ∃ duration, s.registry = (r.perform now (.register .peer record duration)).registry := by
  refine ⟨((r.lease? record.app record.id).map (·.duration)).or lease, ?_⟩
  rw [adopt] at h
  simp only [perform, h]
  rfl

/-- The time of change of a record that stays registered goes back under the commands that
rewind it, and under no other. Nor does it under the adoption of a peer's record. -/
theorem perform_dirtyAt_le_iff (hr : r.Reachable) (now : Millis)
    (hheld : r.lease? app id = some l) :
    (∀ c l', (r.perform now c).registry.lease? app id = some l' →
      (l.holder.dirtyAt ≤ l'.holder.dirtyAt ↔
        ¬ (c.key = keyOf app id ∧ c.Rewinds now (r.override? app id) l.holder))) ∧
    ∀ record lease s l', r.adopt now record lease = .ok s →
      s.registry.lease? app id = some l' → l.holder.dirtyAt ≤ l'.holder.dirtyAt := by
  constructor
  · intro c l' hafter
    exact hr.dirtyAt_perform_iff c hheld hafter
  · intro record lease s l' hadopt hafter
    obtain ⟨duration, hregistry⟩ := adopt_registry r now record lease hadopt
    rw [hregistry] at hafter
    rw [hr.dirtyAt_perform_iff _ hheld hafter]
    exact fun h => h.2.1

/-- A record stamped by its client ahead of the clock: taking it out of service sets its time of
change back, while a registration without a time of change does not. -/
theorem updateStatus_rewinds :
    let x := { Instance.named "WEB" "web-1" "host" 80 with dirtyAt := 200 }
    let r := ((Registry.start {} 1).perform 2 (.register .client x none)).registry
    let update := Command.updateStatus .client "WEB" "web-1" .outOfService none
    let register := Command.register .client { x with dirtyAt := 0 } none
    r.Reachable ∧ ∃ l, r.lease? "WEB" "web-1" = some l ∧
      (∃ l', (r.perform 3 update).registry.lease? "WEB" "web-1" = some l' ∧
        ¬ l.holder.dirtyAt ≤ l'.holder.dirtyAt) ∧
      ∃ l', (r.perform 3 register).registry.lease? "WEB" "web-1" = some l' ∧
        l.holder.dirtyAt ≤ l'.holder.dirtyAt := by
  intro x r update register
  have hr : r.Reachable := .perform 2 _ (.start {} 1)
  have hheld : ∃ l, r.lease? "WEB" "web-1" = some l ∧ l.holder.dirtyAt = 200 ∧
      l.holder.status = .up :=
    ⟨{ Lease.grant { x with lastChange := some .added, updatedAt := 2 } 90 2 with upSince := 2 },
      by decide +kernel, rfl, rfl⟩
  obtain ⟨l, hheld, hdirty, hstatus⟩ := hheld
  have hiff := (perform_dirtyAt_le_iff hr 3 hheld).1
  refine ⟨hr, l, hheld, ?_, ?_⟩
  · have hafter : ((r.perform 3 update).registry.lease? "WEB" "web-1").isSome := by decide +kernel
    obtain ⟨l', hl'⟩ := Option.isSome_iff_exists.mp hafter
    refine ⟨l', hl', ?_⟩
    rw [hiff update l' hl', Classical.not_not]
    refine ⟨rfl, trivial, ?_, ?_⟩
    · rintro ⟨hplace, -⟩
      exact nomatch hstatus.symm.trans hplace
    · rw [hdirty]
      decide
  · have hafter : ((r.perform 3 register).registry.lease? "WEB" "web-1").isSome := by
      decide +kernel
    obtain ⟨l', hl'⟩ := Option.isSome_iff_exists.mp hafter
    exact ⟨l', hl', (hiff register l' hl').mpr fun h => h.2.1⟩

end Registry

end ServiceRegistry
