import Mathlib.Data.List.Induction
import ServiceRegistry.Proofs.Registry.Representation
import ServiceRegistry.Proofs.Registry.Runs

/-! # First time up

A lease notes when its holder was first up. A registration makes a new lease and carries the time
over, whichever record it keeps, so the time is that of the first deed since the instance was added
that left its record up: `start_upSince`. Zero stands for "never", so the clock must not read it.
-/

namespace ServiceRegistry

set_option autoImplicit false

def Command.setsStatus : Command → Bool
  | register .. | updateStatus .. | deleteOverride .. => true
  | renew .. | cancel .. | evict .. => false

namespace Slot

variable {k : Key} {s : Slot} {l l' : Lease Instance} {now : Millis}

def upSince (s : Slot) : Millis := (s.lease.map (·.upSince)).getD 0

theorem upSince_of_lease (h : s.lease = some l) : s.upSince = l.upSince := by
  rw [upSince, h]
  rfl

theorem Regular.upSince_of_lease (h : s.Regular k) (hl : s.lease = some l) (p : Prop)
    [Decidable p] :
    l.upSince = if (p ∧ l.holder.status = .up) ∧ s.upSince = 0 then now else s.upSince := by
  rw [Slot.upSince_of_lease hl, if_neg]
  exact fun hzero => (h l hl).upSince hzero.1.2 hzero.2

theorem Sound.upSince_renew (hs : s.Sound k) (origin : Origin) (dirtyAt : Option Millis)
    (hl' : (s.renew now origin dirtyAt).slot.lease = some l') : l'.upSince = s.upSince := by
  rw [Slot.renew, hs.held_eq_lease] at hl'
  cases hl : s.lease with
  | none =>
    rw [hl] at hl'
    cases hl.symm.trans hl'
  | some l =>
    rw [hl] at hl'
    rw [Slot.upSince_of_lease hl, ← Option.some.inj hl']
    rfl

theorem upSince_withdraw {test : Lease Instance → Bool}
    (hl' : (s.withdraw now test).slot.lease = some l') : l'.upSince = s.upSince := by
  unfold withdraw at hl'
  split at hl'
  · rw [Slot.upSince_of_lease hl']
  · cases hl'

theorem Sound.upSince_enroll (hs : s.Sound k) (origin : Origin) (incoming : Instance)
    (duration : UInt64) (hl' : (s.enroll now origin incoming duration).slot.lease = some l') :
    l'.upSince = if l'.holder.status = .up ∧ s.upSince = 0 then now else s.upSince := by
  obtain rfl : Registry.leaseFor (s.enrolled now origin incoming).2.2 duration now
      ((s.held.map (·.upSince)).getD 0) = l' := Option.some.inj hl'
  rw [leaseFor_eq, hs.held_eq_lease]
  rfl

theorem Sound.upSince_changeStatus (hs : s.Sound k) (h : s.Regular k) (dirtyAt : Option Millis)
    {change : StatusChange} (hl' : (s.changeStatus now dirtyAt change).slot.lease = some l') :
    l'.upSince = if l'.holder.status = .up ∧ s.upSince = 0 then now else s.upSince := by
  have hkept (hl : s.lease = some l') :
      l'.upSince = if l'.holder.status = .up ∧ s.upSince = 0 then now else s.upSince := by
    simpa using h.upSince_of_lease hl True
  rw [Slot.changeStatus, hs.held_eq_lease] at hl'
  split at hl'
  · exact hkept hl'
  rename_i l hl
  split at hl'
  · exact hkept hl'
  split at hl'
  · exact hkept hl'
  · cases hl'
    rw [Slot.upSince_of_lease hl, relabel_eq]

/-- What a command makes of the time: it is noted by the first registration or status operation
after which the holder is up. -/
theorem Sound.upSince_move {c : Command} (hs : s.Sound c.key) (h : s.Regular c.key)
    (hl' : (s.move now c).slot.lease = some l') :
    l'.upSince =
      if (c.setsStatus ∧ l'.holder.status = .up) ∧ s.upSince = 0 then now else s.upSince := by
  cases c with
  | register origin record duration =>
    simp only [Slot.move] at hl'
    split at hl'
    · exact h.upSince_of_lease hl' _
    · simpa [Command.setsStatus] using hs.upSince_enroll origin _ _ hl'
  | renew origin app id dirtyAt =>
    simpa [Command.setsStatus] using hs.upSince_renew origin dirtyAt hl'
  | cancel | evict => simpa [Command.setsStatus] using upSince_withdraw hl'
  | updateStatus origin app id status dirtyAt | deleteOverride origin app id status dirtyAt =>
    simpa [Command.setsStatus] using hs.upSince_changeStatus h dirtyAt hl'

end Slot

namespace Deed

variable {d : Deed} {k : Key} {l : Lease Instance}

def adds (k : Key) (d : Deed) : Bool :=
  d.changes.any fun c => c.kind = .added ∧ c.record.key = k

/-- A registration or a status operation after which the record of an instance is up. -/
def raises (k : Key) (d : Deed) : Bool :=
  d.command.key = k && d.command.setsStatus &&
    (d.after.stored? k).any fun l => l.holder.status = .up

theorem slot_after (hd : d.before.Reachable) (k : Key) :
    d.after.slot k =
      if d.command.key = k then ((d.before.slot k).move d.now d.command).slot
      else d.before.slot k := hd.sound.slot_perform d.now d.command k

theorem stored?_after_of_ne (hd : d.before.Reachable) (hk : d.command.key ≠ k) :
    d.after.stored? k = d.before.stored? k :=
  congrArg Slot.lease ((slot_after hd k).trans (if_neg hk))

theorem key_of_isSome (hd : d.before.Reachable) (hnone : d.before.stored? k = none)
    (hsome : (d.after.stored? k).isSome) : d.command.key = k := by
  by_contra hk
  rw [stored?_after_of_ne hd hk, hnone] at hsome
  cases hsome

theorem adds_iff (hd : d.before.Reachable) :
    d.adds k = true ↔ d.before.stored? k = none ∧ (d.after.stored? k).isSome := by
  have hacts := Registry.perform_acts hd.sound.filed d.now d.command
  have hafter : d.after.stored? d.command.key =
      ((d.before.slot d.command.key).move d.now d.command).slot.lease :=
    congrArg Slot.lease ((slot_after hd d.command.key).trans (if_pos rfl))
  rcases (hd.sound d.command.key).outcome_move d.now with
    @⟨kind, record, told, hchange, hshift, -⟩ | ⟨hchange, hlease, -, -⟩
  · have hlog : d.after.log = d.before.log.append kind record d.now :=
      hacts.log.trans (by rw [Move.logged, hchange])
    have hkey := hshift.key_record (hd.sound _) ((hd.sound _).move d.now)
    have hadds : d.adds k = true ↔ kind = .added ∧ d.command.key = k := by
      rw [adds, changes_of_log hd hlog]
      simp [hkey]
    rw [hadds, hshift.kind_iff.1]
    constructor
    · rintro ⟨hnone, rfl⟩
      have hholder := congrArg Option.isSome hshift.holder_eq
      rw [hshift.kind_iff.1.mpr hnone, Option.isSome_map, ← hafter] at hholder
      exact ⟨hnone, hholder⟩
    · rintro ⟨hnone, hsome⟩
      obtain rfl := key_of_isSome hd hnone hsome
      exact ⟨hnone, rfl⟩
  · have hlog : d.after.log = d.before.log := hacts.log.trans (by rw [Move.logged, hchange])
    rw [adds, changes_of_log_eq hd hlog]
    refine iff_of_false Bool.false_ne_true ?_
    rintro ⟨hnone, hsome⟩
    obtain rfl := key_of_isSome hd hnone hsome
    have hholder := congrArg Option.isSome hlease.holder_eq
    rw [Option.isSome_map, Option.isSome_map, ← hafter, hsome, Registry.slot_lease, hnone]
      at hholder
    cases hholder

theorem isSome_after (hd : d.before.Reachable) (hl : d.before.stored? k = some l)
    (hremains : d.command.key = k → d.removes = false) : (d.after.stored? k).isSome := by
  by_cases hk : d.command.key = k
  · have hremoves := hremains hk
    rw [removes, hk, hl, Option.isSome_some, Bool.true_and] at hremoves
    exact Option.isNone_eq_false_iff.mp hremoves
  · rw [stored?_after_of_ne hd hk, hl]
    rfl

theorem upSince_after (hd : d.before.Reachable) (hregular : d.before.Regular)
    (hl : d.after.stored? k = some l) :
    l.upSince =
      if d.raises k ∧ (d.before.slot k).upSince = 0 then d.now
      else (d.before.slot k).upSince := by
  have hslot := slot_after hd k
  have hlease : (d.after.slot k).lease = some l := hl
  rw [raises, hl]
  split at hslot
  · rename_i hk
    subst hk
    rw [hslot] at hlease
    simpa using (hd.sound _).upSince_move (hregular _) hlease
  · rename_i hk
    rw [hslot] at hlease
    rw [Slot.upSince_of_lease hlease, if_neg]
    simp [hk]

end Deed

/-- The time of the first deed that left the record of an instance up, zero if none did. -/
def firstUp (k : Key) (deeds : List Deed) : Millis :=
  ((deeds.find? (·.raises k)).map (·.now)).getD 0

/-- The deeds of a run from the one on that added an instance last. -/
def SinceAdded (k : Key) (deeds since : List Deed) : Prop :=
  ∃ added later, since = added :: later ∧ since <:+ deeds ∧
    added.adds k = true ∧ ∀ d ∈ later, d.adds k = false

section Since

variable {k : Key} {deeds since : List Deed} {d : Deed}

theorem firstUp_singleton (d : Deed) : firstUp k [d] = if d.raises k then d.now else 0 := by
  rw [firstUp, List.find?_singleton]
  split <;> rfl

theorem firstUp_append_singleton (hnow : ∀ d ∈ deeds, d.now ≠ 0) (d : Deed) :
    firstUp k (deeds ++ [d]) =
      if d.raises k ∧ firstUp k deeds = 0 then d.now else firstUp k deeds := by
  rw [firstUp, firstUp, List.find?_append]
  cases hfirst : deeds.find? (·.raises k) with
  | none => cases hd : d.raises k <;> simp [hd]
  | some first =>
    have hne := hnow first (List.mem_of_find?_eq_some hfirst)
    simp [hne]

theorem SinceAdded.of_adds (hd : d.adds k = true) : SinceAdded k (deeds ++ [d]) [d] :=
  ⟨d, [], rfl, List.suffix_append .., hd, fun _ h => nomatch h⟩

theorem SinceAdded.append_singleton (h : SinceAdded k deeds since) (hd : d.adds k = false) :
    SinceAdded k (deeds ++ [d]) (since ++ [d]) := by
  obtain ⟨added, later, rfl, ⟨before, rfl⟩, hadded, hlater⟩ := h
  refine ⟨added, later ++ [d], rfl, ⟨before, (List.append_assoc ..).symm⟩, hadded, ?_⟩
  intro e he
  rcases List.mem_append.mp he with he | he
  · exact hlater e he
  · rw [List.mem_singleton.mp he]
    exact hd

end Since

namespace Registry

variable {r : Registry} {k : Key} {l : Lease Instance}

theorem regular_start (settings : RegistrySettings) (startedAt : Millis) :
    (start settings startedAt).Regular := fun _ _ h => nomatch h

theorem Regular.step (h : r.Regular) (hr : r.Reachable) {t : Turn}
    (hnow : ∀ d ∈ r.deed? t, d.now ≠ 0) : (r.step t).Regular := by
  rcases r.step_cases t with ⟨d, hdeed, rfl, hstep⟩ | ⟨-, hspares⟩
  · rw [hstep]
    exact h.perform hr.sound (hnow d hdeed) d.command
  · intro k
    rw [hspares.slot k]
    exact h k

theorem Regular.run (h : r.Regular) (hr : r.Reachable) {turns : List Turn}
    (hnow : ∀ d ∈ r.done turns, d.now ≠ 0) : (r.run turns).Regular := by
  induction turns generalizing r with
  | nil => exact h
  | cons t rest ih =>
    obtain ⟨hfirst, hrest⟩ := List.forall_mem_append.mp hnow
    exact ih (h.step hr fun d hd => hfirst d (Option.mem_toList.mpr hd)) (hr.step t) hrest

def NotesFirstUp (k : Key) (deeds : List Deed) (r : Registry) : Prop :=
  ∀ l, r.stored? k = some l → ∃ since, SinceAdded k deeds since ∧ l.upSince = firstUp k since

theorem NotesFirstUp.deed {deeds : List Deed} {d : Deed} (h : NotesFirstUp k deeds d.before)
    (hd : d.before.Reachable) (hregular : d.before.Regular) (hnow : ∀ d ∈ deeds, d.now ≠ 0) :
    NotesFirstUp k (deeds ++ [d]) d.after := by
  intro l' hl'
  have hsince := Deed.upSince_after hd hregular hl'
  cases hl : d.before.stored? k with
  | none =>
    have hadds : d.adds k = true := (Deed.adds_iff hd).mpr ⟨hl, hl' ▸ rfl⟩
    refine ⟨[d], .of_adds hadds, ?_⟩
    have hslot : (d.before.slot k).upSince = 0 := by rw [Slot.upSince, slot_lease, hl]; rfl
    rw [hsince, hslot, firstUp_singleton]
    simp
  | some l =>
    have hadds : d.adds k = false := by
      rw [Bool.eq_false_iff, Ne, Deed.adds_iff hd, hl]
      exact fun h => nomatch h.1
    obtain ⟨since, hadded, hfirst⟩ := h l hl
    refine ⟨since ++ [d], hadded.append_singleton hadds, ?_⟩
    obtain ⟨_, _, -, hsuffix, -⟩ := hadded
    rw [firstUp_append_singleton (fun e he => hnow e (hsuffix.subset he)), ← hfirst, hsince,
      Slot.upSince_of_lease (s := d.before.slot k) hl]

theorem notesFirstUp_run {settings : RegistrySettings} {startedAt : Millis} {turns : List Turn}
    (hnow : ∀ d ∈ (start settings startedAt).done turns, d.now ≠ 0) (k : Key) :
    NotesFirstUp k ((start settings startedAt).done turns)
      ((start settings startedAt).run turns) := by
  induction turns using List.reverseRecOn with
  | nil => exact fun _ h => nomatch h
  | append_singleton turns t ih =>
    rw [done_append, done_singleton] at hnow ⊢
    obtain ⟨hbefore, -⟩ := List.forall_mem_append.mp hnow
    have hr := (Reachable.start settings startedAt).run turns
    have hregular := (regular_start settings startedAt).run (.start settings startedAt) hbefore
    have hnotes := ih hbefore
    rw [run_append]
    rcases step_cases (run (start settings startedAt) turns) t with
      ⟨d, hdeed, hd, hstep⟩ | ⟨hdeed, hspares⟩
    · rw [← hd] at hr hregular hnotes
      rw [hdeed, Option.toList_some, show run _ [t] = d.after from hstep]
      exact hnotes.deed hr hregular hbefore
    · rw [hdeed, Option.toList_none, List.append_nil]
      exact fun l hl => hnotes l ((congrArg Slot.lease (hspares.slot k)).symm.trans hl)

theorem upSince_run (hr : r.Reachable) (hregular : r.Regular) (hl : r.stored? k = some l)
    (hup : l.upSince ≠ 0) {turns : List Turn} (hnow : ∀ d ∈ r.done turns, d.now ≠ 0)
    (hstays : ∀ d ∈ r.done turns, d.command.key = k → d.removes = false) :
    ∃ l', (r.run turns).stored? k = some l' ∧ l'.upSince = l.upSince := by
  induction turns generalizing r l with
  | nil => exact ⟨l, hl, rfl⟩
  | cons t rest ih =>
    obtain ⟨hnow, hnowRest⟩ := List.forall_mem_append.mp hnow
    obtain ⟨hstays, hstaysRest⟩ := List.forall_mem_append.mp hstays
    have hregular' := hregular.step hr fun d hd => hnow d (Option.mem_toList.mpr hd)
    have hrest {l' : Lease Instance} (hl' : (r.step t).stored? k = some l')
        (hsame : l'.upSince = l.upSince) :
        ∃ l'', (r.run (t :: rest)).stored? k = some l'' ∧ l''.upSince = l.upSince := by
      obtain ⟨l'', hl'', hsame'⟩ :=
        ih (hr.step t) hregular' hl' (hsame ▸ hup) hnowRest hstaysRest
      exact ⟨l'', hl'', hsame'.trans hsame⟩
    rcases r.step_cases t with ⟨d, hdeed, rfl, hstep⟩ | ⟨-, hspares⟩
    · have hremains : d.command.key = k → d.removes = false :=
        hstays d (Option.mem_toList.mpr hdeed)
      obtain ⟨l', hl'⟩ := Option.isSome_iff_exists.mp (Deed.isSome_after hr hl hremains)
      refine hrest (hstep ▸ hl') ?_
      rw [Deed.upSince_after hr hregular hl', Slot.upSince_of_lease (s := d.before.slot k) hl,
        if_neg fun h => hup h.2]
    · exact hrest ((congrArg Slot.lease (hspares.slot k)).trans hl) rfl

/-- After any run whose clock does not read zero, the lease of an instance notes the time of the
first registration or status operation, since the instance was last added, that left it up, and
zero if there was none. A time that is noted stays until the instance is removed. -/
theorem start_upSince {settings : RegistrySettings} {startedAt : Millis} {turns : List Turn}
    {app id : String} {l : Lease Instance}
    (hnow : ∀ d ∈ (start settings startedAt).done turns, d.now ≠ 0)
    (hl : ((start settings startedAt).run turns).lease? app id = some l) :
    let k := keyOf app id
    (∃ since, SinceAdded k ((start settings startedAt).done turns) since ∧
      l.upSince = firstUp k since) ∧
    ∀ more : List Turn,
      (∀ d ∈ ((start settings startedAt).run turns).done more,
        d.now ≠ 0 ∧ (d.command.key = k → d.removes = false)) →
      l.upSince ≠ 0 →
      ∃ l', ((start settings startedAt).run (turns ++ more)).lease? app id = some l' ∧
        l'.upSince = l.upSince := by
  intro k
  have hr := (Reachable.start settings startedAt).run turns
  have hregular := (regular_start settings startedAt).run (.start settings startedAt) hnow
  have hstored : ((start settings startedAt).run turns).stored? k = some l :=
    hr.sound.lease?_eq_slot_lease.symm.trans hl
  refine ⟨notesFirstUp_run hnow k l hstored, fun more hmore hup => ?_⟩
  obtain ⟨l', hl', hsame⟩ := upSince_run hr hregular hstored hup
    (fun d hd => (hmore d hd).1) fun d hd => (hmore d hd).2
  rw [run_append]
  exact ⟨l', (hr.run more).sound.lease?_eq_slot_lease.trans hl', hsame⟩

/-- Added while down, up by a client, and registered again by a peer whose record is older. -/
theorem start_upSince_late :
    let record : Instance := .named "web" "web-1" "host" 80
    let late : Instance := { record with status := .starting, dirtyAt := 3 }
    let turns : List Turn :=
      [.perform 2 (.register .client { record with status := .down } none),
        .perform 4 (.updateStatus .client "web" "web-1" .up none),
        .receive 5 (.of .register late 3)]
    let more : List Turn := [.perform 6 (.updateStatus .client "web" "web-1" .down none), .prune]
    let k := keyOf "web" "web-1"
    (∃ since, SinceAdded k ((start {} 1).done turns) since ∧ firstUp k since = 4) ∧
      (((start {} 1).run (turns ++ more)).lease? "web" "web-1").map (·.upSince) = some 4 := by
  intro record late turns more k
  have hnow : ∀ d ∈ (start {} 1).done turns, d.now ≠ 0 := by decide +kernel
  have hmore : ∀ d ∈ ((start {} 1).run turns).done more,
      d.now ≠ 0 ∧ (d.command.key = k → d.removes = false) := by decide +kernel
  have hup : (((start {} 1).run turns).lease? "web" "web-1").map (·.upSince) = some 4 := by
    decide +kernel
  obtain ⟨l, hl, hfour⟩ := Option.map_eq_some_iff.mp hup
  obtain ⟨⟨since, hsince, hfirst⟩, hstays⟩ := start_upSince hnow hl
  obtain ⟨l', hl', hsame⟩ := hstays more hmore (hfour ▸ by decide)
  refine ⟨⟨since, hsince, hfirst.symm.trans hfour⟩, ?_⟩
  rw [hl', Option.map_some, hsame, hfour]

end Registry

end ServiceRegistry
