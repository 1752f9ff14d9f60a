import ServiceRegistry.Proofs.Registry.Reachable

/-! # Commands in lockstep with log, events and peers

A command either takes effect as a whole or leaves the registrations alone. If it takes effect,
the log, the dirty flag, observers and peers all get the one change that was made; if not, they
get nothing, apart from the heartbeat of a client.
-/

namespace ServiceRegistry

set_option autoImplicit false

open Replication

def Command.InPlace (override : Option Status) (r : Instance) : Command → Prop
  | .updateStatus _ _ _ s _ => r.status = s ∧ r.overridden = some s
  | .deleteOverride _ _ _ s _ => override = none ∧ r.overridden = none ∧ r.status = s
  | _ => False

inductive CommandAnswer.Accepted : CommandAnswer → Prop where
  | registered : Accepted (.registered (.ok ()))
  | removed : Accepted (.removed true)
  | changed : Accepted (.changed .success)

inductive CommandAnswer.Idle (c : Command) (s : Slot) : CommandAnswer → Prop where
  | refused (e : Invalid) : Idle c s (.registered (.error e))
  | renewal (answer : RenewalAnswer) : Idle c s (.renewed answer)
  | missing : Idle c s (.removed false)
  | notFound : Idle c s (.changed .notFound)
  | conflict : Idle c s (.changed .conflict)
  | inPlace {l : Lease Instance} : s.lease = some l → c.InPlace s.override l.holder →
    Idle c s (.changed .success)

namespace Slot

/-- How a change that is logged shows in the slot of its instance. -/
inductive Shift (now : Millis) (before after : Slot) : ChangeKind → Instance → Prop where
  | added {l : Lease Instance} {record : Instance} : before.lease = none →
    after.lease = some l → l.holder = record → Shift now before after .added record
  | modified {l l' : Lease Instance} {record : Instance} : before.lease = some l →
    after.lease = some l' → l'.holder = record → Shift now before after .modified record
  | deleted {l : Lease Instance} : before.lease = some l → after = {} →
    Shift now before after .deleted { l.holder with lastChange := some .deleted, updatedAt := now }

theorem Shift.kind_iff {now : Millis} {before after : Slot} {kind : ChangeKind} {record : Instance}
    (h : Shift now before after kind record) :
    (kind = .added ↔ before.lease = none) ∧
      (kind = .modified ↔ before.lease ≠ none ∧ after.lease ≠ none) ∧
      (kind = .deleted ↔ before.lease ≠ none ∧ after.lease = none) := by
  cases h with
  | added hbefore hafter => simp [hbefore]
  | modified hbefore hafter => simp [hbefore, hafter]
  | deleted hbefore hafter => simp [hbefore, hafter]

theorem Shift.holder_eq {now : Millis} {before after : Slot} {kind : ChangeKind} {record : Instance}
    (h : Shift now before after kind record) :
    after.lease.map (·.holder) = if kind = .deleted then none else some record := by
  cases h with
  | added _ hafter hholder => simp [hafter, hholder]
  | modified _ hafter hholder => simp [hafter, hholder]
  | deleted _ hafter => simp [hafter]

theorem Shift.removed {now : Millis} {before after : Slot} {record : Instance}
    (h : Shift now before after .deleted record) :
    before.lease.map (fun l => { l.holder with lastChange := some .deleted, updatedAt := now }) =
      some record ∧ after.override = none := by
  cases h with
  | deleted hbefore hafter => simp [hbefore, hafter]

def Undisturbed (now : Millis) (c : Command) (before after : Option (Lease Instance)) : Prop :=
  after = before ∨ c.operation = .heartbeat ∧ after = before.map (·.renew now)

theorem Undisturbed.holder_eq {now : Millis} {c : Command} {before after : Option (Lease Instance)}
    (h : Undisturbed now c before after) : after.map (·.holder) = before.map (·.holder) := by
  rcases h with rfl | ⟨-, rfl⟩
  · rfl
  · rw [Option.map_map]
    rfl

/-- A move is logged and shows in the slot, or leaves the record and the imposed status. -/
inductive Outcome (now : Millis) (c : Command) (s : Slot) (m : Move) : Prop where
  | takes {kind : ChangeKind} {record : Instance} {told : UInt64} :
    m.change = some (kind, record, told) → Shift now s m.slot kind record → m.answer.Accepted →
    Outcome now c s m
  | rests : m.change = none → Undisturbed now c s.lease m.slot.lease →
    m.slot.override = s.override → m.answer.Idle c s → Outcome now c s m

variable {s : Slot} {now : Millis} {c : Command}

theorem change_enroll (s : Slot) (now : Millis) (origin : Origin) (incoming : Instance)
    (duration : UInt64) :
    (s.enroll now origin incoming duration).change =
      some ((s.enrolled now origin incoming).1, (s.enrolled now origin incoming).2.2, duration) :=
  rfl

theorem Sound.outcome_enroll {k : Key} (hs : s.Sound k) (origin : Origin) (incoming : Instance)
    (duration : UInt64) : Outcome now c s (s.enroll now origin incoming duration) := by
  have hkind :
      (s.enrolled now origin incoming).1 = if s.lease.isSome then .modified else .added := by
    rw [enrolled, hs.held_eq_lease]
  have hholder := leaseFor_holder (s.enrolled now origin incoming).2.2 duration now
    ((s.held.map (·.upSince)).getD 0)
  refine .takes (change_enroll ..) ?_ .registered
  rw [hkind]
  cases hlease : s.lease with
  | none => exact .added hlease rfl hholder
  | some l => exact .modified hlease rfl hholder

theorem outcome_renew (hoperation : c.operation = .heartbeat) (origin : Origin)
    (dirtyAt : Option Millis) : Outcome now c s (s.renew now origin dirtyAt) := by
  unfold Slot.renew
  split
  · exact .rests rfl (.inl rfl) rfl (.renewal _)
  · rename_i l hheld
    refine .rests rfl (.inr ⟨hoperation, ?_⟩) rfl (.renewal _)
    rw [show s.lease = some l from Option.eq_some_of_filter_eq_some hheld]
    rfl

theorem outcome_withdraw (test : Lease Instance → Bool) :
    Outcome now c s (s.withdraw now test) := by
  unfold withdraw
  split
  · exact .rests rfl (.inl rfl) rfl .missing
  · rename_i l hheld
    exact .takes rfl (.deleted (Option.eq_some_of_filter_eq_some hheld) rfl) .removed

theorem outcome_changeStatus (dirtyAt : Option Millis) {change : StatusChange}
    (hplace : ∀ x, change s.override x = none → c.InPlace s.override x) :
    Outcome now c s (s.changeStatus now dirtyAt change) := by
  unfold changeStatus
  split
  · exact .rests rfl (.inl rfl) rfl .notFound
  rename_i l hheld
  have hlease : s.lease = some l := Option.eq_some_of_filter_eq_some hheld
  split
  · exact .rests rfl (.inl rfl) rfl .conflict
  split
  · rename_i hnone
    exact .rests rfl (.inl rfl) rfl (.inPlace hlease (hplace _ hnone))
  · exact .takes rfl (.modified hlease rfl (holder_relabel ..)) .changed

theorem Sound.outcome_move (hs : s.Sound c.key) (now : Millis) :
    Outcome now c s (s.move now c) := by
  cases c with
  | register origin record duration =>
    simp only [Slot.move]
    split
    · exact .rests rfl (.inl rfl) rfl (.refused _)
    · exact hs.outcome_enroll ..
  | renew origin app id dirtyAt => exact outcome_renew rfl ..
  | cancel origin app id => exact outcome_withdraw _
  | evict seen app id grace => exact outcome_withdraw _
  | updateStatus origin app id status dirtyAt =>
    exact outcome_changeStatus dirtyAt fun x h => impose_eq_none h
  | deleteOverride origin app id status dirtyAt =>
    exact outcome_changeStatus dirtyAt fun x h => release_eq_none h

end Slot

def changeEvents (effects : List Effect) : List Event :=
  effects.filterMap fun
    | .emit (.changed version kind operation app id replicated) =>
      some (.changed version kind operation app id replicated)
    | _ => none

def shipped (effects : List Effect) : List Item :=
  effects.filterMap fun
    | .ship i => some i
    | .emit _ => none

theorem changeEvents_shipments (origin : Origin) (operation : Operation) (record : Instance)
    (duration : UInt64) (now : Millis) :
    changeEvents (Registry.shipments origin operation record duration now) = [] := by
  cases origin <;> rfl

theorem shipped_shipments (origin : Origin) (operation : Operation) (record : Instance)
    (duration : UInt64) (now : Millis) :
    shipped (Registry.shipments origin operation record duration now) =
      match origin with
      | .client => [{ Item.of operation record now with lease := some duration }]
      | .peer => [] := by
  cases origin <;> rfl

namespace Registry

/-- A command took effect: one change of its instance is stored, logged, and told of. -/
structure TookEffect (r : Registry) (now : Millis) (c : Command) (s : Response CommandAnswer)
    (kind : ChangeKind) (record : Instance) : Prop where
  accepted : s.answer.Accepted
  version : s.registry.log.version = r.log.version + 1
  /-- The new entry is the last one; the oldest leave if there is no room. -/
  entries : s.registry.log.entries =
    r.log.entries.drop (r.log.length + 1 - r.log.capacity) ++
      [⟨r.log.version + 1, kind, now, record⟩]
  stored : (s.registry.stored? c.key).map (·.holder) =
    if kind = .deleted then none else some record
  added : kind = .added ↔ r.stored? c.key = none
  modified : kind = .modified ↔ r.stored? c.key ≠ none ∧ s.registry.stored? c.key ≠ none
  deleted : kind = .deleted ↔ r.stored? c.key ≠ none ∧ s.registry.stored? c.key = none
  /-- A removal logs the record as it was held, and takes the imposed status along. -/
  removed : kind = .deleted →
    (r.stored? c.key).map
        (fun l => { l.holder with lastChange := some .deleted, updatedAt := now }) = some record ∧
      s.registry.overrides.get? c.key = none
  dirty : s.registry.dirty = true
  told : changeEvents s.effects =
    [.changed (r.log.version + 1) kind c.operation c.key.1 c.key.2 (c.origin = .peer)]
  shipped : ∃ lease, shipped s.effects =
    match c.origin with
    | .client => [{ Item.of c.operation record now with lease }]
    | .peer => []
  others : ∀ k, k ≠ c.key → s.registry.stored? k = r.stored? k ∧
    s.registry.overrides.get? k = r.overrides.get? k

/-- A command left every record, every imposed status and the log as they were. -/
structure LeftAlone (r : Registry) (now : Millis) (c : Command) (s : Response CommandAnswer) :
    Prop where
  idle : s.answer.Idle c (r.slot c.key)
  leases : ∀ k, k ≠ c.key → s.registry.stored? k = r.stored? k
  lease : Slot.Undisturbed now c (r.stored? c.key) (s.registry.stored? c.key)
  records : ∀ k, (s.registry.stored? k).map (·.holder) = (r.stored? k).map (·.holder)
  overrides : ∀ k, s.registry.overrides.get? k = r.overrides.get? k
  log : s.registry.log = r.log
  dirty : s.registry.dirty = r.dirty
  told : changeEvents s.effects = []
  shipped : ∀ i ∈ shipped s.effects,
    c.origin = .client ∧ s.answer = .renewed .renewed ∧ shipped s.effects = [i] ∧
      i.operation = .heartbeat ∧ i.record = (r.stored? c.key).map (·.holder)

end Registry

namespace ChangeLog

@[simp]
theorem version_append (l : ChangeLog) (kind : ChangeKind) (record : Instance) (now : Millis) :
    (l.append kind record now).version = l.version + 1 := rfl

theorem entries_append {l : ChangeLog} (hl : 0 < l.capacity) (kind : ChangeKind)
    (record : Instance) (now : Millis) :
    (l.append kind record now).entries =
      l.entries.drop (l.length + 1 - l.capacity) ++ [⟨l.version + 1, kind, now, record⟩] := by
  have hle : l.length + 1 - l.capacity ≤ l.entries.length := by
    simp only [ChangeLog.length]
    omega
  rw [append, shrink]
  simp only [List.length_append, List.length_singleton]
  exact List.drop_append_of_le_length hle

end ChangeLog

namespace Registry

variable {r : Registry} {now : Millis}

theorem Reachable.capacity_pos (h : r.Reachable) : 0 < r.log.capacity := by
  induction h with
  | start settings now => exact Nat.le_max_right ..
  | @perform r now c hr ih =>
    rw [(perform_acts hr.sound.filed now c).log, Move.logged]
    split
    · exact ih
    · exact ih
  | takeDirty _ ih | prune _ ih | purge _ _ ih | rotate _ ih => exact ih

theorem changeEvents_effects (m : Move) (now : Millis) (c : Command) (version : Nat) :
    changeEvents (m.effects now c version) =
      match m.change with
      | some (kind, _, _) =>
        [.changed version kind c.operation c.key.1 c.key.2 (c.origin = .peer)]
      | none => [] := by
  unfold Move.effects
  cases m.change with
  | some p =>
    have hshipments := changeEvents_shipments c.origin c.operation p.2.1 p.2.2 now
    simp only [changeEvents, List.filterMap_append] at hshipments ⊢
    split <;> simp [hshipments]
  | none =>
    simp only
    split
    · rename_i l _ _
      exact changeEvents_shipments c.origin .heartbeat l.holder l.duration now
    · rfl

theorem shipped_effects_of_change {m : Move} {kind : ChangeKind} {record : Instance} {told : UInt64}
    (h : m.change = some (kind, record, told)) (now : Millis) (c : Command) (version : Nat) :
    shipped (m.effects now c version) =
      shipped (shipments c.origin c.operation record told now) := by
  unfold Move.effects
  rw [h]
  simp only [shipped, List.filterMap_append]
  split <;> simp

theorem Acts.tookEffect {c : Command} {m : Move} {s : Response CommandAnswer}
    (hacts : Acts r now c m s) (hcapacity : 0 < r.log.capacity)
    {kind : ChangeKind} {record : Instance} {told : UInt64}
    (hchange : m.change = some (kind, record, told))
    (hshift : Slot.Shift now (r.slot c.key) m.slot kind record) (haccepted : m.answer.Accepted) :
    TookEffect r now c s kind record := by
  have hlog : s.registry.log = r.log.append kind record now := by
    rw [hacts.log, Move.logged, hchange]
  have hslot : s.registry.slot c.key = m.slot := (hacts.slot c.key).trans (if_pos rfl)
  have hafter : s.registry.stored? c.key = m.slot.lease := congrArg Slot.lease hslot
  have htold := changeEvents_effects m now c s.registry.log.version
  have hshipped := shipped_effects_of_change hchange now c s.registry.log.version
  rw [← hacts.effects, hlog, hchange] at htold
  rw [← hacts.effects, shipped_shipments] at hshipped
  obtain ⟨hadded, hmodified, hdeleted⟩ := hshift.kind_iff
  rw [← hafter] at hmodified hdeleted
  refine
    { accepted := hacts.answer ▸ haccepted
      version := by rw [hlog, ChangeLog.version_append]
      entries := by rw [hlog, ChangeLog.entries_append hcapacity]
      stored := by rw [hafter, hshift.holder_eq]
      added := hadded, modified := hmodified, deleted := hdeleted
      removed := fun hkind => ?removed
      dirty := by rw [hacts.dirty, hchange, Option.isSome_some, Bool.or_true]
      told := htold
      shipped := ⟨some told, hshipped⟩
      others := fun k hk => ?others }
  case removed =>
    subst hkind
    obtain ⟨hrecord, hoverride⟩ := hshift.removed
    exact ⟨hrecord, (congrArg Slot.override hslot).trans hoverride⟩
  case others =>
    have hslot := (hacts.slot k).trans (if_neg fun h => hk h.symm)
    exact ⟨congrArg Slot.lease hslot, congrArg Slot.override hslot⟩

theorem shipped_effects_of_rest {m : Move} (hchange : m.change = none) {now : Millis} {c : Command}
    {version : Nat} {i : Item} (hi : i ∈ shipped (m.effects now c version)) :
    c.origin = .client ∧ m.answer = .renewed .renewed ∧
      shipped (m.effects now c version) = [i] ∧ i.operation = .heartbeat ∧
      i.record = m.slot.lease.map (·.holder) := by
  unfold Move.effects at hi ⊢
  simp only [hchange] at hi ⊢
  split at hi
  · rename_i l hanswer hheld
    have hlease : m.slot.lease = some l := Option.eq_some_of_filter_eq_some hheld
    cases horigin : c.origin with
    | peer => simp [shipped, shipments, horigin] at hi
    | client =>
      simp only [shipped, shipments, horigin, List.filterMap_cons, List.filterMap_nil,
        List.mem_singleton] at hi
      subst hi
      simp [hanswer, hlease, shipped, shipments, Item.of]
  · simp [shipped] at hi

theorem Acts.leftAlone {c : Command} {m : Move} {s : Response CommandAnswer}
    (hacts : Acts r now c m s) (hchange : m.change = none)
    (hlease : Slot.Undisturbed now c (r.stored? c.key) m.slot.lease)
    (hoverride : m.slot.override = r.overrides.get? c.key)
    (hidle : m.answer.Idle c (r.slot c.key)) : LeftAlone r now c s := by
  have htold := changeEvents_effects m now c s.registry.log.version
  rw [← hacts.effects, hchange] at htold
  have hown : s.registry.slot c.key = m.slot := (hacts.slot c.key).trans (if_pos rfl)
  have hothers : ∀ k, k ≠ c.key → s.registry.slot k = r.slot k :=
    fun k hk => (hacts.slot k).trans (if_neg fun h => hk h.symm)
  have hstored : s.registry.stored? c.key = m.slot.lease := congrArg Slot.lease hown
  refine
    { idle := hacts.answer ▸ hidle
      leases := fun k hk => congrArg Slot.lease (hothers k hk)
      lease := hstored ▸ hlease
      records := fun k => ?records
      overrides := fun k => ?overrides
      log := by rw [hacts.log, Move.logged, hchange]
      dirty := by rw [hacts.dirty, hchange, Option.isSome_none, Bool.or_false]
      told := htold
      shipped := fun i hi => ?shipped }
  case records =>
    by_cases hk : k = c.key
    · rw [hk, hstored, hlease.holder_eq]
    · rw [show s.registry.stored? k = r.stored? k from congrArg Slot.lease (hothers k hk)]
  case overrides =>
    by_cases hk : k = c.key
    · rw [hk, ← hoverride]
      exact congrArg Slot.override hown
    · exact congrArg Slot.override (hothers k hk)
  case shipped =>
    rw [hacts.effects] at hi ⊢
    rw [hacts.answer, ← hlease.holder_eq]
    exact shipped_effects_of_rest hchange hi

/-- Every command takes effect as a whole, or leaves the registrations and the log alone. -/
theorem perform_tookEffect_or_leftAlone (hr : r.Reachable) (now : Millis) (c : Command) :
    (∃ kind record, TookEffect r now c (r.perform now c) kind record) ∨
      LeftAlone r now c (r.perform now c) := by
  have hacts := perform_acts hr.sound.filed now c
  rcases (hr.sound c.key).outcome_move now with
    ⟨hchange, hshift, haccepted⟩ | ⟨hchange, hlease, hoverride, hidle⟩
  · exact .inl ⟨_, _, hacts.tookEffect hr.capacity_pos hchange hshift haccepted⟩
  · exact .inr (hacts.leftAlone hchange hlease hoverride hidle)

/-- A registry that holds one instance, and the operator who takes that out of service. -/
theorem updateStatus_tookEffect :
    let r := ((Registry.start {} 1).perform 2
      (.register .client (.named "WEB" "web-1" "host" 80) none)).registry
    let c := Command.updateStatus .client "WEB" "web-1" .outOfService none
    r.Reachable ∧ ∃ kind record, TookEffect r 3 c (r.perform 3 c) kind record := by
  intro r c
  have hr : r.Reachable := .perform 2 _ (.start {} 1)
  refine ⟨hr, ?_⟩
  rcases perform_tookEffect_or_leftAlone hr 3 c with h | h
  · exact h
  · have hversion : (r.perform 3 c).registry.log.version ≠ r.log.version := by
      decide +kernel
    exact absurd (congrArg ChangeLog.version h.log) hversion

end Registry

end ServiceRegistry
