import ServiceRegistry.Proofs.Registry.Slot

/-! # Locality of commands

A command reads and writes the slot of its own instance. Besides it appends at most one change
to the log, and tells of that change. The one exception is a heartbeat, which is told of but
not logged.
-/

namespace ServiceRegistry

set_option autoImplicit false

namespace Command

def evicts : Command → Bool
  | evict .. => true
  | _ => false

end Command

namespace Move

def logged (m : Move) (now : Millis) (log : ChangeLog) : ChangeLog :=
  match m.change with
  | some (kind, record, _) => log.append kind record now
  | none => log

def effects (m : Move) (now : Millis) (c : Command) (version : Nat) : List Effect :=
  match m.change with
  | some (kind, record, duration) =>
    (if c.evicts then [.emit (.evicted c.key.1 c.key.2)] else []) ++
      .emit (.changed version kind c.operation c.key.1 c.key.2 (c.origin = .peer)) ::
        Registry.shipments c.origin c.operation record duration now
  | none =>
    match m.answer, m.slot.held with
    | .renewed .renewed, some l =>
      .emit (.renewed c.key.1 c.key.2 (c.origin = .peer)) ::
        Registry.shipments c.origin .heartbeat l.holder l.duration now
    | _, _ => []

end Move

namespace Registry

def slot (r : Registry) (k : Key) : Slot := ⟨r.stored? k, r.overrides.get? k⟩

def Filed (r : Registry) : Prop := ∀ k l, r.stored? k = some l → l.holder.key = k

/-- The response to a command does to the registry what a move says. -/
structure Acts (r : Registry) (now : Millis) (c : Command) (m : Move) (s : Response CommandAnswer) :
    Prop where
  answer : s.answer = m.answer
  slot : ∀ k, s.registry.slot k = if c.key = k then m.slot else r.slot k
  log : s.registry.log = m.logged now r.log
  dirty : s.registry.dirty = (r.dirty || m.change.isSome)
  settings : s.registry.settings = r.settings
  effects : s.effects = m.effects now c s.registry.log.version

variable {r : Registry} {now : Millis}

@[simp]
theorem slot_lease (r : Registry) (k : Key) : (r.slot k).lease = r.stored? k := rfl

@[simp]
theorem slot_override (r : Registry) (k : Key) : (r.slot k).override = r.overrides.get? k := rfl

theorem slot_held (r : Registry) (k : Key) : (r.slot k).held = r.held? k := rfl

theorem Filed.held {k : Key} {l : Lease Instance} (hr : r.Filed) (h : r.held? k = some l) :
    l.holder.key = k := hr k l (Option.eq_some_of_filter_eq_some h)

theorem slot_eq_ite {r' : Registry} {key : Key} {s : Slot}
    (hlease : ∀ k, r'.stored? k = if key = k then s.lease else r.stored? k)
    (hoverride : ∀ k, r'.overrides.get? k = if key = k then s.override else r.overrides.get? k)
    (k : Key) : r'.slot k = if key = k then s else r.slot k := by
  rw [slot, hlease, hoverride]
  split <;> rfl

theorem Acts.refused {c : Command} {m : Move} {s : Response CommandAnswer}
    (hanswer : s.answer = m.answer) (hslot : m.slot = r.slot c.key)
    (hchange : m.change = none) (hregistry : s.registry = r)
    (heffects : s.effects = []) (hsilent : ∀ v, m.effects now c v = []) : Acts r now c m s where
  answer := hanswer
  slot k := by
    rw [hregistry, hslot]
    split
    · rename_i hk
      rw [hk]
    · rfl
  log := by rw [hregistry, Move.logged, hchange]
  dirty := by rw [hregistry, hchange, Option.isSome_none, Bool.or_false]
  settings := by rw [hregistry]
  effects := by rw [heffects, hsilent]

theorem settleOverride_snd (overrides : KeyMap Key Status) (origin : Origin) (x : Instance) :
    (settleOverride overrides origin x).2 = (Slot.settle (overrides.get? x.key) origin x).2 := by
  simp only [settleOverride, Slot.settle]
  cases origin <;> cases overrides.get? x.key <;> cases imposed x <;> rfl

theorem get?_settleOverride (overrides : KeyMap Key Status) (origin : Origin) (x : Instance)
    (k : Key) :
    (settleOverride overrides origin x).1.get? k =
      if x.key = k then (Slot.settle (overrides.get? x.key) origin x).1
      else overrides.get? k := by
  simp only [settleOverride, Slot.settle]
  by_cases hk : x.key = k
  · subst hk
    cases origin <;> cases ho : overrides.get? x.key <;> cases imposed x <;> simp [ho]
  · cases origin <;> cases overrides.get? x.key <;> cases imposed x <;> simp [hk]

theorem Filed.key_chosen (hr : r.Filed) (incoming : Instance) :
    ((r.slot incoming.key).chosen incoming).key = incoming.key := by
  rw [Slot.chosen, slot_held]
  cases h : r.held? incoming.key with
  | none => rfl
  | some l =>
    simp only [newer]
    split
    · exact hr.held h
    · rfl

theorem register_eq (r : Registry) (now : Millis) (origin : Origin) (record : Instance)
    (duration : Option UInt64) :
    r.register now origin record duration =
      (Slot.accept now record duration).map fun x => r.enroll now origin x.1 x.2 := by
  simp only [register, Slot.accept, bind, Except.bind, Except.map, pure, Except.pure]
  cases Instance.check { record with app := Text.upper record.app } with
  | error e => rfl
  | ok _ =>
    simp only
    split <;> rfl

theorem accept_key {record : Instance} {duration : Option UInt64} {x : Instance × UInt64}
    (h : Slot.accept now record duration = .ok x) : x.1.key = keyOf record.app record.id := by
  simp only [Slot.accept, bind, Except.bind, pure, Except.pure] at h
  split at h
  · cases h
  split at h
  · cases h
  cases h
  simp only
  split <;> rfl

def install (r : Registry) (now : Millis) (origin : Origin) (key : Key)
    (overrides : KeyMap Key Status) (kind : ChangeKind) (x : Instance) (duration : UInt64)
    (upSince : Millis) : Response Unit :=
  let r := ({ r with overrides }.store key (leaseFor x duration now upSince)).record kind x now
  { answer := ()
    registry := { r with
      registered := remember r.settings.activityCapacity r.registered ⟨now, key.1, key.2⟩ }
    effects :=
      .emit (.changed r.log.version kind .register key.1 key.2 (origin = .peer)) ::
        shipments origin .register x duration now }

theorem enroll_eq (hr : r.Filed) (now : Millis) (origin : Origin) (incoming : Instance)
    (duration : UInt64) :
    r.enroll now origin incoming duration = r.install now origin incoming.key
      (settleOverride r.overrides origin ((r.slot incoming.key).chosen incoming)).1
      ((r.slot incoming.key).enrolled now origin incoming).1
      ((r.slot incoming.key).enrolled now origin incoming).2.2 duration
      (((r.slot incoming.key).held.map (·.upSince)).getD 0) := by
  have hsettled := settleOverride_snd r.overrides origin ((r.slot incoming.key).chosen incoming)
  rw [hr.key_chosen incoming] at hsettled
  simp only [Slot.enrolled, slot_override, ← hsettled]
  rfl

theorem enroll_acts (hr : r.Filed) (now : Millis) (origin : Origin) (record incoming : Instance)
    (asked : Option UInt64) (duration : UInt64) (hkey : incoming.key = keyOf record.app record.id) :
    Acts r now (.register origin record asked)
      ((r.slot incoming.key).enroll now origin incoming duration)
      (Response.map (fun _ => .registered (.ok ())) (r.enroll now origin incoming duration)) := by
  rw [enroll_eq hr]
  constructor
  · rfl
  · have hoverride :=
      get?_settleOverride r.overrides origin ((r.slot incoming.key).chosen incoming)
    rw [hr.key_chosen incoming] at hoverride
    rw [Command.key, ← hkey]
    exact slot_eq_ite (fun k => stored?_store { r with overrides := _ } incoming.key k _) hoverride
  · rfl
  · simp [install, Response.map, Registry.record, Slot.enroll]
  · rfl
  · rw [hkey]
    rfl

theorem slot_store (r : Registry) (key k : Key) (l : Lease Instance) :
    (r.store key l).slot k =
      if key = k then { r.slot key with lease := some l } else r.slot k := by
  refine slot_eq_ite (fun k => stored?_store r key k l) (fun k => ?_) k
  split
  · rename_i hk
    rw [slot, hk]
    rfl
  · rfl

theorem Acts.touched {c : Command} {m : Move} {s : Response CommandAnswer} {l : Lease Instance}
    {renewals : RenewalRate} (hanswer : s.answer = m.answer)
    (hslot : m.slot = { r.slot c.key with lease := some l }) (hchange : m.change = none)
    (hregistry : s.registry = { r.store c.key l with renewals })
    (heffects : ∀ v, s.effects = m.effects now c v) : Acts r now c m s where
  answer := hanswer
  slot k := by
    rw [hregistry, hslot, ← slot_store]
    rfl
  log := by
    rw [hregistry, Move.logged, hchange]
    rfl
  dirty := by
    rw [hregistry, hchange, Option.isSome_none, Bool.or_false]
    rfl
  settings := by
    rw [hregistry]
    rfl
  effects := heffects _

theorem not_isEvicted_of_held {k : Key} {l : Lease Instance} (h : r.held? k = some l) :
    l.isEvicted = false := by
  simpa using (Option.filter_eq_some_iff.mp h).2

theorem renew_acts (r : Registry) (now : Millis) (origin : Origin) (app id : String)
    (dirtyAt : Option Millis) :
    Acts r now (.renew origin app id dirtyAt)
      ((r.slot (keyOf app id)).renew now origin dirtyAt)
      (Response.map .renewed (r.renew now origin app id dirtyAt)) := by
  cases h : r.held? (keyOf app id) with
  | none =>
    simp only [renew, Slot.renew, slot_held, h]
    exact .refused rfl rfl rfl rfl rfl fun _ => rfl
  | some l =>
    have hheld : (some (l.renew now)).filter (fun l => !l.isEvicted) = some (l.renew now) := by
      rw [Option.filter_some, Lease.isEvicted_renew, not_isEvicted_of_held h]
      rfl
    simp only [renew, Slot.renew, slot_held, h, Slot.renewalAnswer]
    by_cases hbehind : (dirtyAt.any fun d => decide ((l.renew now).holder.dirtyAt < d)) = true
    · simp only [if_pos hbehind]
      exact .touched rfl rfl rfl rfl fun _ => rfl
    simp only [if_neg hbehind]
    by_cases hahead :
        ((dirtyAt.any fun d => decide (d < (l.renew now).holder.dirtyAt)) &&
          decide (origin = .peer)) = true
    · simp only [if_pos hahead]
      exact .touched rfl rfl rfl rfl fun _ => rfl
    · simp only [if_neg hahead]
      refine .touched rfl rfl rfl rfl fun _ => ?_
      simp only [Move.effects, Slot.held, hheld]
      rfl

theorem remove_eq (r : Registry) (k : Key) : ∃ apps, r.remove k = { r with apps } := by
  unfold remove
  split
  · exact ⟨r.apps, rfl⟩
  · exact ⟨_, rfl⟩

theorem withdraw_acts (r : Registry) (now : Millis) (c : Command) (test : Lease Instance → Bool)
    (hoperation : c.operation = .cancel) :
    Acts r now c ((r.slot c.key).withdraw now test)
      (Response.map .removed (r.withdraw now c.origin c.key c.evicts test)) := by
  cases h : (r.stored? c.key).filter test with
  | none =>
    simp only [withdraw, Slot.withdraw, slot_lease, h]
    exact .refused rfl rfl rfl rfl rfl fun _ => rfl
  | some l =>
    have hlease := stored?_remove r c.key
    have hoverride := KeyMap.get?_erase r.overrides c.key
    obtain ⟨apps, happs⟩ := remove_eq r c.key
    simp only [withdraw, Slot.withdraw, slot_lease, h]
    rw [happs] at hlease ⊢
    constructor
    · rfl
    · exact slot_eq_ite hlease hoverride
    · rfl
    · simp [Response.map, Registry.record]
    · rfl
    · simp only [Move.effects, hoperation]
      rfl

/-- A change of a status, given by what it does to the statuses imposed on all instances, does
to a record and its own imposed status what a second one says. -/
def Narrows (change : KeyMap Key Status → Instance → Option (KeyMap Key Status × Instance))
    (narrow : Slot.StatusChange) : Prop :=
  ∀ overrides x, Option.Rel
    (fun p q => p.2 = q.2 ∧
      ∀ k, p.1.get? k = if x.key = k then q.1 else overrides.get? k)
    (change overrides x) (narrow (overrides.get? x.key) x)

theorem narrows_imposeStatus (s : Status) : Narrows (imposeStatus s) (Slot.impose s) := by
  intro overrides x
  unfold imposeStatus Slot.impose
  by_cases h : x.status = s ∧ x.overridden = some s
  · simp only [if_pos h]
    exact .none
  · simp only [if_neg h]
    exact .some ⟨rfl, fun k => KeyMap.get?_insert ..⟩

theorem narrows_releaseStatus (s : Status) : Narrows (releaseStatus s) (Slot.release s) := by
  intro overrides x
  have hcontains : ¬ overrides.contains x.key ↔ overrides.get? x.key = none := by
    simp [KeyMap.contains]
  simp only [releaseStatus, Slot.release, hcontains]
  by_cases h : overrides.get? x.key = none ∧ x.overridden = none ∧ x.status = s
  · simp only [if_pos h]
    exact .none
  · simp only [if_neg h]
    exact .some ⟨rfl, fun k => KeyMap.get?_erase ..⟩

theorem changeStatus_acts (hr : r.Filed) (now : Millis) (c : Command) (dirtyAt : Option Millis)
    {change : KeyMap Key Status → Instance → Option (KeyMap Key Status × Instance)}
    {narrow : Slot.StatusChange} (hnarrows : Narrows change narrow) (hevicts : c.evicts = false) :
    Acts r now c ((r.slot c.key).changeStatus now dirtyAt narrow)
      (Response.map .changed (r.changeStatus now c.origin c.operation c.key dirtyAt change)) := by
  cases h : r.held? c.key with
  | none =>
    simp only [changeStatus, Slot.changeStatus, slot_held, h]
    exact .refused rfl rfl rfl rfl rfl fun _ => rfl
  | some l =>
    simp only [changeStatus, Slot.changeStatus, slot_held, h]
    by_cases hstale : dirtyAt.any (fun d => decide (d < l.holder.dirtyAt)) = true
    · simp only [if_pos hstale]
      exact .refused rfl rfl rfl rfl rfl fun _ => rfl
    simp only [if_neg hstale]
    have hchange := hnarrows r.overrides l.holder
    rw [hr.held h] at hchange
    rw [slot_override]
    generalize change r.overrides l.holder = wide at hchange ⊢
    generalize narrow (r.overrides.get? c.key) l.holder = narrowed at hchange ⊢
    cases hchange with
    | none => exact .refused rfl rfl rfl rfl rfl fun _ => rfl
    | @some p q hpq =>
      obtain ⟨overrides, changed⟩ := p
      obtain ⟨override, _⟩ := q
      obtain ⟨rfl, hoverrides⟩ := hpq
      constructor
      · rfl
      · exact slot_eq_ite (fun k => stored?_store { r with overrides } c.key k _) hoverrides
      · rfl
      · simp [Response.map, Registry.record]
      · rfl
      · simp only [Move.effects, hevicts]
        rfl

/-- A command does to the registry what it makes of the slot of its instance. -/
theorem perform_acts (hr : r.Filed) (now : Millis) (c : Command) :
    Acts r now c ((r.slot c.key).move now c) (r.perform now c) := by
  cases c with
  | register origin record duration =>
    simp only [perform, Slot.move, register_eq]
    cases h : Slot.accept now record duration with
    | error e => exact .refused rfl rfl rfl rfl rfl fun _ => rfl
    | ok x =>
      have hacts := enroll_acts hr now origin record x.1 duration x.2 (accept_key h)
      rw [accept_key h] at hacts
      exact hacts
  | renew origin app id dirtyAt => exact renew_acts r now origin app id dirtyAt
  | cancel origin app id => exact withdraw_acts r now (.cancel origin app id) _ rfl
  | evict seen app id grace => exact withdraw_acts r now (.evict seen app id grace) _ rfl
  | updateStatus origin app id s dirtyAt =>
    exact changeStatus_acts hr now (.updateStatus origin app id s dirtyAt) dirtyAt
      (narrows_imposeStatus s) rfl
  | deleteOverride origin app id s dirtyAt =>
    exact changeStatus_acts hr now (.deleteOverride origin app id s dirtyAt) dirtyAt
      (narrows_releaseStatus s) rfl

end Registry

end ServiceRegistry
