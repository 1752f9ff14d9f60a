import ServiceRegistry.Proofs.Registry.History
import ServiceRegistry.Proofs.Registry.Receipt
import ServiceRegistry.Watch

/-! # Deeds

A deed is a command as a registry carried it out. Batches of a peer and evictions are several
deeds, one after another. Each deed is logged as one change and told of as that change, or else it
is told of as a renewal at most: `Deed.outcome`.
-/

namespace ServiceRegistry

set_option autoImplicit false

def eventsOf (effects : List Effect) : List Event :=
  effects.filterMap fun
    | .emit e => some e
    | .ship _ => none

theorem eventsOf_append (before after : List Effect) :
    eventsOf (before ++ after) = eventsOf before ++ eventsOf after := List.filterMap_append

theorem eventsOf_shipments (origin : Origin) (operation : Operation) (record : Instance)
    (duration : UInt64) (now : Millis) :
    eventsOf (Registry.shipments origin operation record duration now) = [] := by
  cases origin <;> rfl

namespace Event

def announced? : Event → Option WatchEvent
  | changed version kind _ app id _ => some ⟨version, kind, app, id⟩
  | _ => none

/-- The event tells of a registration, and not of peers or chores. -/
def isDeed : Event → Bool
  | changed .. | renewed .. | evicted .. => true
  | _ => false

theorem peer?_of_isDeed {e : Event} (h : e.isDeed = true) : e.peer? = none := by
  cases e <;> first | rfl | cases h

theorem isDeed_of_peer? {e : Event} (h : e.peer?.isSome) : e.isDeed = false := by
  cases e <;> first | rfl | cases h

theorem announced?_eq_none (e : Event) (h : e.isDeed = false) : e.announced? = none := by
  cases e <;> first | rfl | cases h

end Event

def CommandAnswer.isRenewed : CommandAnswer → Bool
  | renewed .renewed => true
  | _ => false

structure Deed where
  before : Registry
  now : Millis
  command : Command

namespace Deed

def response (d : Deed) : Response CommandAnswer := d.before.perform d.now d.command

def after (d : Deed) : Registry := d.response.registry

def changes (d : Deed) : List Change := (d.after.log.since d.before.log.version).changes

def told (d : Deed) : List Event := eventsOf d.response.effects

def removes (d : Deed) : Bool :=
  (d.before.stored? d.command.key).isSome && (d.after.stored? d.command.key).isNone

def renews (d : Deed) : Bool := d.response.answer.isRenewed

def evicts (d : Deed) : Bool := d.command.evicts && d.removes

/-- The one change of a deed, or that it has none, with all that comes of it. -/
inductive Outcome (d : Deed) : Prop where
  | takes {kind : ChangeKind} {record : Instance}
    (changes : d.changes = [⟨d.before.log.version + 1, kind, d.now, record⟩])
    (key : record.key = d.command.key)
    (told : d.told =
      (if d.command.evicts then [.evicted d.command.key.1 d.command.key.2] else []) ++
        [.changed (d.before.log.version + 1) kind d.command.operation d.command.key.1
          d.command.key.2 (d.command.origin = .peer)])
    (removes : d.removes = decide (kind = .deleted))
    (evicts : d.command.evicts = true → kind = .deleted)
    (renews : d.renews = false)
    (dirty : d.after.dirty = true)
    (version : d.after.log.version = d.before.log.version + 1)
  | rests
    (changes : d.changes = [])
    (told : d.told =
      if d.renews then
        [.renewed d.command.key.1 d.command.key.2 (d.command.origin = .peer)] else [])
    (removes : d.removes = false)
    (dirty : d.after.dirty = d.before.dirty)
    (version : d.after.log.version = d.before.log.version)

end Deed

namespace Slot

variable {s : Slot} {now : Millis} {c : Command}

theorem change_withdraw {test : Lease Instance → Bool} {p : ChangeKind × Instance × UInt64}
    (h : (s.withdraw now test).change = some p) : p.1 = .deleted := by
  unfold withdraw at h
  split at h
  · cases h
  · cases h
    rfl

theorem kind_of_evicts (hevicts : c.evicts = true) {p : ChangeKind × Instance × UInt64}
    (h : (s.move now c).change = some p) : p.1 = .deleted := by
  cases c with
  | evict seen app id grace => exact change_withdraw h
  | register | renew | cancel | updateStatus | deleteOverride => cases hevicts

theorem held_of_isRenewed (h : (s.move now c).answer.isRenewed = true) :
    ∃ l, (s.move now c).slot.held = some l := by
  cases c with
  | renew origin app id dirtyAt =>
    simp only [move, renew] at h ⊢
    split at h
    · cases h
    · rename_i l hheld
      refine ⟨l.renew now, ?_⟩
      have hlive : l.isEvicted = false := by simpa using (Option.filter_eq_some_iff.mp hheld).2
      simp [Slot.held, hlive]
  | register origin record duration =>
    simp only [move] at h
    split at h <;> cases h
  | cancel origin app id =>
    simp only [move, withdraw] at h
    split at h <;> cases h
  | evict seen app id grace =>
    simp only [move, withdraw] at h
    split at h <;> cases h
  | updateStatus origin app id status dirtyAt | deleteOverride origin app id status dirtyAt =>
    simp only [move, changeStatus] at h
    split at h
    · cases h
    split at h
    · cases h
    split at h <;> cases h

end Slot

namespace Move

variable {m : Move}

theorem eventsOf_effects_of_change {kind : ChangeKind} {record : Instance} {told : UInt64}
    (h : m.change = some (kind, record, told)) (now : Millis) (c : Command) (version : Nat) :
    eventsOf (m.effects now c version) =
      (if c.evicts then [.evicted c.key.1 c.key.2] else []) ++
        [.changed version kind c.operation c.key.1 c.key.2 (c.origin = .peer)] := by
  have hshipments := eventsOf_shipments c.origin c.operation record told now
  simp only [effects, h, eventsOf, List.filterMap_append, List.filterMap_cons] at hshipments ⊢
  rw [hshipments]
  split <;> rfl

theorem eventsOf_effects_of_rest (h : m.change = none)
    (hrenewed : m.answer.isRenewed = true → ∃ l, m.slot.held = some l) (now : Millis)
    (c : Command) (version : Nat) :
    eventsOf (m.effects now c version) =
      if m.answer.isRenewed then [.renewed c.key.1 c.key.2 (c.origin = .peer)] else [] := by
  simp only [effects, h]
  split
  · rename_i l hanswer _
    have hshipments := eventsOf_shipments c.origin .heartbeat l.holder l.duration now
    simp only [eventsOf, List.filterMap_cons] at hshipments ⊢
    rw [hshipments, hanswer]
    rfl
  · rename_i hsilent
    rw [if_neg]
    · rfl
    · intro htrue
      obtain ⟨l, hl⟩ := hrenewed htrue
      cases hanswer : m.answer with
      | renewed answer =>
        cases answer with
        | renewed => exact hsilent l hanswer hl
        | notFound | conflict => simp [hanswer, CommandAnswer.isRenewed] at htrue
      | registered | removed | changed => simp [hanswer, CommandAnswer.isRenewed] at htrue

end Move

theorem CommandAnswer.Accepted.isRenewed {a : CommandAnswer} (h : a.Accepted) :
    a.isRenewed = false := by
  cases h <;> rfl

namespace Deed

variable {d : Deed} {history : List Change}

theorem changes_of_log {kind : ChangeKind} {record : Instance} (hd : d.before.Reachable)
    (hlog : d.after.log = d.before.log.append kind record d.now) :
    d.changes = [⟨d.before.log.version + 1, kind, d.now, record⟩] := by
  obtain ⟨history, htraced⟩ := hd.traced
  have hentries := ChangeLog.entries_append hd.capacity_pos kind record d.now
  have htracks := htraced.tracks.append kind record d.now
  rw [changes, hlog, htracks.changes_since, htraced.tracks.version]
  have hfloor : (d.before.log.append kind record d.now).floor ≤ history.length := by
    have hlength := congrArg List.length (htracks.entries.symm.trans hentries)
    simp only [List.length_drop, List.length_append, List.length_singleton] at hlength
    omega
  rw [Nat.max_eq_left hfloor, List.drop_left]

theorem changes_of_log_eq (hd : d.before.Reachable) (hlog : d.after.log = d.before.log) :
    d.changes = [] := by
  obtain ⟨history, htraced⟩ := hd.traced
  rw [changes, hlog, htraced.tracks.changes_since, htraced.tracks.version]
  exact List.drop_eq_nil_of_le (Nat.le_max_left ..)

theorem outcome (hd : d.before.Reachable) : d.Outcome := by
  have hacts := Registry.perform_acts hd.sound.filed d.now d.command
  have hslot :
      d.after.slot d.command.key = ((d.before.slot d.command.key).move d.now d.command).slot :=
    (hacts.slot d.command.key).trans (if_pos rfl)
  have hstored : d.after.stored? d.command.key =
      ((d.before.slot d.command.key).move d.now d.command).slot.lease := congrArg Slot.lease hslot
  have hanswer : d.renews = ((d.before.slot d.command.key).move d.now d.command).answer.isRenewed :=
    congrArg CommandAnswer.isRenewed hacts.answer
  have htold : d.told = eventsOf (((d.before.slot d.command.key).move d.now d.command).effects d.now
      d.command d.after.log.version) := congrArg eventsOf hacts.effects
  rcases (hd.sound d.command.key).outcome_move d.now with
    @⟨kind, record, lease, hchange, hshift, haccepted⟩ | ⟨hchange, hlease, -, -⟩
  · have hlog : d.after.log = d.before.log.append kind record d.now :=
      hacts.log.trans (by rw [Move.logged, hchange])
    have hversion : d.after.log.version = d.before.log.version + 1 :=
      congrArg ChangeLog.version hlog
    refine .takes (changes_of_log hd hlog) ?key ?told ?removes ?evicts ?renews ?dirty hversion
    case key => exact hshift.key_record (hd.sound _) ((hd.sound _).move d.now)
    case told => rw [htold, hversion, Move.eventsOf_effects_of_change hchange]
    case removes =>
      rw [removes, hstored, Bool.eq_iff_iff, decide_eq_true_eq, hshift.kind_iff.2.2,
        Bool.and_eq_true, Option.isSome_iff_ne_none, Option.isNone_iff_eq_none]
      rfl
    case evicts =>
      intro hevicts
      exact Slot.kind_of_evicts hevicts hchange
    case renews => exact hanswer.trans haccepted.isRenewed
    case dirty =>
      refine hacts.dirty.trans ?_
      rw [hchange, Option.isSome_some, Bool.or_true]
  · have hlog : d.after.log = d.before.log := hacts.log.trans (by rw [Move.logged, hchange])
    refine .rests (changes_of_log_eq hd hlog) ?told ?removes ?dirty
      (congrArg ChangeLog.version hlog)
    case told =>
      rw [htold, Move.eventsOf_effects_of_rest hchange Slot.held_of_isRenewed, hanswer]
    case removes =>
      have hholder := hlease.holder_eq
      rw [removes, hstored, Bool.and_eq_false_iff]
      cases hbefore : d.before.stored? d.command.key with
      | none => exact .inl rfl
      | some l =>
        rw [Registry.slot_lease, hbefore] at hholder
        obtain ⟨l', hl', -⟩ := Option.map_eq_some_iff.mp hholder
        rw [hl']
        exact .inr rfl
    case dirty =>
      refine hacts.dirty.trans ?_
      rw [hchange, Option.isSome_none, Bool.or_false]

/-- The changes that observers are told of are those that were logged. -/
theorem announced_told (hd : d.before.Reachable) :
    d.told.filterMap Event.announced? = d.changes.map .ofChange := by
  rcases outcome hd with ⟨hchanges, hkey, htold, -⟩ | ⟨hchanges, htold, -⟩
  · rw [htold, hchanges, ← hkey]
    split <;> rfl
  · rw [htold, hchanges]
    split <;> rfl

theorem isDeed_told (hd : d.before.Reachable) {e : Event} (he : e ∈ d.told) :
    e.isDeed = true := by
  rcases outcome hd with ⟨-, -, htold, -⟩ | ⟨-, htold, -⟩
  · rw [htold, List.mem_append] at he
    rcases he with he | he
    · split at he
      · rw [List.mem_singleton.mp he]
        rfl
      · cases he
    · rw [List.mem_singleton.mp he]
      rfl
  · rw [htold] at he
    split at he
    · rw [List.mem_singleton.mp he]
      rfl
    · cases he

theorem version_after (hd : d.before.Reachable) :
    d.after.log.version = d.before.log.version + d.changes.length := by
  rcases outcome hd with ⟨hchanges, -, -, -, -, -, -, hversion⟩ | ⟨hchanges, -, -, -, hversion⟩
  · rw [hchanges, hversion]
    rfl
  · rw [hchanges, hversion]
    rfl

theorem dirty_after (hd : d.before.Reachable) :
    d.after.dirty = (d.before.dirty || !d.changes.isEmpty) := by
  rcases outcome hd with ⟨hchanges, -, -, -, -, -, hdirty, -⟩ | ⟨hchanges, -, -, hdirty, -⟩
  · rw [hchanges, hdirty, List.isEmpty_cons, Bool.not_false, Bool.or_true]
  · rw [hchanges, hdirty, List.isEmpty_nil, Bool.not_true, Bool.or_false]

theorem traced_after (hd : d.before.Reachable) (h : d.before.Traced history) :
    d.after.Traced (history ++ d.changes) := by
  obtain ⟨later, hlater⟩ := h.perform hd.sound d.now d.command
  have hchanges : d.changes = (history ++ later).drop (max history.length d.after.log.floor) := by
    rw [changes, ← h.tracks.version]
    exact hlater.tracks.changes_since _
  have hlength := hlater.tracks.version.symm.trans (version_after hd)
  rw [h.tracks.version, List.length_append] at hlength
  have hlonger := congrArg List.length hchanges
  rw [List.length_drop, List.length_append] at hlonger
  have hlaterLength : d.changes.length = later.length := by omega
  have hsame : d.changes = later := by
    refine (List.IsSuffix.eq_of_length ?_ hlaterLength)
    have hsuffix := List.drop_suffix_drop_left (history ++ later)
      (Nat.le_max_left history.length d.after.log.floor)
    rw [← hchanges, List.drop_left] at hsuffix
    exact hsuffix
  rw [hsame]
  exact hlater

end Deed

end ServiceRegistry
