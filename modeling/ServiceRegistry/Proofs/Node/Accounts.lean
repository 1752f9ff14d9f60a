import ServiceRegistry.Proofs.Metrics.Recorder
import ServiceRegistry.Proofs.Node.Tally

/-! # Accounts of a node

What the events of a chronicle add up to is what was done: the changes of the registry, the leases
that were removed and renewed, the statistics of all workers, and the state of self-preservation
(`Chronicle.Accounts`).
-/

namespace ServiceRegistry

set_option autoImplicit false

open Replication

namespace Event

/-- Who counts registrations only hears of an act what is told of its deeds. -/
theorem sum_announces_deeds {g : Event → Nat} (hg : ∀ e, e.isDeed = false → g e = 0) (n : Node)
    (a : Act) : sum g (n.announces a) = ((n.deeds a).map fun d => sum g d.told).sum := by
  have hpos (es : List Event) :
      (es.filterMap fun e => if g e = 0 then none else some (g e)).sum = sum g es := by
    induction es with
    | nil => rfl
    | cons e rest ih =>
      rw [List.filterMap_cons]
      by_cases he : g e = 0
      · rw [if_pos he, ih, sum, sum, List.map_cons, List.sum_cons, he, Nat.zero_add]
      · rw [if_neg he, List.sum_cons, ih]
        rfl
  have hsilent : ∀ e : Event, e.isDeed = false → (if g e = 0 then none else some (g e)) = none :=
    fun e he => if_pos (hg e he)
  rw [← hpos, Node.filterMap_announces_deeds hsilent, hpos]
  induction n.deeds a with
  | nil => rfl
  | cons d rest ih => rw [List.flatMap_cons, sum_append, ih, List.map_cons, List.sum_cons]

end Event

namespace Metrics

def changeGain (e : Event) : Nat :=
  gain registrations e + gain statusUpdates e + gain cancellations e

def touched : Event → List String
  | .changed _ kind operation _ _ _ => [changeCounter kind operation]
  | .renewed .. => [renewals]
  | .evicted .. => [evictions]
  | .evictionCycle .. => [evictionCycles, suspendedCycles]
  | .selfPreservationChanged _ => []
  | .replicationSent .. => [itemsSent]
  | .replicationFailed .. => [batchesFailed]
  | .replicationDropped .. => [itemsDropped]
  | .cacheRebuilt _ => [cacheRebuilds]

def deedCounters : List String :=
  [registrations, statusUpdates, cancellations, renewals, evictions]

def peerCounters : List String := [itemsSent, batchesFailed, itemsDropped]

def choreCounters : List String := [evictionCycles, suspendedCycles, cacheRebuilds]

theorem gain_eq_zero {name : String} {e : Event} (h : name ∉ touched e) : gain name e = 0 := by
  have hne {other : String} (hother : other ∈ touched e) : ¬ other = name := by
    rintro rfl
    exact h hother
  cases e with
  | evictionCycle =>
    simp [gain, hne (List.mem_cons_self ..), hne (List.mem_cons_of_mem _ (List.mem_cons_self ..))]
  | selfPreservationChanged => rfl
  | _ => exact if_neg (hne (List.mem_singleton_self _))

theorem touched_subset (e : Event) :
    touched e ⊆ if e.isDeed then deedCounters else
      if e.peer?.isSome then peerCounters else choreCounters := by
  cases e with
  | changed version kind operation =>
    cases kind <;> cases operation <;>
      simp [touched, Event.isDeed, deedCounters, changeCounter]
  | renewed | evicted => simp [touched, Event.isDeed, deedCounters]
  | replicationSent | replicationFailed | replicationDropped =>
    simp [touched, Event.isDeed, Event.peer?, peerCounters]
  | evictionCycle | selfPreservationChanged | cacheRebuilt =>
    simp [touched, Event.isDeed, Event.peer?, choreCounters]

theorem gain_of_not_isDeed {name : String} (hname : name ∈ deedCounters) (e : Event)
    (he : e.isDeed = false) : gain name e = 0 := by
  have hothers : name ∉ peerCounters ∧ name ∉ choreCounters := by
    revert name
    decide
  refine gain_eq_zero fun hmem => ?_
  have hsubset := touched_subset e hmem
  rw [he, if_neg Bool.false_ne_true] at hsubset
  split at hsubset
  · exact hothers.1 hsubset
  · exact hothers.2 hsubset

theorem gain_of_peer?_isNone {name : String} (hname : name ∈ peerCounters) (e : Event)
    (he : e.peer?.isNone) : gain name e = 0 := by
  have hothers : name ∉ deedCounters ∧ name ∉ choreCounters := by
    revert name
    decide
  refine gain_eq_zero fun hmem => ?_
  have hsubset := touched_subset e hmem
  rw [Option.isNone_iff_eq_none] at he
  rw [he, Option.isSome_none, if_neg Bool.false_ne_true] at hsubset
  split at hsubset
  · exact hothers.1 hsubset
  · exact hothers.2 hsubset

theorem gain_eventsMissed (e : Event) : gain eventsMissed e = 0 := by
  refine gain_eq_zero fun hmem => ?_
  have hsubset := touched_subset e hmem
  revert hsubset
  split
  · decide
  · split <;> decide

theorem gain_changed_cancellations (version : Nat) (kind : ChangeKind) (operation : Operation)
    (app id : String) (replicated : Bool) :
    gain cancellations (.changed version kind operation app id replicated) =
      (decide (kind = .deleted)).toNat := by
  cases kind <;> cases operation <;> rfl

theorem changeGain_changed (version : Nat) (kind : ChangeKind) (operation : Operation)
    (app id : String) (replicated : Bool) :
    changeGain (.changed version kind operation app id replicated) = 1 := by
  cases kind <;> cases operation <;> rfl

theorem gain_changed_of_ne {name : String} (hname : name ∈ [renewals, evictions]) (version : Nat)
    (kind : ChangeKind) (operation : Operation) (app id : String) (replicated : Bool) :
    gain name (.changed version kind operation app id replicated) = 0 := by
  rcases List.mem_pair.mp hname with rfl | rfl <;> cases kind <;> cases operation <;> rfl

end Metrics

open Metrics in
theorem Deed.sum_told {d : Deed} (hd : d.before.Reachable) :
    Event.sum changeGain d.told = d.changes.length ∧
      Event.sum (gain cancellations) d.told = d.removes.toNat ∧
      Event.sum (gain evictions) d.told = d.evicts.toNat ∧
      Event.sum (gain renewals) d.told = d.renews.toNat := by
  rcases outcome hd with
    ⟨hchanges, -, htold, hremoves, hevicts, hrenews, -⟩ | ⟨hchanges, htold, hremoves, -⟩
  · rw [htold, hchanges, hremoves, hrenews, Deed.evicts, hremoves]
    cases hcommand : d.command.evicts with
    | false =>
      simp only [Bool.false_eq_true, if_false, List.nil_append, Event.sum_singleton, Bool.false_and]
      exact ⟨changeGain_changed .., gain_changed_cancellations ..,
        gain_changed_of_ne (by decide) .., gain_changed_of_ne (by decide) ..⟩
    | true =>
      obtain rfl := hevicts hcommand
      exact ⟨rfl, rfl, rfl, rfl⟩
  · rw [htold, hchanges, hremoves, Deed.evicts, hremoves, Bool.and_false]
    cases d.renews <;> exact ⟨rfl, rfl, rfl, rfl⟩

namespace Replication

open Metrics

theorem tally_sent : Worker.Tally (·.stats.sentItems) (gain itemsSent) where
  fresh _ := rfl
  push peer w i := by
    simp only [Worker.push]
    split <;> rfl
  next d peer now answer w := by
    simp only [Worker.next]
    split
    · rfl
    · rfl
    · rfl
    · simp only [Worker.settle]
      cases conclude d.settings _ answer <;> rfl
  plain := gain_of_peer?_isNone (by decide)

theorem tally_dropped : Worker.Tally (·.stats.droppedItems) (gain itemsDropped) where
  fresh _ := rfl
  push peer w i := by
    simp only [Worker.push]
    split
    · rename_i hnone
      rw [hnone]
      rfl
    · rfl
  next d peer now answer w := by
    simp only [Worker.next]
    split
    · rfl
    · rfl
    · rfl
    · simp only [Worker.settle]
      cases conclude d.settings _ answer <;> rfl
  plain := gain_of_peer?_isNone (by decide)

end Replication

def Event.mode? : Event → Option Bool
  | selfPreservationChanged active => some active
  | _ => none

namespace Node

variable {n : Node}

theorem filterMap_mode_announces (hn : n.registry.Reachable) (a : Act) :
    (n.announces a).filterMap Event.mode? = (n.edges a).filterMap Event.mode? := by
  have hdeeds : ((n.deeds a).flatMap (·.told)).filterMap Event.mode? = [] := by
    refine List.filterMap_eq_nil_iff.mpr fun e he => ?_
    obtain ⟨d, hd, he⟩ := List.mem_flatMap.mp he
    have hdeed := Deed.isDeed_told (hn.done hd) he
    cases e <;> first | rfl | cases hdeed
  have hnotes : (n.notes a).filterMap Event.mode? = [] := by
    refine List.filterMap_eq_nil_iff.mpr fun e he => ?_
    rcases mem_notes he with ⟨_, _, _, rfl⟩ | ⟨_, rfl⟩ <;> rfl
  have hpeers (e : Event) (he : e.peer?.isSome) : e.mode? = none := by
    cases e <;> first | rfl | cases he
  rw [filterMap_announces hpeers, eventsOf_effects, List.filterMap_append, List.filterMap_append,
    hdeeds, hnotes, List.append_nil, List.append_nil]

theorem edges_eq_nil {a : Act} (h : ¬ ∃ choose, a = .evict choose) : n.edges a = [] := by
  cases a with
  | evict choose => exact absurd ⟨choose, rfl⟩ h
  | _ => rfl

theorem mode_act (hn : n.registry.Reachable) (a : Act) :
    ((n.announces a).filterMap Event.mode?).getLast?.getD n.eviction.status.isActive =
      (n.act a).eviction.status.isActive := by
  rw [filterMap_mode_announces hn]
  by_cases hevict : ∃ choose, a = .evict choose
  · obtain ⟨choose, rfl⟩ := hevict
    have hafter : (n.act (.evict choose)).eviction =
        (n.eviction.run n.registry n.clock n.reportedIsolation choose).1 :=
      (aside_commit { n with
        eviction := (n.eviction.run n.registry n.clock n.reportedIsolation choose).1 } _).1
    rw [hafter, edges, EvictionController.modeEffects]
    split
    · rfl
    · rename_i hsame
      rw [Classical.not_and_iff_not_or_not, not_not, not_not] at hsame
      refine hsame.elim (fun hmode => ?_) id
      rw [PreservationStatus.isActive, hmode]
      rfl
  · rw [(n.aside_act a).1.resolve_left hevict, edges_eq_nil hevict]
    rfl

end Node

/-- What is told over a whole chronicle adds up to what was done. The workers that were stopped
are given beside it. -/
structure Chronicle.Accounts (stopped : List Worker) (h : Chronicle) : Prop where
  faithful : h.Faithful
  deeds : ∀ d ∈ h.deeds, d.before.Reachable
  told : ∀ g : Event → Nat, (∀ e, e.isDeed = false → g e = 0) →
    Event.sum g h.events = (h.deeds.map fun d => Event.sum g d.told).sum
  workers : ∀ (f : Worker → Nat) (g : Event → Nat), Worker.Tally f g →
    h.node.workers.total f + (stopped.map f).sum = Event.sum g h.events
  mode : (h.events.filterMap Event.mode?).getLast?.getD false = h.node.eviction.status.isActive

namespace Chronicle.Accounts

variable {h : Chronicle} {stopped : List Worker}

theorem fresh (s : NodeSettings) (now : Millis) (outbox : Option Queue)
    (dispatcher : Option (DispatcherSettings × List Peer)) :
    (Chronicle.fresh s now outbox dispatcher).Accounts [] where
  faithful := faithful_fresh s now outbox dispatcher
  deeds _ hd := absurd hd List.not_mem_nil
  told _ _ := rfl
  workers f g _ := by
    have hnone : (Chronicle.fresh s now outbox dispatcher).node.workers = .empty := by
      cases dispatcher <;> rfl
    rw [hnone]
    rfl
  mode := rfl

theorem act (hh : h.Accounts stopped) (a : Act) :
    (h.act a).Accounts (stopped ++ h.node.stops a) where
  faithful := hh.faithful.act a
  deeds d hd := by
    rcases List.mem_append.mp hd with hd | hd
    · exact hh.deeds d hd
    · exact hh.faithful.reachable.done hd
  told g hg := by
    rw [Chronicle.act, Event.sum_append, hh.told g hg, Event.sum_announces_deeds hg,
      List.map_append, List.sum_append]
  workers f g hfg := by
    have hact := Node.total_act hfg hh.faithful.reachable a
    have hbefore := hh.workers f g hfg
    simp only [Chronicle.act, Event.sum_append, List.map_append, List.sum_append]
    omega
  mode := by
    rw [Chronicle.act, ← Node.mode_act hh.faithful.reachable, ← hh.mode, List.filterMap_append,
      List.getLast?_append]
    cases ((h.node.announces a).filterMap Event.mode?).getLast? <;> rfl

theorem sum_eq (hh : h.Accounts stopped) {g : Event → Nat}
    (hg : ∀ e, e.isDeed = false → g e = 0) {k : Deed → Nat}
    (hk : ∀ d : Deed, d.before.Reachable → Event.sum g d.told = k d) :
    Event.sum g h.events = (h.deeds.map k).sum := by
  rw [hh.told g hg]
  exact congrArg List.sum (List.map_congr_left fun d hd => hk d (hh.deeds d hd))

theorem sum_changeGain (hh : h.Accounts stopped) :
    Event.sum Metrics.changeGain h.events = h.node.registry.log.version := by
  have hsilent (e : Event) (he : e.isDeed = false) : Metrics.changeGain e = 0 := by
    rw [Metrics.changeGain, Metrics.gain_of_not_isDeed (by decide) e he,
      Metrics.gain_of_not_isDeed (by decide) e he, Metrics.gain_of_not_isDeed (by decide) e he]
  rw [hh.sum_eq hsilent fun d hd => (Deed.sum_told hd).1, hh.faithful.registry.tracks.version,
    Chronicle.changes, List.length_flatMap]

theorem sum_gain (hh : h.Accounts stopped) :
    Event.sum (Metrics.gain Metrics.cancellations) h.events = h.deeds.countP (·.removes) ∧
      Event.sum (Metrics.gain Metrics.evictions) h.events = h.deeds.countP (·.evicts) ∧
      Event.sum (Metrics.gain Metrics.renewals) h.events = h.deeds.countP (·.renews) := by
  have hcount (p : Deed → Bool) : (h.deeds.map fun d => (p d).toNat).sum = h.deeds.countP p := by
    induction h.deeds with
    | nil => rfl
    | cons d rest ih =>
      rw [List.map_cons, List.sum_cons, ih, List.countP_cons, Nat.add_comm]
      cases p d <;> rfl
  have hsum {name : String} {p : Deed → Bool} (hname : name ∈ Metrics.deedCounters)
      (hp : ∀ d : Deed, d.before.Reachable →
        Event.sum (Metrics.gain name) d.told = (p d).toNat) :
      Event.sum (Metrics.gain name) h.events = h.deeds.countP p := by
    rw [hh.sum_eq (Metrics.gain_of_not_isDeed hname) hp, hcount p]
  refine ⟨?_, ?_, ?_⟩
  · exact hsum (by decide) fun d hd => (Deed.sum_told hd).2.1
  · exact hsum (by decide) fun d hd => (Deed.sum_told hd).2.2.1
  · exact hsum (by decide) fun d hd => (Deed.sum_told hd).2.2.2

theorem attend (hh : h.Accounts stopped) (metrics : Metrics) (chores : List Chore) :
    ({ h with node := { h.node with metrics, chores } } : Chronicle).Accounts stopped where
  faithful := ⟨hh.faithful.reachable, hh.faithful.registry, hh.faithful.channel,
    hh.faithful.announced⟩
  deeds := hh.deeds
  told := hh.told
  workers := hh.workers
  mode := hh.mode

end Chronicle.Accounts

end ServiceRegistry
