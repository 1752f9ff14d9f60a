import ServiceRegistry.Proofs.Node.Accounts
import ServiceRegistry.Proofs.Node.Turns

/-! # Metrics in balance with the registry

The recorder of a node starts with the node and takes in one delivery at a time. Once it has read
all events, without missing any, its metrics agree with what the registry, the eviction controller
and the workers did (`Recording.Keeps.balances`). Events that it misses are counted.
-/

namespace ServiceRegistry

set_option autoImplicit false

open Replication

namespace Delivery

variable {α : Type}

def message? : Delivery α → Option α
  | message a => some a
  | lagged _ | empty => none

def missed : Delivery α → Nat
  | lagged missed => missed
  | message _ | empty => 0

end Delivery

namespace Broadcast.Reads

variable {α : Type} {c : Broadcast α} {sent : List α} {r r' : Receiver} {d : Delivery α}

theorem next_eq (h : Reads sent c r d r') :
    r'.next = r.next + d.message?.toList.length + d.missed := by
  cases h with
  | message _ _ | empty _ => rfl
  | lagged hbehind => exact (Nat.add_sub_cancel' (Nat.le_of_lt hbehind)).symm

theorem take_eq (h : Reads sent c r d r') (hmissed : d.missed = 0) :
    sent.take r'.next = sent.take r.next ++ d.message?.toList := by
  cases h with
  | message _ ha =>
    rw [List.take_add_one, ha]
    rfl
  | lagged hbehind =>
    simp only [Delivery.missed] at hmissed
    omega
  | empty _ => exact (List.append_nil _).symm

end Broadcast.Reads

namespace Metrics

theorem gains_take (m : Metrics) (name : String) (d : Delivery Event) :
    Gains name m (m.take d)
      (Event.sum (gain name) d.message?.toList + if eventsMissed = name then d.missed else 0) := by
  cases d with
  | message e =>
    have hrecord := m.gains_record name e
    rw [Delivery.message?, Option.toList_some, Event.sum_singleton, Delivery.missed, ite_self]
    exact hrecord
  | lagged missed =>
    have hadd := gains_add m name eventsMissed missed
    rw [← Nat.zero_add (ite ..)] at hadd
    exact hadd
  | empty =>
    rw [Delivery.missed, ite_self]
    exact .of_eq rfl

theorem gauge?_take (m : Metrics) (name : String) (d : Delivery Event) :
    (m.take d).gauge? name =
      (m.gauge? name).map ((d.message?.bind (setting? name)).getD ·) := by
  cases d with
  | message e => exact m.gauge?_record name e
  | lagged | empty => exact Option.map_id_apply.symm

end Metrics

namespace Chronicle.Accounts

open Metrics

variable {h : Chronicle} {stopped : List Worker}

theorem version_setting (hh : h.Accounts stopped) :
    ((h.events.filterMap (setting? registryVersion)).getLast?).getD 0 =
      Int64.ofNat h.node.registry.log.version := by
  have hsetting : setting? registryVersion =
      fun e => e.announced?.map fun v => Int64.ofNat v.version := by
    funext e
    cases e <;> rfl
  have hnumbers : h.changes.map (·.version) = List.range' 1 h.changes.length :=
    hh.faithful.registry.tracks.numbered
  have hversions : h.events.filterMap (setting? registryVersion) =
      (List.range' 1 h.changes.length).map Int64.ofNat := by
    rw [hsetting, ← List.map_filterMap, hh.faithful.announced, ← hnumbers, List.map_map,
      List.map_map]
    rfl
  rw [hversions, hh.faithful.registry.tracks.version, List.getLast?_map, List.getLast?_range']
  cases h.changes.length with
  | zero => rfl
  | succ n =>
    rw [if_neg (Nat.succ_ne_zero n), Option.map_some, Option.getD_some]
    congr 1
    omega

theorem preservation_setting (hh : h.Accounts stopped) :
    ((h.events.filterMap (setting? selfPreservation)).getLast?).getD 0 =
      if h.node.eviction.status.mode = .selfPreservation then 1 else 0 := by
  have hsetting : setting? selfPreservation =
      fun e => e.mode?.map fun active => if active then 1 else 0 := by
    funext e
    cases e <;> rfl
  have hmode := hh.mode
  rw [hsetting, ← List.map_filterMap, List.getLast?_map]
  rw [PreservationStatus.isActive] at hmode
  have hactive : h.node.eviction.status.mode = .selfPreservation ↔
      ((h.events.filterMap Event.mode?).getLast?).getD false = true := by
    rw [hmode, beq_iff_eq]
  simp only [hactive]
  cases (h.events.filterMap Event.mode?).getLast? <;> rfl

end Chronicle.Accounts

/-- A node with its recorder, all that the recorder took in, and the workers that were stopped. -/
structure Recording where
  chronicle : Chronicle
  recorded : List Event := []
  missed : Nat := 0
  stopped : List Worker := []

namespace Recording

def start (s : NodeSettings) (now : Millis) (outbox : Option Queue)
    (dispatcher : Option (DispatcherSettings × List Peer)) : Recording :=
  let fresh := Chronicle.fresh s now outbox dispatcher
  { chronicle := { fresh with node := fresh.node.startRecorder } }

def delivery (n : Node) (place : Nat) : Delivery Event :=
  match n.chores[place]? with
  | some (Chore.recorder events) => (n.events.receive events).1
  | _ => .empty

def step (w : Recording) : Node.Turn → Recording
  | .act a =>
    { w with chronicle := w.chronicle.act a, stopped := w.stopped ++ w.chronicle.node.stops a }
  | .chore now place =>
    let n := w.chronicle.node
    { w with
      chronicle := { w.chronicle with node := n.doChore now place }
      recorded := w.recorded ++ (delivery n place).message?.toList
      missed := w.missed + (delivery n place).missed }

def run (w : Recording) (turns : List Node.Turn) : Recording := turns.foldl step w

def CaughtUp (w : Recording) : Prop :=
  ∃ events, .recorder events ∈ w.chronicle.node.chores ∧
    w.chronicle.node.events.hasNews events = false

open Metrics in
/-- The metrics say what was done at the node. -/
structure Balances (w : Recording) : Prop where
  changes : ∃ registered updated cancelled,
    w.chronicle.node.metrics.counter? registrations = some registered ∧
      w.chronicle.node.metrics.counter? statusUpdates = some updated ∧
      w.chronicle.node.metrics.counter? cancellations = some cancelled ∧
      registered + updated + cancelled = UInt64.ofNat w.chronicle.node.registry.log.version
  version : w.chronicle.node.metrics.gauge? registryVersion =
    some (Int64.ofNat w.chronicle.node.registry.log.version)
  removed : w.chronicle.node.metrics.counter? cancellations =
    some (UInt64.ofNat (w.chronicle.deeds.countP (·.removes)))
  evicted : w.chronicle.node.metrics.counter? evictions =
    some (UInt64.ofNat (w.chronicle.deeds.countP (·.evicts)))
  renewed : w.chronicle.node.metrics.counter? renewals =
    some (UInt64.ofNat (w.chronicle.deeds.countP (·.renews)))
  sent : w.chronicle.node.metrics.counter? itemsSent =
    some (UInt64.ofNat (w.chronicle.node.workers.total (·.stats.sentItems) +
      (w.stopped.map (·.stats.sentItems)).sum))
  dropped : w.chronicle.node.metrics.counter? itemsDropped =
    some (UInt64.ofNat (w.chronicle.node.workers.total (·.stats.droppedItems) +
      (w.stopped.map (·.stats.droppedItems)).sum))
  preservation : w.chronicle.node.metrics.gauge? selfPreservation = some 1 ↔
    w.chronicle.node.eviction.status.mode = .selfPreservation

end Recording

namespace Node

open Metrics

/-- Acts leave alone what the recorder counts; a scrape sets two gauges of its own. -/
theorem metrics_act (n : Node) (a : Act) (name : String) :
    (n.act a).metrics.counter? name = n.metrics.counter? name ∧
      (name ∉ [instances, renewalsLastMinute] →
        (n.act a).metrics.gauge? name = n.metrics.gauge? name) := by
  rcases (n.aside_act a).2.1 with rfl | hsame
  · refine ⟨rfl, fun hname => ?_⟩
    have hother {name' : String} (hmem : name' ∈ [instances, renewalsLastMinute]) (m : Metrics)
        (value : Int64) : (m.set name' value).gauge? name = m.gauge? name := by
      have hne : name' ≠ name := fun h => hname (h ▸ hmem)
      rw [gauge?_set, if_neg hne]
      exact Option.map_id_apply
    exact (hother (by decide) _ _).trans (hother (by decide) _ _)
  · rw [hsame]
    exact ⟨rfl, fun _ => rfl⟩

end Node

namespace Recording

open Metrics

variable {w : Recording} {place : Receiver}

/-- What is true of the recorder, at some place among the events, between the turns. -/
structure Keeps (place : Receiver) (w : Recording) : Prop where
  accounts : w.chronicle.Accounts w.stopped
  chores : w.chronicle.node.chores = [.recorder place]
  counters : ∀ name, Gains name ({} : Metrics).registerAll w.chronicle.node.metrics
    (Event.sum (gain name) w.recorded + if eventsMissed = name then w.missed else 0)
  gauges : ∀ name, name ∉ [instances, renewalsLastMinute] →
    w.chronicle.node.metrics.gauge? name = (({} : Metrics).registerAll.gauge? name).map
      ((w.recorded.filterMap (setting? name)).getLast?.getD ·)
  place_eq : place.next = w.recorded.length + w.missed
  place_le : place.next ≤ w.chronicle.events.length
  recorded : w.missed = 0 → w.recorded = w.chronicle.events.take place.next

theorem keeps_start (s : NodeSettings) (now : Millis) (outbox : Option Queue)
    (dispatcher : Option (DispatcherSettings × List Peer)) :
    (start s now outbox dispatcher).Keeps ⟨0⟩ where
  accounts := (Chronicle.Accounts.fresh s now outbox dispatcher).attend _ _
  chores := rfl
  counters name := by
    have hzero : (Event.sum (gain name) [] + if eventsMissed = name then 0 else 0) = 0 := by
      rw [ite_self]
      rfl
    exact hzero.symm ▸ Gains.of_eq rfl
  gauges _ _ := Option.map_id_apply.symm
  place_eq := rfl
  place_le := Nat.zero_le _
  recorded _ := rfl

theorem Keeps.act (hw : w.Keeps place) (a : Act) : (w.step (.act a)).Keeps place where
  accounts := hw.accounts.act a
  chores := (w.chronicle.node.aside_act a).2.2.trans hw.chores
  counters name := ((w.chronicle.node.metrics_act a name).1).trans (hw.counters name)
  gauges name hname := ((w.chronicle.node.metrics_act a name).2 hname).trans (hw.gauges name hname)
  place_eq := hw.place_eq
  place_le := by
    simp only [step, Chronicle.act, List.length_append]
    exact Nat.le_add_right_of_le hw.place_le
  recorded hmissed := by
    simp only [step, Chronicle.act]
    rw [List.take_append_of_le_length hw.place_le]
    exact hw.recorded hmissed

theorem Keeps.chore (hw : w.Keeps place) (now : Nat) :
    (w.step (.chore now 0)).Keeps (w.chronicle.node.events.receive place).2 := by
  have hreads := hw.accounts.faithful.channel.reads hw.place_le
  have hdelivery : delivery w.chronicle.node 0 = (w.chronicle.node.events.receive place).1 := by
    rw [delivery, hw.chores]
    rfl
  have hnode : w.chronicle.node.doChore now 0 = { w.chronicle.node with
      metrics := w.chronicle.node.metrics.take (delivery w.chronicle.node 0)
      chores := [.recorder (w.chronicle.node.events.receive place).2] } := by
    simp only [Node.doChore, hw.chores, hdelivery, List.getElem?_cons_zero, Chore.perform,
      List.set_cons_zero]
  have hnext := hreads.next_eq
  have hplace := hw.place_eq
  rw [← hdelivery] at hreads hnext
  simp only [step, hnode]
  generalize delivery w.chronicle.node 0 = d at hreads hnext ⊢
  refine ⟨hw.accounts.attend _ _, rfl, fun name => ?_, fun name hname => ?_, ?_, ?_,
    fun hmissed => ?_⟩
  · have htake := (hw.counters name).trans (gains_take w.chronicle.node.metrics name d)
    have hsum : Event.sum (gain name) (w.recorded ++ d.message?.toList) +
        (if eventsMissed = name then w.missed + d.missed else 0) =
          (Event.sum (gain name) w.recorded + if eventsMissed = name then w.missed else 0) +
            (Event.sum (gain name) d.message?.toList +
              if eventsMissed = name then d.missed else 0) := by
      rw [Event.sum_append]
      split <;> omega
    exact hsum ▸ htake
  · have hlast : (w.recorded ++ d.message?.toList).filterMap (setting? name) =
        w.recorded.filterMap (setting? name) ++ (d.message?.bind (setting? name)).toList := by
      rw [List.filterMap_append]
      cases d.message? <;> rfl
    rw [gauge?_take, hw.gauges name hname, Option.map_map, hlast, List.getLast?_append]
    congr 1
    funext value
    cases d.message?.bind (setting? name) <;> rfl
  · simp only [List.length_append]
    omega
  · exact hreads.le_length hw.accounts.faithful.channel
  · obtain ⟨hbefore, hnow⟩ := Nat.add_eq_zero_iff.mp hmissed
    simp only [hw.recorded hbefore, hreads.take_eq hnow]

theorem Keeps.step (hw : w.Keeps place) (t : Node.Turn) : ∃ place', (w.step t).Keeps place' := by
  cases t with
  | act a => exact ⟨place, hw.act a⟩
  | chore now i =>
    cases i with
    | zero => exact ⟨_, hw.chore now⟩
    | succ i =>
      have hnone : w.chronicle.node.chores[i + 1]? = none := by
        rw [hw.chores, List.getElem?_cons_succ, List.getElem?_nil]
      have hidle : w.step (.chore now (i + 1)) = w := by
        simp only [Recording.step, Node.doChore, delivery, hnone]
        exact congrArg (fun l => { w with recorded := l }) (List.append_nil w.recorded)
      exact ⟨place, hidle.symm ▸ hw⟩

theorem Keeps.run (hw : w.Keeps place) (turns : List Node.Turn) :
    ∃ place', (w.run turns).Keeps place' := by
  induction turns generalizing w place with
  | nil => exact ⟨place, hw⟩
  | cons t rest ih =>
    obtain ⟨_, hstep⟩ := hw.step t
    exact ih hstep

theorem Keeps.next_of_caughtUp (hw : w.Keeps place) (hread : w.CaughtUp) :
    place.next = w.chronicle.events.length := by
  obtain ⟨events, hmem, hnews⟩ := hread
  rw [hw.chores, List.mem_singleton] at hmem
  cases hmem
  exact (hw.accounts.faithful.channel.hasNews_eq_false_iff hw.place_le).mp hnews

theorem counter?_registerAll {name : String} (h : name ∈ recorderCounters.map Prod.fst) :
    ({} : Metrics).registerAll.counter? name = some 0 := by
  revert name
  decide +kernel

theorem gauge?_registerAll {name : String} (h : name ∈ recorderGauges.map Prod.fst) :
    ({} : Metrics).registerAll.gauge? name = some 0 := by
  revert name
  decide +kernel

theorem Keeps.counter (hw : w.Keeps place) (hread : w.CaughtUp) (hmissed : w.missed = 0)
    {name : String} (hname : name ∈ recorderCounters.map Prod.fst) :
    w.chronicle.node.metrics.counter? name =
      some (UInt64.ofNat (Event.sum (gain name) w.chronicle.events)) := by
  have hrecorded := hw.recorded hmissed
  rw [hw.next_of_caughtUp hread, List.take_length] at hrecorded
  have hcounter := hw.counters name
  rw [Gains, counter?_registerAll hname, hrecorded, hmissed, ite_self, Option.map_some,
    Nat.add_zero, UInt64.zero_add] at hcounter
  exact hcounter

theorem Keeps.gauge (hw : w.Keeps place) (hread : w.CaughtUp) (hmissed : w.missed = 0)
    {name : String} (hother : name ∉ [instances, renewalsLastMinute])
    (hname : name ∈ recorderGauges.map Prod.fst) :
    w.chronicle.node.metrics.gauge? name =
      some ((w.chronicle.events.filterMap (setting? name)).getLast?.getD 0) := by
  have hrecorded := hw.recorded hmissed
  rw [hw.next_of_caughtUp hread, List.take_length] at hrecorded
  rw [hw.gauges name hother, gauge?_registerAll hname, hrecorded, Option.map_some]

theorem Keeps.balances (hw : w.Keeps place) (hread : w.CaughtUp) (hmissed : w.missed = 0) :
    w.Balances := by
  have hcounter {name : String} (hname : name ∈ recorderCounters.map Prod.fst) :=
    hw.counter hread hmissed hname
  obtain ⟨hremoved, hevicted, hrenewed⟩ := hw.accounts.sum_gain
  refine ⟨⟨_, _, _, hcounter (by decide), hcounter (by decide), hcounter (by decide), ?_⟩,
    ?_, ?_, ?_, ?_, ?_, ?_, ?_⟩
  · have hsum : Event.sum changeGain w.chronicle.events =
        Event.sum (gain registrations) w.chronicle.events +
          Event.sum (gain statusUpdates) w.chronicle.events +
            Event.sum (gain cancellations) w.chronicle.events := by
      unfold Event.sum changeGain
      rw [List.sum_map_add, List.sum_map_add]
    rw [← hw.accounts.sum_changeGain, hsum, UInt64.ofNat_add, UInt64.ofNat_add]
  · rw [hw.gauge hread hmissed (by decide) (by decide), hw.accounts.version_setting]
  · rw [hcounter (by decide), hremoved]
  · rw [hcounter (by decide), hevicted]
  · rw [hcounter (by decide), hrenewed]
  · rw [hcounter (by decide), hw.accounts.workers _ _ tally_sent]
  · rw [hcounter (by decide), hw.accounts.workers _ _ tally_dropped]
  · rw [hw.gauge hread hmissed (by decide) (by decide), hw.accounts.preservation_setting]
    split
    · rename_i hmode
      exact iff_of_true rfl hmode
    · rename_i hmode
      exact iff_of_false (by decide) hmode

/-- Whatever happens at a node and however its turns are mixed with those of its recorder, once the
recorder has read everything the metrics balance, unless it came too late for some events. These
are counted, and with the ones that were recorded they are all. -/
theorem balance (s : NodeSettings) (now : Millis) (outbox : Option Queue)
    (dispatcher : Option (DispatcherSettings × List Peer)) (turns : List Node.Turn) :
    let w := (start s now outbox dispatcher).run turns
    w.CaughtUp → (w.missed = 0 → w.Balances) ∧
      w.recorded.length + w.missed = w.chronicle.node.events.sent ∧
      w.chronicle.node.metrics.counter? eventsMissed = some (UInt64.ofNat w.missed) := by
  intro w hread
  obtain ⟨place, hw⟩ := (keeps_start s now outbox dispatcher).run turns
  refine ⟨hw.balances hread, ?_, ?_⟩
  · have hsent : w.chronicle.node.events.sent = w.chronicle.events.length :=
      hw.accounts.faithful.channel.count
    rw [← hw.place_eq, hw.next_of_caughtUp hread, hsent]
  · have hcounter := hw.counters eventsMissed
    have hnone : Event.sum (gain eventsMissed) w.recorded = 0 :=
      Event.sum_eq_zero fun e _ => gain_eventsMissed e
    have hzero : ({} : Metrics).registerAll.counter? eventsMissed = some 0 :=
      counter?_registerAll (by decide)
    rw [Gains, hnone, if_pos rfl, hzero, Option.map_some, Nat.zero_add, UInt64.zero_add] at hcounter
    exact hcounter

/-- An instance registers, renews and is cancelled while the recorder reads along. Elsewhere the
channel keeps two events, and three come before the recorder reads any. -/
theorem balance_attended_overrun :
    let attended : List Node.Turn := [.act .syncPeers, .act (.enter "WEB" "web-0"), .chore 0 0,
      .act (.command (.renew .client "WEB" "web-0" none)), .chore 1 0, .chore 2 0,
      .act (.command (.cancel .client "WEB" "web-0")), .act .rebuild, .chore 3 0, .chore 4 0,
      .chore 5 0]
    let overrun : List Node.Turn := [.act (.enter "WEB" "web-0"), .act (.enter "WEB" "web-1"),
      .act (.enter "WEB" "web-2"), .chore 0 0, .chore 1 0, .chore 2 0]
    let w := (start {} 1 none (some ({}, [⟨"peer", 80⟩]))).run attended
    let v := (start { eventCapacity := 2 } 1 none none).run overrun
    w.CaughtUp ∧ w.missed = 0 ∧ w.recorded.length = 4 ∧ w.Balances ∧
      v.CaughtUp ∧ v.missed = 1 ∧ v.recorded.length + v.missed = v.chronicle.node.events.sent := by
  intro attended overrun w v
  have hread : w.CaughtUp := ⟨⟨4⟩, by decide +kernel, by decide +kernel⟩
  have hmissed : w.missed = 0 := by decide +kernel
  have hoverrun : v.CaughtUp := ⟨⟨3⟩, by decide +kernel, by decide +kernel⟩
  have hbalance := balance {} 1 none (some ({}, [⟨"peer", 80⟩])) attended hread
  have hcounted := balance { eventCapacity := 2 } 1 none none overrun hoverrun
  exact ⟨hread, hmissed, by decide +kernel, hbalance.1 hmissed, hoverrun, by decide +kernel,
    hcounted.2.1⟩

end Recording

end ServiceRegistry
