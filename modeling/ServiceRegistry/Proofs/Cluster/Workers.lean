import ServiceRegistry.Cluster
import ServiceRegistry.Proofs.Registry.Reachable
import ServiceRegistry.Proofs.Replication.Queue

/-! # Workers of a cluster

A cluster comes about by calls at its nodes, by what its timer finds due, and by time that passes.
Whatever happens, every worker's queue holds a list of items: `Reachable.tidy`.
-/

namespace ServiceRegistry

set_option autoImplicit false

open Replication

namespace Replication.Dispatcher

def Tidy (d : Dispatcher) : Prop := ∀ peer w, d.workers.get? peer = some w → w.queue.Roomy

variable {d : Dispatcher}

theorem Tidy.insert (hd : d.Tidy) {w : Worker} (hw : w.queue.Roomy) (peer : Peer) :
    ({ d with workers := d.workers.insert peer w } : Dispatcher).Tidy := by
  intro peer' w' h
  rw [KeyMap.get?_insert] at h
  split at h
  · cases h
    exact hw
  · exact hd peer' w' h

theorem Tidy.enqueue (hd : d.Tidy) (peer : Peer) (i : Item) : (d.enqueue peer i).1.Tidy := by
  unfold Dispatcher.enqueue
  cases h : d.workers.get? peer with
  | none => exact hd
  | some w => exact hd.insert ((hd peer w h).push i) peer

theorem Tidy.enqueueAll (hd : d.Tidy) (i : Item) (peers : List Peer) :
    (enqueueAll i peers d).1.Tidy := by
  induction peers generalizing d with
  | nil => exact hd
  | cons peer rest ih => exact ih (hd.enqueue peer i)

theorem Tidy.foldl_addWorker (hd : d.Tidy) (capacity : Nat) (peers : List Peer) :
    ({ d with workers := peers.foldl (addWorker capacity) d.workers } : Dispatcher).Tidy := by
  induction peers generalizing d with
  | nil => exact hd
  | cons peer rest ih =>
    have hadded : ({ d with workers := addWorker capacity d.workers peer } : Dispatcher).Tidy := by
      unfold addWorker
      split
      · exact hd
      · exact hd.insert (Queue.roomy_ofCapacity capacity) peer
    exact ih hadded

theorem Tidy.syncPeers (hd : d.Tidy) : d.syncPeers.Tidy := by
  unfold Dispatcher.syncPeers
  split
  · exact hd
  · have hkept : ({ d with workers := d.workers.filter fun e => d.peers.contains e.1 } :
        Dispatcher).Tidy := by
      intro peer w h
      rw [KeyMap.get?_filter] at h
      exact hd peer w (Option.eq_some_of_filter_eq_some h)
    exact hkept.foldl_addWorker d.settings.queueCapacity d.peers

end Replication.Dispatcher

namespace Node

def Tidy (n : Node) : Prop := ∀ d, n.dispatcher = some d → d.Tidy

variable {n : Node}

theorem emitAll_eq (n : Node) (es : List Event) : ∃ events, n.emitAll es = { n with events } := by
  induction es generalizing n with
  | nil => exact ⟨n.events, rfl⟩
  | cons e rest ih => exact ih (n.emit e)

theorem dispatcher_emitAll (n : Node) (es : List Event) :
    (n.emitAll es).dispatcher = n.dispatcher := by
  obtain ⟨events, hemit⟩ := n.emitAll_eq es
  rw [hemit]

theorem Tidy.congr {n' : Node} (hn : n.Tidy) (h : n'.dispatcher = n.dispatcher) : n'.Tidy :=
  fun d hd => hn d (h ▸ hd)

theorem tidy_some {d : Dispatcher} (hd : d.Tidy) (n : Node) (es : List Event) :
    ({ n with dispatcher := some d }.emitAll es).Tidy := by
  intro d' h
  rw [dispatcher_emitAll] at h
  cases h
  exact hd

theorem Tidy.ship (hn : n.Tidy) (i : Item) : (n.ship i).Tidy := by
  unfold Node.ship
  split
  · exact hn
  · rename_i d _ h
    exact tidy_some ((hn d h).enqueueAll i d.workers.keys) n _
  · exact hn

theorem Tidy.foldl_perform (hn : n.Tidy) (effects : List Effect) :
    (effects.foldl perform n).Tidy := by
  induction effects generalizing n with
  | nil => exact hn
  | cons e rest ih =>
    cases e with
    | emit e => exact ih hn
    | ship i => exact ih (hn.ship i)

theorem Tidy.commit {α : Type} (hn : n.Tidy) (s : Response α) : (n.commit s).2.Tidy :=
  Tidy.foldl_perform (n := { n with registry := s.registry }) hn s.effects

theorem Tidy.rebuildCache (hn : n.Tidy) : n.rebuildCache.2.Tidy :=
  Tidy.commit (n := { n with cache := (n.cache.rebuild n.registry n.clock).1 }) hn _

theorem Tidy.refreshCache (hn : n.Tidy) : n.refreshCache.2.Tidy :=
  Tidy.commit (n := { n with cache := (n.cache.refresh n.registry n.clock).1 }) hn _

theorem Tidy.evictionCycle (hn : n.Tidy) (choose : Choice) : (n.evictionCycle choose).2.Tidy :=
  Tidy.commit (n := { n with
    eviction := (n.eviction.run n.registry n.clock n.reportedIsolation choose).1 }) hn _

theorem Tidy.react (hn : n.Tidy) (peer : Peer) (r : Reaction) : (n.react peer r).Tidy := by
  cases r with
  | resend i =>
    simp only [Node.react]
    cases h : n.dispatcher with
    | none => exact hn
    | some d => exact tidy_some ((hn d h).enqueue peer i) n _
  | adopt record lease =>
    simp only [Node.react]
    split
    · exact hn.commit _
    · exact hn

theorem Tidy.foldl_react (hn : n.Tidy) (peer : Peer) (rs : List Reaction) :
    (rs.foldl (·.react peer) n).Tidy := by
  induction rs generalizing n with
  | nil => exact hn
  | cons r rest ih => exact ih (hn.react peer r)

theorem Tidy.syncPeers (hn : n.Tidy) : n.syncPeers.Tidy := by
  intro d hd
  obtain ⟨d', hd', rfl⟩ := Option.map_eq_some_iff.mp hd
  exact (hn d' hd').syncPeers

theorem Tidy.chore (hn : n.Tidy) (now : Nat) (chore : Chore) : (chore.perform n now).2.Tidy := by
  cases chore with
  | cache events tick quiet =>
    cases quiet with
    | some due => exact hn.refreshCache
    | none =>
      simp only [Chore.perform]
      split
      · exact hn.refreshCache
      · split
        · exact hn
        · exact hn.rebuildCache
        · exact hn
  | eviction tick => exact hn.evictionCycle .first
  | renewals tick window => exact hn
  | recorder events => exact hn
  | discovery tick => exact hn.syncPeers

theorem Tidy.doChore (hn : n.Tidy) (now place : Nat) : (n.doChore now place).Tidy := by
  unfold Node.doChore
  split
  · exact hn
  · rename_i chore _
    exact hn.chore now chore

end Node

namespace Cluster

def Tidy (c : Cluster) : Prop := ∀ i n, c.node? i = some n → n.Tidy

variable {c : Cluster} {i : Nat} {peer : Peer} {d : Dispatcher} {w : Worker}

theorem Tidy.of_nodes {c' : Cluster} (hc : c.Tidy) (h : c'.nodes = c.nodes) : c'.Tidy := by
  intro i n hn
  rw [node?, h] at hn
  exact hc i n hn

theorem node?_setNode (c : Cluster) (i j : Nat) (n : Node) :
    (c.setNode i n).node? j = if i = j then (c.node? j).map fun _ => n else c.node? j := by
  simp only [node?, setNode, List.getElem?_set]
  split
  · rename_i h
    subst h
    by_cases hi : i < c.nodes.length <;> simp [hi]
  · rfl

theorem worker?_eq_some (h : c.worker? i peer = some (d, w)) :
    ∃ n, c.node? i = some n ∧ n.dispatcher = some d ∧ d.workers.get? peer = some w := by
  simp only [worker?, Option.bind_eq_some_iff, Option.map_eq_some_iff] at h
  obtain ⟨n, hn, d', hd, w', hw, heq⟩ := h
  cases heq
  exact ⟨n, hn, hd, hw⟩

theorem Tidy.worker (hc : c.Tidy) (h : c.worker? i peer = some (d, w)) : w.queue.Roomy := by
  obtain ⟨n, hn, hd, hw⟩ := worker?_eq_some h
  exact hc i n hn d hd peer w hw

theorem Tidy.setNode (hc : c.Tidy) {n : Node} (hn : n.Tidy) (i : Nat) : (c.setNode i n).Tidy := by
  intro j n' h
  rw [node?_setNode] at h
  split at h
  · obtain ⟨-, -, rfl⟩ := Option.map_eq_some_iff.mp h
    exact hn
  · exact hc j n' h

theorem Tidy.setWorker (hc : c.Tidy) (hw : w.queue.Roomy) (i : Nat) (peer : Peer) :
    (c.setWorker i peer w).Tidy := by
  unfold Cluster.setWorker
  cases h : c.node? i with
  | none => exact hc
  | some n =>
    refine hc.setNode (fun d hd => ?_) i
    obtain ⟨d', hd', rfl⟩ := Option.map_eq_some_iff.mp hd
    exact (hc i n h d' hd').insert hw peer

theorem meet_cases (c : Cluster) (target : Peer) (items : List Item) (fate : Fate) :
    (c.meet target items fate).2 = c ∨ ∃ j n, c.node? j = some n ∧
      (c.meet target items fate).2 = c.setNode j (n.receiveAll items).2 := by
  have hdeliver : (c.deliver target items).2 = c ∨ ∃ j n, c.node? j = some n ∧
      (c.deliver target items).2 = c.setNode j (n.receiveAll items).2 := by
    simp only [deliver]
    split
    · exact .inl rfl
    · rename_i j n h
      simp only [Option.bind_eq_some_iff, Option.map_eq_some_iff] at h
      obtain ⟨j', -, n', hn, heq⟩ := h
      cases heq
      exact .inr ⟨j, n, hn, rfl⟩
  cases fate
  case deliver | late => exact hdeliver
  all_goals exact .inl rfl

theorem Tidy.meet (hc : c.Tidy) (peer : Peer) (items : List Item) (fate : Fate) :
    (c.meet peer items fate).2.Tidy := by
  rcases c.meet_cases peer items fate with h | ⟨j, n, hn, h⟩
  · rw [h]
    exact hc
  · rw [h]
    exact hc.setNode ((hc j n hn).commit _) j

theorem Tidy.conclude (hc : c.Tidy) (i : Nat) (peer : Peer) (items : List Item) (attempt : Nat)
    (answer : Answer) : (c.conclude i peer items attempt answer).Tidy := by
  unfold Cluster.conclude
  split
  · exact hc
  · rename_i d w h
    have hw := hc.worker h
    have hsettled := hc.setWorker (w := w.settle c.now items attempt
      (Replication.conclude d.settings attempt answer)) hw i peer
    simp only
    split
    · exact hsettled
    · rename_i n hn
      have htold := (hsettled i n hn).congr (n.dispatcher_emitAll
        (Worker.report peer items (Replication.conclude d.settings attempt answer)))
      refine hsettled.setNode ?_ i
      split
      · exact htold.foldl_react peer _
      · exact htold

theorem land_eq {flight : Flight} (h : c.flights.get? (i, peer) = some flight) (items : List Item)
    (attempt : Nat) :
    ∃ c' : Cluster, c'.nodes = (c.meet peer items flight.fate).2.nodes ∧
      c.land i peer items attempt =
        c'.conclude i peer items attempt (c.meet peer items flight.fate).1 := by
  refine ⟨_, ?_, by rw [land, h]⟩
  rfl

theorem Tidy.land (hc : c.Tidy) (i : Nat) (peer : Peer) (items : List Item) (attempt : Nat) :
    (c.land i peer items attempt).Tidy := by
  cases h : c.flights.get? (i, peer) with
  | none =>
    rw [Cluster.land, h]
    exact hc
  | some flight =>
    obtain ⟨c', hnodes, hland⟩ := land_eq h items attempt
    rw [hland]
    exact ((hc.meet peer items flight.fate).of_nodes hnodes).conclude i peer items attempt _

theorem Tidy.move (hc : c.Tidy) (i : Nat) (peer : Peer) : (c.move i peer).Tidy := by
  unfold Cluster.move
  split
  · exact hc
  rename_i d w h
  have hw := hc.worker h
  have hphase (phase : Phase) : (c.setWorker i peer { w with phase }).Tidy :=
    hc.setWorker (w := { w with phase }) hw i peer
  split
  · exact hphase _
  · have htaken := hc.setWorker (w := w.takeBatch d.settings (d.peers.contains peer))
      (hw.drain d.settings.batchSize) i peer
    simp only
    split
    · exact htaken
    · exact htaken
  · exact hphase _
  · exact hc.land i peer _ _

def update (c : Cluster) (i : Nat) (f : Node → Node) : Cluster :=
  match c.node? i with
  | none => c
  | some n => c.setNode i (f n)

theorem Tidy.update (hc : c.Tidy) (i : Nat) {f : Node → Node} (hf : ∀ n, n.Tidy → (f n).Tidy) :
    (c.update i f).Tidy := by
  unfold Cluster.update
  cases h : c.node? i with
  | none => exact hc
  | some n => exact hc.setNode (hf n (hc i n h)) i

theorem Tidy.perform (hc : c.Tidy) (a : Action) : (c.perform a).Tidy := by
  cases a with
  | chore i place => exact hc.update i fun n hn => hn.doChore c.now place
  | worker i peer => exact hc.move i peer

def call (c : Cluster) (i : Nat) (command : Command) : Cluster :=
  c.update i fun n => (n.commit (n.registry.perform n.clock command)).2

/-- Clusters that come about from one whose dispatchers have not started any worker. -/
inductive Reachable : Cluster → Prop where
  | start {c : Cluster} :
    (∀ i n d, c.node? i = some n → n.dispatcher = some d → d.workers = .empty) → Reachable c
  | call {c : Cluster} (i : Nat) (command : Command) : Reachable c → Reachable (c.call i command)
  | perform {c : Cluster} (a : Action) : Reachable c → Reachable (c.perform a)
  | wait {c : Cluster} (now : Nat) : Reachable c → Reachable { c with now }
  | clock {c : Cluster} (i : Nat) (clock : Millis) : Reachable c →
    Reachable (c.update i fun n => { n with clock })

theorem Reachable.tidy (h : c.Reachable) : c.Tidy := by
  induction h with
  | start hempty =>
    intro i n hn d hd peer w hw
    rw [hempty i n d hn hd] at hw
    cases hw
  | call i command _ ih => exact ih.update i fun n hn => hn.commit _
  | perform a _ ih => exact ih.perform a
  | wait now _ ih => exact ih
  | clock i clock _ ih => exact ih.update i fun n hn => hn

end Cluster

end ServiceRegistry
