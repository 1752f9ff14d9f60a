import ServiceRegistry.Proofs.Cluster.Rounds
import ServiceRegistry.Proofs.Registry.Runs
import ServiceRegistry.Proofs.Replication.Weight

/-! # Traffic between nodes

Batches that nodes apply and records that they adopt are told to nobody. So without new operations
of clients the weight of all that waits limits what is ever sent: `Coasts.traffic`.
-/

namespace ServiceRegistry

set_option autoImplicit false

open Replication

namespace Registry

variable {r : Registry} {now : Millis}

theorem shipped_evict {seen : Millis} {app id : String} {grace : Int}
    (h : (r.evict seen now app id grace).answer = false) :
    shipped (r.evict seen now app id grace).effects = [] := by
  unfold evict withdraw at h ⊢
  split
  · rfl
  · rename_i hfound
    rw [hfound] at h
    cases h

end Registry

namespace EvictionController

theorem shipped_evictAll {now : Millis} {grace : Int} {keys : List Key} {r : Registry}
    (h : (evictAll r now grace keys).answer = 0) :
    shipped (evictAll r now grace keys).effects = [] := by
  induction keys generalizing r with
  | nil => rfl
  | cons key rest ih =>
    obtain ⟨hrest, hfirst⟩ := Nat.add_eq_zero_iff.mp h
    rw [evictAll, shipped, List.filterMap_append]
    refine List.append_eq_nil_iff.mpr ⟨Registry.shipped_evict ?_, ih hrest⟩
    cases hanswer : (r.evict now now key.1 key.2 grace).answer with
    | false => rfl
    | true => simp [hanswer] at hfirst

theorem shipped_run {c : EvictionController} {r : Registry} {now : Millis} {isolated : Bool}
    {choose : Choice} (h : (c.run r now isolated choose).2.answer.evicted = 0) :
    shipped (c.run r now isolated choose).2.effects = [] := by
  rw [shipped_run_eq]
  exact shipped_evictAll h

end EvictionController

namespace Node

variable {n : Node} {f : Worker → Nat}

def total (f : Worker → Nat) (n : Node) : Nat := (n.dispatcher.map (·.workers.total f)).getD 0

theorem total_congr {n' : Node} (h : n'.dispatcher = n.dispatcher) : n'.total f = n.total f := by
  rw [total, h]
  rfl

theorem total_setWorker {d : Dispatcher} {peer : Peer} {w : Worker} (hd : n.dispatcher = some d)
    (hw : d.workers.get? peer = some w) (w' : Worker) :
    ({ n with dispatcher := n.dispatcher.map fun d =>
      { d with workers := d.workers.insert peer w' } } : Node).total f + f w =
        n.total f + f w' := by
  have hinsert := d.workers.total_insert f peer w'
  rw [hw] at hinsert
  simp only [total, hd, Option.map_some, Option.getD_some] at hinsert ⊢
  exact hinsert

theorem Tidy.total_react (hf : Worker.Gauge f) (hn : n.Tidy) (peer : Peer) (r : Reaction) :
    (n.react peer r).total f ≤ n.total f + weight r.resent?.toList := by
  obtain ⟨events, hreact⟩ := n.react_eq peer r
  rw [hreact]
  cases r.resent? with
  | none => exact Nat.le_add_right _ _
  | some i =>
    cases hd : n.dispatcher with
    | none =>
      simp only [total, hd, Option.map_none, Option.getD_none]
      exact Nat.zero_le _
    | some d =>
      simp only [total, hd, Option.map_some, Option.getD_some]
      exact (hn d hd).total_enqueue hf peer i

theorem Tidy.total_foldl_react (hf : Worker.Gauge f) (hn : n.Tidy) (peer : Peer)
    (rs : List Reaction) :
    (rs.foldl (·.react peer) n).total f ≤ n.total f + weight (rs.filterMap Reaction.resent?) := by
  induction rs generalizing n with
  | nil => exact Nat.le_refl _
  | cons r rest ih =>
    have hfirst := hn.total_react hf peer r
    have hrest := ih (hn.react peer r)
    have hweight : weight ((r :: rest).filterMap Reaction.resent?) =
        weight r.resent?.toList + weight (rest.filterMap Reaction.resent?) := by
      cases h : r.resent? with
      | none => simp [h, weight]
      | some i => simp [h, weight]
    rw [List.foldl_cons, hweight]
    omega

theorem dispatcher_refreshCache (n : Node) : n.refreshCache.2.dispatcher = n.dispatcher := by
  have hsilent : shipped (n.cache.refresh n.registry n.clock).2.effects = [] := by
    simp only [ResponseCache.refresh]
    split <;> split <;> rfl
  exact dispatcher_commit { n with cache := (n.cache.refresh n.registry n.clock).1 } hsilent

theorem dispatcher_rebuildCache (n : Node) : n.rebuildCache.2.dispatcher = n.dispatcher :=
  dispatcher_commit { n with cache := (n.cache.rebuild n.registry n.clock).1 } rfl

theorem total_syncPeers (hf : Worker.Gauge f) (n : Node) : n.syncPeers.total f ≤ n.total f := by
  cases hd : n.dispatcher with
  | none => simp only [total, syncPeers, hd, Option.map_none, Nat.le_refl]
  | some d =>
    simp only [total, syncPeers, hd, Option.map_some, Option.getD_some]
    exact d.total_syncPeers hf

theorem total_setPeers (n : Node) (peers : List Peer) :
    ({ n with dispatcher := n.dispatcher.map fun d => { d with peers } } : Node).total f =
      n.total f := by
  cases hd : n.dispatcher with
  | none => simp only [total, hd, Option.map_none]
  | some d => simp only [total, hd, Option.map_some]

def Spares (n : Node) (chore : Chore) : Prop :=
  chore.kind = .eviction → (n.evictionCycle .first).1.evicted = 0

theorem total_chore (hf : Worker.Gauge f) {n : Node} {chore : Chore} (hspares : n.Spares chore)
    (now : Nat) : (chore.perform n now).2.total f ≤ n.total f := by
  cases chore with
  | cache events tick quiet =>
    have hrefresh := total_congr (f := f) n.dispatcher_refreshCache
    have hrebuild := total_congr (f := f) n.dispatcher_rebuildCache
    cases quiet with
    | some due => exact hrefresh.le
    | none =>
      simp only [Chore.perform]
      split
      · exact hrefresh.le
      · split
        · exact Nat.le_refl _
        · exact hrebuild.le
        · exact Nat.le_refl _
  | eviction tick =>
    have hcycle := dispatcher_commit { n with
      eviction := (n.eviction.run n.registry n.clock n.reportedIsolation .first).1 }
      (EvictionController.shipped_run (hspares rfl))
    exact (total_congr hcycle).le
  | renewals tick window | recorder events => exact Nat.le_refl _
  | discovery tick => exact n.total_syncPeers hf

theorem total_doChore (hf : Worker.Gauge f) {n : Node} {place : Nat}
    (hspares : ∀ chore, n.chores[place]? = some chore → n.Spares chore) (now : Nat) :
    (n.doChore now place).total f ≤ n.total f := by
  unfold Node.doChore
  split
  · exact Nat.le_refl _
  · rename_i chore hchore
    exact total_chore hf (hspares chore hchore) now

end Node

namespace Cluster

variable {c : Cluster} {i : Nat} {peer : Peer} {d : Dispatcher} {w : Worker} {f : Worker → Nat}

def total (f : Worker → Nat) (c : Cluster) : Nat := (c.nodes.map (·.total f)).sum

theorem total_add (f g : Worker → Nat) (c : Cluster) :
    c.total (fun w => f w + g w) = c.total f + c.total g := by
  have hnode (n : Node) : n.total (fun w => f w + g w) = n.total f + n.total g := by
    cases hd : n.dispatcher with
    | none => simp only [Node.total, hd, Option.map_none, Option.getD_none]
    | some d =>
      simp only [Node.total, hd, Option.map_some, Option.getD_some]
      exact d.workers.total_add f g
  simp only [total, hnode]
  exact List.sum_map_add

theorem total_setNode {n : Node} (hn : c.node? i = some n) (n' : Node) :
    (c.setNode i n').total f + n.total f = c.total f + n'.total f := by
  have hsum (l : List Node) (i : Nat) (hi : l[i]? = some n) :
      ((l.set i n').map (·.total f)).sum + n.total f = (l.map (·.total f)).sum + n'.total f := by
    induction l generalizing i with
    | nil => cases hi
    | cons m rest ih =>
      cases i with
      | zero =>
        cases hi
        simp only [List.set_cons_zero, List.map_cons, List.sum_cons]
        omega
      | succ i =>
        have hrest := ih i hi
        simp only [List.set_cons_succ, List.map_cons, List.sum_cons]
        omega
  exact hsum c.nodes i hn

theorem total_setWorker (h : c.worker? i peer = some (d, w)) (w' : Worker) :
    (c.setWorker i peer w').total f + f w = c.total f + f w' := by
  obtain ⟨n, hn, hd, hw⟩ := worker?_eq_some h
  have hnode := Node.total_setWorker (f := f) hd hw w'
  have hset := total_setNode (f := f) hn { n with
    dispatcher := n.dispatcher.map fun d => { d with workers := d.workers.insert peer w' } }
  rw [setWorker, hn]
  simp only
  omega

theorem total_update_le (i : Nat) {g : Node → Node}
    (hg : ∀ n, c.node? i = some n → (g n).total f ≤ n.total f) :
    (c.update i g).total f ≤ c.total f := by
  unfold update
  cases hn : c.node? i with
  | none => exact Nat.le_refl _
  | some n =>
    have hset := total_setNode (f := f) hn (g n)
    have hnode := hg n hn
    simp only
    omega

theorem total_meet (c : Cluster) (target : Peer) (items : List Item) (fate : Fate) :
    (c.meet target items fate).2.total f = c.total f := by
  rcases c.meet_cases target items fate with h | ⟨j, n, hn, h⟩
  · rw [h]
  · have hset := total_setNode (f := f) hn (n.receiveAll items).2
    have hsame : (n.receiveAll items).2.total f = n.total f :=
      Node.total_congr (n.dispatcher_commit (Registry.shipped_receiveAll items))
    rw [h]
    omega

/-- A batch that is concluded adds what is sent again, and changes the phase of its worker. -/
theorem Tidy.total_conclude (hf : Worker.Gauge f) (hc : c.Tidy)
    (h : c.worker? i peer = some (d, w)) (items : List Item) {attempt : Nat} {answer : Answer}
    {conclusion : Conclusion}
    (hconclusion : Replication.conclude d.settings attempt answer = conclusion) :
    (c.conclude i peer items attempt answer).total f + f w ≤
      c.total f + f (w.settle c.now items attempt conclusion) +
        weight (conclusion.resent items) := by
  obtain ⟨n, hn, -, hconclude⟩ := conclude_eq h items hconclusion
  have hset := total_setWorker (f := f) h (w.settle c.now items attempt conclusion)
  have hroomy := hc.worker h
  have hsettled := hc.setWorker (w := w.settle c.now items attempt conclusion) hroomy i peer
  have hsame := n.dispatcher_emitAll (Worker.report peer items conclusion)
  have htold := Node.total_congr (f := f) hsame
  have hreact := ((hsettled i n hn).congr hsame).total_foldl_react hf peer
    (conclusion.reactions items)
  have hnode := total_setNode (f := f) hn ((conclusion.reactions items).foldl (·.react peer)
    (n.emitAll (Worker.report peer items conclusion)))
  rw [hconclude, Conclusion.resent]
  omega

theorem Tidy.total_land (hf : Worker.Gauge f) (hc : c.Tidy)
    (h : c.worker? i peer = some (d, w)) (items : List Item) (attempt most : Nat)
    (hsettle : ∀ now conclusion, f (w.settle now items attempt conclusion) +
      Replication.weight (conclusion.resent items) ≤ f w + most) :
    (c.land i peer items attempt).total f ≤ c.total f + most := by
  cases hflight : c.flights.get? (i, peer) with
  | none =>
    rw [Cluster.land, hflight]
    exact Nat.le_add_right _ _
  | some flight =>
    obtain ⟨c', hnodes, hland⟩ := land_eq hflight items attempt
    have hworker : c'.worker? i peer = some (d, w) := by
      rw [← h, ← worker?_meet c i peer peer items flight.fate, worker?, worker?, node?, node?,
        hnodes]
    have hmet : c'.total f = c.total f := by
      rw [← total_meet c peer items flight.fate, total, total, hnodes]
    have htidy : c'.Tidy := (hc.meet peer items flight.fate).of_nodes hnodes
    obtain ⟨conclusion, hconclusion⟩ : ∃ conclusion,
        Replication.conclude d.settings attempt (c.meet peer items flight.fate).1 = conclusion :=
      ⟨_, rfl⟩
    have hconclude := htidy.total_conclude hf hworker items hconclusion
    have hmost := hsettle c'.now conclusion
    rw [hland]
    omega

def weight (c : Cluster) : Nat := c.total Worker.weight

/-- What the answers to the batches that are out may add to the queues. -/
def awaited (c : Cluster) : Nat := c.total Worker.awaited

theorem weight_add_awaited (c : Cluster) :
    c.weight + c.awaited = c.total fun w => w.weight + w.awaited :=
  (total_add ..).symm

theorem load_update (i : Nat) {g : Node → Node}
    (hg : ∀ n f, Worker.Gauge f → c.node? i = some n → (g n).total f ≤ n.total f) :
    (c.update i g).weight + (c.update i g).awaited ≤ c.weight + c.awaited := by
  rw [weight_add_awaited, weight_add_awaited]
  exact total_update_le i fun n hn => hg n _ Worker.gauge_load hn

def taken (c : Cluster) (i : Nat) (peer : Peer) : List Item :=
  match c.worker? i peer with
  | some (d, { queue, phase := .gathering _, .. }) => (queue.drain d.settings.batchSize).1
  | _ => []

theorem taken_gathering (h : c.worker? i peer = some (d, w)) {due : Nat}
    (hphase : w.phase = .gathering due) :
    c.taken i peer = (w.queue.drain d.settings.batchSize).1 := by
  obtain ⟨queue, stats, phase⟩ := w
  cases hphase
  rw [taken, h]

theorem total_takeBatch (h : c.worker? i peer = some (d, w)) {due : Nat}
    (hphase : w.phase = .gathering due) :
    (c.move i peer).total f + f w =
      c.total f + f (w.takeBatch d.settings (d.peers.contains peer)) := by
  have hset := total_setWorker (f := f) h (w.takeBatch d.settings (d.peers.contains peer))
  simp only [Cluster.move, h, hphase]
  split <;> exact hset

theorem Tidy.weight_takeBatch (hc : c.Tidy) (h : c.worker? i peer = some (d, w)) {due : Nat}
    (hphase : w.phase = .gathering due) :
    (c.move i peer).weight + Replication.weight (c.taken i peer) = c.weight := by
  have htaken := total_takeBatch (f := Worker.weight) h hphase
  have hdrain : Worker.weight (w.takeBatch d.settings (d.peers.contains peer)) +
      Replication.weight (c.taken i peer) = Worker.weight w := by
    rw [taken_gathering h hphase]
    exact (hc.worker h).tidy.weight_drain d.settings.batchSize
  rw [weight, weight]
  omega

theorem Tidy.weight_answer (hc : c.Tidy) (h : c.worker? i peer = some (d, w)) {items : List Item}
    {attempt : Nat} (hphase : w.phase = .sending items attempt) :
    (c.move i peer).weight ≤ c.weight + heartbeats items := by
  have hsettle (now : Nat) (conclusion : Conclusion) :
      Worker.weight (w.settle now items attempt conclusion) +
        Replication.weight (conclusion.resent items) ≤ Worker.weight w + heartbeats items :=
    Nat.add_le_add_left (conclusion.weight_resent_le items) _
  have hland := hc.total_land Worker.gauge_weight h items attempt (heartbeats items) hsettle
  simp only [Cluster.move, h, hphase]
  exact hland

theorem Tidy.load_move (hc : c.Tidy) (i : Nat) (peer : Peer) :
    (c.move i peer).weight + (c.move i peer).awaited + (c.taken i peer).length ≤
      c.weight + c.awaited := by
  simp only [weight, awaited, ← total_add]
  cases h : c.worker? i peer with
  | none =>
    simp only [Cluster.move, taken, h]
    exact Nat.le_refl _
  | some dw =>
    obtain ⟨d, queue, stats, phase⟩ := dw
    cases phase with
    | gathering due =>
      have htaken := total_takeBatch (f := fun w => w.weight + w.awaited) h rfl
      have hbatch := Worker.load_takeBatch (hc.worker h).tidy d.settings (d.peers.contains peer)
      rw [taken_gathering h rfl]
      beta_reduce at htaken
      omega
    | idle =>
      have hset := total_setWorker (f := fun w => w.weight + w.awaited) h
        ⟨queue, stats, .gathering (c.now + d.settings.batchingDelay)⟩
      simp only [Cluster.move, taken, h]
      exact (Nat.add_right_cancel hset).le
    | resting items attempt due =>
      have hset := total_setWorker (f := fun w => w.weight + w.awaited) h
        ⟨queue, stats, .sending items attempt⟩
      simp only [Cluster.move, taken, h]
      exact (Nat.add_right_cancel hset).le
    | sending items attempt =>
      have hland := hc.total_land Worker.gauge_load h items attempt 0 (Worker.load_settle rfl)
      simp only [Cluster.move, taken, h]
      exact hland

/-- What goes on while no client calls an operation and nothing is evicted, with all items that
workers drain meanwhile. Batches may come in from elsewhere, and may meet any fate. -/
inductive Coasts : Cluster → List Item → Cluster → Prop where
  | refl (c : Cluster) : Coasts c [] c
  | worker {c c' : Cluster} {drained : List Item} (i : Nat) (peer : Peer) :
    Coasts c drained c' →
    Coasts c (drained ++ c'.taken i peer) (c'.perform (.worker i peer))
  | chore {c c' : Cluster} {drained : List Item} (i place : Nat) :
    (∀ n chore, c'.node? i = some n → n.chores[place]? = some chore → n.Spares chore) →
    Coasts c drained c' → Coasts c drained (c'.perform (.chore i place))
  | call {c c' : Cluster} {drained : List Item} (i : Nat) (command : Command) :
    command.origin = .peer → Coasts c drained c' →
    Coasts c drained (c'.call i command)
  | receive {c c' : Cluster} {drained : List Item} (i : Nat) (items : List Item) :
    Coasts c drained c' →
    Coasts c drained (c'.update i fun n => (n.receiveAll items).2)
  | wanted {c c' : Cluster} {drained : List Item} (i : Nat) (peers : List Peer) :
    Coasts c drained c' →
    Coasts c drained (c'.update i fun n =>
      { n with dispatcher := n.dispatcher.map fun d => { d with peers } })
  | clock {c c' : Cluster} {drained : List Item} (i : Nat) (clock : Millis) :
    Coasts c drained c' → Coasts c drained (c'.update i fun n => { n with clock })
  | network {c c' : Cluster} {drained : List Item} (now : Nat) (places : List (String × Nat))
    (fates : KeyMap String (List Fate)) (flights : KeyMap (Nat × Peer) Flight) :
    Coasts c drained c' → Coasts c drained { c' with now, places, fates, flights }

theorem Coasts.tidy {c c' : Cluster} {drained : List Item} (h : Coasts c drained c')
    (hc : c.Tidy) : c'.Tidy := by
  induction h with
  | refl => exact hc
  | worker i peer _ ih => exact ih.perform _
  | chore i place _ _ ih => exact ih.perform _
  | call i command _ _ ih => exact ih.update i fun n hn => hn.commit _
  | receive i items _ ih => exact ih.update i fun n hn => hn.commit _
  | wanted i peers _ ih =>
    refine ih.update i fun n hn d hd => ?_
    obtain ⟨d', hd', rfl⟩ := Option.map_eq_some_iff.mp hd
    exact hn d' hd'
  | clock i clock _ ih => exact ih.update i fun n hn => hn
  | network now places fates flights _ ih => exact ih.of_nodes rfl

theorem Coasts.load {c c' : Cluster} {drained : List Item} (h : Coasts c drained c')
    (hc : c.Tidy) : drained.length + (c'.weight + c'.awaited) ≤ c.weight + c.awaited := by
  induction h with
  | refl => exact Nat.le_of_eq (Nat.zero_add _)
  | worker i peer h ih =>
    have hmove := (h.tidy hc).load_move i peer
    rw [List.length_append]
    simp only [Cluster.perform]
    omega
  | chore i place hspares _ ih =>
    refine (Nat.add_le_add_left ?_ _).trans ih
    exact load_update i fun n f hf hn =>
      Node.total_doChore hf (fun chore => hspares n chore hn) _
  | call i command hpeer _ ih =>
    refine (Nat.add_le_add_left ?_ _).trans ih
    exact load_update i fun n f _ _ =>
      (Node.total_congr (n.dispatcher_commit (Registry.shipped_perform_peer hpeer))).le
  | receive i items _ ih =>
    refine (Nat.add_le_add_left ?_ _).trans ih
    exact load_update i fun n f _ _ =>
      (Node.total_congr (n.dispatcher_commit (Registry.shipped_receiveAll items))).le
  | wanted i peers _ ih =>
    refine (Nat.add_le_add_left ?_ _).trans ih
    exact load_update i fun n f _ _ => (n.total_setPeers peers).le
  | clock i clock _ ih =>
    refine (Nat.add_le_add_left ?_ _).trans ih
    exact load_update i fun n f _ _ => Nat.le_refl _
  | network now places fates flights _ ih => exact ih

/-- Replication comes to an end by itself. What the queues weigh, with the heartbeats of the batches
that are out, limits all that is sent. A batch that leaves its queue takes its length and its
heartbeats off the weight, and its answer gives back no more than the heartbeats. What a node
applies or adopts it tells to nobody. -/
theorem Coasts.traffic {c c' : Cluster} {drained : List Item} (h : Coasts c drained c')
    (hc : c.Tidy) :
    drained.length + c'.weight + c'.awaited ≤ c.weight + c.awaited ∧
      (∀ i peer d w due, c'.worker? i peer = some (d, w) → w.phase = .gathering due →
        (c'.perform (.worker i peer)).weight + (c'.taken i peer).length +
          heartbeats (c'.taken i peer) = c'.weight) ∧
      (∀ i peer d w items attempt, c'.worker? i peer = some (d, w) →
        w.phase = .sending items attempt →
        (c'.perform (.worker i peer)).weight ≤ c'.weight + heartbeats items) ∧
      ∀ (n : Node),
        (∀ items, (n.receiveAll items).2.dispatcher = n.dispatcher ∧
          (n.receiveAll items).2.outbox = n.outbox) ∧
        ∀ peer record lease, (n.react peer (.adopt record lease)).dispatcher = n.dispatcher ∧
          (n.react peer (.adopt record lease)).outbox = n.outbox := by
  refine ⟨?load, ?drain, ?answer, fun n => ⟨fun items => ?receive, fun peer record lease => ?adopt⟩⟩
  case load =>
    rw [Nat.add_assoc]
    exact h.load hc
  case drain =>
    intro i peer d w due hw hphase
    have htaken := (h.tidy hc).weight_takeBatch hw hphase
    rw [weight_eq] at htaken
    rw [Nat.add_assoc]
    exact htaken
  case answer =>
    intro i peer d w items attempt hw hphase
    exact (h.tidy hc).weight_answer hw hphase
  case receive =>
    have hsilent : shipped (n.registry.receiveAll n.clock items).effects = [] :=
      Registry.shipped_receiveAll items
    obtain ⟨events, hcommit⟩ := n.commit_silent hsilent
    rw [Node.receiveAll, hcommit]
    exact ⟨rfl, rfl⟩
  case adopt =>
    obtain ⟨events, hreact⟩ := n.react_eq peer (.adopt record lease)
    rw [hreact]
    exact ⟨rfl, rfl⟩

/-- A heartbeat of an instance that the peer does not know is two items, and no more. -/
theorem unaware_traffic :
    let peer : Peer := ⟨"peer", 1⟩
    let c := (unaware peer).call 0 (.renew .client "WEB" "web-1" none)
    ∃ drained c', Coasts c drained c' ∧ c.Tidy ∧ c.weight + c.awaited = 2 ∧
      drained.length = 2 ∧ c'.weight = 0 := by
  intro peer c
  let move (c : Cluster) : Cluster := c.perform (.worker 0 peer)
  have hrun : ∃ drained, Coasts c drained (move (move (move (move (move (move c)))))) ∧
      drained.length = 2 := by
    refine ⟨_, .worker 0 peer (.worker 0 peer (.worker 0 peer (.worker 0 peer
      (.worker 0 peer (.worker 0 peer (.refl c)))))), ?_⟩
    decide +kernel
  obtain ⟨drained, hrun, hdrained⟩ := hrun
  have hc : c.Reachable := .call 0 _ (unaware_reachable peer)
  have hload : c.weight + c.awaited = 2 := by decide +kernel
  obtain ⟨hle, -⟩ := hrun.traffic hc.tidy
  exact ⟨drained, _, hrun, hc.tidy, hload, hdrained, by omega⟩

end Cluster

end ServiceRegistry
