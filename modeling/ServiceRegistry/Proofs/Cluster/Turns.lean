import ServiceRegistry.Proofs.Node.Turns

/-! # Turns of the nodes in a cluster

As time passes in a cluster its workers move and its chores are done. Seen from one node all this
is a row of turns, each an act of the node or one of its chores (`Cluster.later_run`). So a node of
a cluster goes on telling of its changes as it would alone (`Cluster.follows_run`).
-/

namespace ServiceRegistry

set_option autoImplicit false

open Replication

namespace Node

variable {n : Node} {d : Dispatcher} {w : Worker} {peer : Peer}

theorem run_reactions (n : Node) (peer : Peer) (rs : List Reaction) :
    n.run (rs.map (.react peer)) = rs.foldl (·.react peer) n := List.foldl_map

def putWorker (n : Node) (peer : Peer) (w : Worker) : Node :=
  { n with
    dispatcher := n.dispatcher.map fun d => { d with workers := d.workers.insert peer w } }

theorem act_work (hd : n.dispatcher = some d) (hw : d.workers.get? peer = some w) (now : Nat)
    (answer : Answer) :
    n.act (.work peer now answer) =
      (n.putWorker peer (w.next d peer now answer).1).emitAll (w.next d peer now answer).2 := by
  simp only [act, hand, hd, Dispatcher.work, hw, putWorker, Option.map_some]

end Node

namespace Cluster

variable {c c' c'' : Cluster} {i : Nat} {peer : Peer} {d : Dispatcher} {w : Worker}

/-- The nodes of the first cluster are those of the second one, some turns later. -/
def Later (c c' : Cluster) : Prop :=
  ∀ i n, c.node? i = some n → ∃ turns, c'.node? i = some (n.spend turns)

theorem Later.refl (c : Cluster) : c.Later c := fun _ _ hn => ⟨[], hn⟩

theorem Later.trans (h : c.Later c') (h' : c'.Later c'') : c.Later c'' := by
  intro i n hn
  obtain ⟨before, hbefore⟩ := h i n hn
  obtain ⟨after, hafter⟩ := h' i _ hbefore
  exact ⟨before ++ after, by rw [Node.spend_append, hafter]⟩

theorem Later.of_nodes (h : c'.nodes = c.nodes) : c.Later c' := by
  intro i n hn
  exact ⟨[], by rw [node?, h]; exact hn⟩

theorem later_setNode {n : Node} (hn : c.node? i = some n) (turns : List Node.Turn) :
    c.Later (c.setNode i (n.spend turns)) := by
  intro j m hm
  rw [node?_setNode]
  split
  · rename_i hij
    subst hij
    cases hn.symm.trans hm
    exact ⟨turns, by rw [hm]; rfl⟩
  · exact ⟨[], hm⟩

theorem later_acts {n : Node} (hn : c.node? i = some n) (acts : List Act) :
    c.Later (c.setNode i (n.run acts)) := n.spend_acts acts ▸ later_setNode hn (acts.map .act)

theorem setNode_setNode (c : Cluster) (i : Nat) (n n' : Node) :
    (c.setNode i n).setNode i n' = c.setNode i n' := by
  simp only [setNode, List.set_set]

theorem setWorker_eq (h : c.worker? i peer = some (d, w)) (w' : Worker) :
    ∃ n, c.node? i = some n ∧ n.dispatcher = some d ∧ d.workers.get? peer = some w ∧
      c.setWorker i peer w' = c.setNode i (n.putWorker peer w') := by
  obtain ⟨n, hn, hd, hw⟩ := worker?_eq_some h
  refine ⟨n, hn, hd, hw, ?_⟩
  rw [setWorker, hn]
  rfl

theorem later_setWorker (h : c.worker? i peer = some (d, w)) {answer : Answer} {w' : Worker}
    (hnext : w.next d peer c.now answer = (w', [])) : c.Later (c.setWorker i peer w') := by
  obtain ⟨n, hn, hd, hw, hset⟩ := setWorker_eq h w'
  have hact : n.act (.work peer c.now answer) = n.putWorker peer w' := by
    rw [Node.act_work hd hw, hnext]
    rfl
  rw [hset, ← hact]
  exact later_acts hn [.work peer c.now answer]

theorem later_meet (c : Cluster) (target : Peer) (items : List Item) (fate : Fate) :
    c.Later (c.meet target items fate).2 := by
  rcases c.meet_cases target items fate with h | ⟨j, n, hn, h⟩
  · rw [h]
    exact .refl c
  · rw [h]
    exact later_acts hn [.receive items]

theorem later_conclude {items : List Item} {attempt : Nat}
    (h : c.worker? i peer = some (d, w)) (hphase : w.phase = .sending items attempt)
    (answer : Answer) : c.Later (c.conclude i peer items attempt answer) := by
  generalize hconclusion : Replication.conclude d.settings attempt answer = conclusion
  obtain ⟨n, hn, hd, hw, hset⟩ := setWorker_eq h (w.settle c.now items attempt conclusion)
  have hwork : n.act (.work peer c.now answer) =
      (n.putWorker peer (w.settle c.now items attempt conclusion)).emitAll
        (Worker.report peer items conclusion) := by
    rw [Node.act_work hd hw]
    simp only [Worker.next, hphase, hconclusion]
  obtain ⟨m, hm, -, hconclude⟩ := conclude_eq h items hconclusion
  rw [hset, node?_setNode_self hn] at hm
  cases hm
  rw [hconclude, hset, setNode_setNode, ← hwork, ← Node.run_reactions]
  exact later_acts hn (.work peer c.now answer :: (conclusion.reactions items).map (.react peer))

theorem later_land {items : List Item} {attempt : Nat} (h : c.worker? i peer = some (d, w))
    (hphase : w.phase = .sending items attempt) : c.Later (c.land i peer items attempt) := by
  cases hflight : c.flights.get? (i, peer) with
  | none =>
    rw [land, hflight]
    exact .refl c
  | some flight =>
    obtain ⟨c', hnodes, hland⟩ := land_eq hflight items attempt
    have hworker : c'.worker? i peer = some (d, w) := by
      rw [← h, ← c.worker?_meet i peer peer items flight.fate]
      simp only [worker?, node?, hnodes]
    have hmeet : c.Later c' := (c.later_meet peer items flight.fate).trans (.of_nodes hnodes)
    rw [hland]
    exact hmeet.trans (later_conclude hworker hphase _)

theorem later_move (c : Cluster) (i : Nat) (peer : Peer) : c.Later (c.move i peer) := by
  unfold move
  split
  · exact .refl c
  rename_i d w h
  have hsilent {w' : Worker} (hnext : w.next d peer c.now (.ok []) = (w', [])) :
      c.Later (c.setWorker i peer w') := later_setWorker h hnext
  split
  · rename_i hphase
    exact hsilent (by simp only [Worker.next, hphase])
  · rename_i hphase
    have htaken : c.Later (c.setWorker i peer (w.takeBatch d.settings (d.peers.contains peer))) :=
      hsilent (by simp only [Worker.next, hphase])
    dsimp only
    split
    · exact htaken.trans (.of_nodes rfl)
    · exact htaken
  · rename_i items attempt _ hphase
    have hagain : c.Later (c.setWorker i peer { w with phase := .sending items attempt }) :=
      hsilent (by simp only [Worker.next, hphase])
    exact hagain.trans (.of_nodes rfl)
  · rename_i hphase
    exact later_land h hphase

theorem later_perform (c : Cluster) (a : Action) : c.Later (c.perform a) := by
  cases a with
  | worker i peer => exact c.later_move i peer
  | chore i place =>
    simp only [perform]
    split
    · exact .refl c
    · rename_i n hn
      exact later_setNode hn [.chore c.now place]

theorem later_advance (budget goal : Nat) (c : Cluster) : c.Later (advance budget goal c) := by
  induction budget generalizing c with
  | zero => exact .of_nodes rfl
  | succ budget ih =>
    unfold advance
    split
    · exact .of_nodes rfl
    · rename_i due action _
      split
      · have hwait : c.Later { c with now := max c.now due } := .of_nodes rfl
        exact (hwait.trans (later_perform _ action)).trans (ih _)
      · exact .of_nodes rfl

/-- As time passes in a cluster, a node takes turns: it acts, or one of its chores is done. -/
theorem later_run (c : Cluster) (span : Nat) : c.Later (c.run span) :=
  later_advance budget (c.now + span) c

/-- Among others, too, a node has told of its changes one by one, and of no others. -/
theorem follows_run {n : Node} {history : List Change} {sent : List Event}
    (hn : c.node? i = some n) (h : n.Follows history sent) (span : Nat) :
    ∃ n' more told, (c.run span).node? i = some n' ∧
      n'.Follows (history ++ more) (sent ++ told) := by
  obtain ⟨turns, hturns⟩ := c.later_run span i n hn
  obtain ⟨more, told, hafter⟩ := h.spend turns
  exact ⟨_, more, told, hturns, hafter⟩

end Cluster

end ServiceRegistry
