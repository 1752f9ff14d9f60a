import ServiceRegistry.Proofs.Cluster.Workers
import ServiceRegistry.Proofs.Registry.Lockstep
import ServiceRegistry.Proofs.Replication.Pending

/-! # Registrations that are sent again

A peer may answer a heartbeat that it knows no such instance. The registration that the worker
then sends again is pushed like a new one, behind what came to wait while the answer was out.
`waiting_of_answer` says what becomes of the items that wait for an instance, and when all of them
stay.
-/

namespace ServiceRegistry

set_option autoImplicit false

open Replication

namespace Registry

variable {r : Registry} {now : Millis}

theorem shipped_register_peer {record : Instance} {duration : Option UInt64} {s : Response Unit}
    (h : r.register now .peer record duration = .ok s) : shipped s.effects = [] := by
  rw [register_eq] at h
  cases ha : Slot.accept now record duration with
  | error e =>
    rw [ha] at h
    cases h
  | ok x =>
    rw [ha] at h
    cases h
    rfl

theorem shipped_renew_peer (app id : String) (dirtyAt : Option Millis) :
    shipped (r.renew now .peer app id dirtyAt).effects = [] := by
  simp only [renew]
  split
  · rfl
  · split
    · rfl
    · split <;> rfl

theorem shipped_withdraw_peer (key : Key) (evicted : Bool) (test : Lease Instance → Bool) :
    shipped (r.withdraw now .peer key evicted test).effects = [] := by
  unfold withdraw
  split
  · rfl
  · cases evicted <;> rfl

theorem shipped_changeStatus_peer (operation : Operation) (key : Key) (dirtyAt : Option Millis)
    (change : KeyMap Key Status → Instance → Option (KeyMap Key Status × Instance)) :
    shipped (r.changeStatus now .peer operation key dirtyAt change).effects = [] := by
  unfold changeStatus
  split
  · rfl
  · split
    · rfl
    · split <;> rfl

theorem shipped_perform_peer {command : Command} (h : command.origin = .peer) :
    shipped (r.perform now command).effects = [] := by
  cases command with
  | register origin record duration =>
    cases h
    simp only [Registry.perform]
    cases hs : r.register now .peer record duration with
    | ok s => exact shipped_register_peer hs
    | error e => rfl
  | renew origin app id dirtyAt =>
    cases h
    exact shipped_renew_peer ..
  | cancel origin app id =>
    cases h
    exact shipped_withdraw_peer ..
  | evict seen app id grace => cases h
  | updateStatus origin app id s dirtyAt =>
    cases h
    exact shipped_changeStatus_peer ..
  | deleteOverride origin app id s dirtyAt =>
    cases h
    exact shipped_changeStatus_peer ..

theorem shipped_receive (i : Item) : shipped (r.receive now i).effects = [] := by
  unfold receive
  split
  · split
    · rfl
    · split
      · rename_i s h
        exact shipped_register_peer h
      · rfl
  · exact shipped_renew_peer ..
  · exact shipped_withdraw_peer ..
  · split
    · rfl
    · exact shipped_changeStatus_peer ..
  · exact shipped_changeStatus_peer ..

theorem shipped_receiveAll (items : List Item) : shipped (r.receiveAll now items).effects = [] := by
  induction items generalizing r with
  | nil => rfl
  | cons i rest ih =>
    rw [receiveAll, shipped, List.filterMap_append]
    exact List.append_eq_nil_iff.mpr ⟨shipped_receive i, ih⟩

end Registry

namespace Replication

def Reaction.resent? : Reaction → Option Item
  | .resend i => some i
  | .adopt .. => none

def Conclusion.reactions (items : List Item) : Conclusion → List Reaction
  | .accepted outcomes => Replication.reactions items outcomes
  | .again _ | .lost _ => []

/-- The registrations that a worker sends again when its batch is answered. -/
def resent (items : List Item) (outcomes : List Outcome) : List Item :=
  (reactions items outcomes).filterMap Reaction.resent?

def lastResent (k : Key) (items : List Item) (outcomes : List Outcome) : Option Item :=
  ((resent items outcomes).filter (·.key = k)).getLast?

theorem mem_resent_iff {items : List Item} {outcomes : List Outcome} {j : Item} :
    j ∈ resent items outcomes ↔ ∃ i, (i, Outcome.notFound) ∈ items.zip outcomes ∧
      i.operation = .heartbeat ∧ i.record.isSome ∧ j = { i with operation := .register } := by
  simp only [resent, reactions, List.mem_filterMap]
  constructor
  · rintro ⟨r, ⟨⟨i, o⟩, hmem, hr⟩, hj⟩
    cases o with
    | notFound =>
      simp only [reaction?] at hr
      split at hr
      · rename_i hheartbeat
        cases hr
        cases hj
        exact ⟨i, hmem, hheartbeat.1, hheartbeat.2, rfl⟩
      · cases hr
    | conflict record =>
      obtain ⟨x, -, rfl⟩ := Option.map_eq_some_iff.mp hr
      cases hj
    | success | rejected => cases hr
  · rintro ⟨i, hmem, hop, hrecord, rfl⟩
    exact ⟨_, ⟨(i, .notFound), hmem, if_pos ⟨hop, hrecord⟩⟩, rfl⟩

end Replication

def Registry.reacted (r : Registry) (now : Millis) (reactions : List Reaction) : Registry :=
  reactions.foldl (fun r reaction => match reaction with
    | .resend _ => r
    | .adopt record lease =>
      match r.adopt now record lease with
      | .ok s => s.registry
      | .error _ => r) r

namespace Node

variable {n : Node} {peer : Peer} {w : Worker}

def worker? (n : Node) (peer : Peer) : Option Worker := n.dispatcher.bind (·.workers.get? peer)

/-- What ships nothing reaches the registry and the observers only. -/
theorem commit_silent {α : Type} (n : Node) {s : Response α} (h : shipped s.effects = []) :
    ∃ events, (n.commit s).2 = { n with registry := s.registry, events } := by
  have hfold (effects : List Effect) (hnone : shipped effects = []) (n : Node) :
      ∃ events, effects.foldl perform n = { n with events } := by
    induction effects generalizing n with
    | nil => exact ⟨n.events, rfl⟩
    | cons e rest ih =>
      cases e with
      | emit e => exact ih hnone (n.emit e)
      | ship i => cases hnone
  exact hfold s.effects h { n with registry := s.registry }

theorem dispatcher_commit {α : Type} (n : Node) {s : Response α} (h : shipped s.effects = []) :
    (n.commit s).2.dispatcher = n.dispatcher := by
  obtain ⟨events, hcommit⟩ := n.commit_silent h
  rw [hcommit]

theorem react_eq (n : Node) (peer : Peer) (r : Reaction) :
    ∃ events, n.react peer r = { n with
      registry := n.registry.reacted n.clock [r]
      dispatcher := match r.resent? with
        | some i => n.dispatcher.map fun d => (d.enqueue peer i).1
        | none => n.dispatcher
      events } := by
  cases r with
  | resend i =>
    simp only [react, Reaction.resent?]
    cases hd : n.dispatcher with
    | none =>
      cases n
      cases hd
      exact ⟨_, rfl⟩
    | some d => exact emitAll_eq { n with dispatcher := some (d.enqueue peer i).1 } _
  | adopt record lease =>
    simp only [react, Reaction.resent?, Registry.reacted, List.foldl_cons, List.foldl_nil]
    cases hadopt : n.registry.adopt n.clock record lease with
    | error e => exact ⟨n.events, rfl⟩
    | ok s => exact n.commit_silent (Registry.shipped_register_peer hadopt)

theorem worker?_react (hw : n.worker? peer = some w) (r : Reaction) :
    ∃ w', (n.react peer r).worker? peer = some w' ∧
      w'.queue = w.queue.pushAll r.resent?.toList := by
  obtain ⟨d, hd, hget⟩ := Option.bind_eq_some_iff.mp hw
  obtain ⟨events, hreact⟩ := n.react_eq peer r
  rw [hreact]
  cases r.resent? with
  | none => exact ⟨w, hw, rfl⟩
  | some i =>
    refine ⟨(w.push peer i).1, ?_, rfl⟩
    simp only [worker?, hd, Option.map_some, Option.bind_some, Dispatcher.enqueue, hget,
      KeyMap.get?_insert, if_pos]

theorem worker?_emitAll (n : Node) (peer : Peer) (es : List Event) :
    (n.emitAll es).worker? peer = n.worker? peer := by
  rw [worker?, worker?, dispatcher_emitAll]

theorem worker?_foldl_react (hw : n.worker? peer = some w) (rs : List Reaction) :
    ∃ w', (rs.foldl (·.react peer) n).worker? peer = some w' ∧
      w'.queue = w.queue.pushAll (rs.filterMap Reaction.resent?) := by
  induction rs generalizing n w with
  | nil => exact ⟨w, hw, rfl⟩
  | cons r rest ih =>
    obtain ⟨w', hw', hqueue⟩ := worker?_react hw r
    obtain ⟨w'', hw'', hqueue'⟩ := ih hw'
    refine ⟨w'', hw'', ?_⟩
    rw [hqueue', hqueue]
    cases h : r.resent? <;> simp [Queue.pushAll, h]

end Node

namespace Replication.Pending

theorem enqueueAll_registers {js : List Item} (hjs : ∀ j ∈ js, j.operation = .register)
    (items : List Item) :
    enqueueAll js items =
      match js.getLast? with
      | some j => items.dropLast ++ [j]
      | none => items := by
  induction js generalizing items with
  | nil => rfl
  | cons j rest ih =>
    obtain ⟨hj, hrest⟩ := List.forall_mem_cons.mp hjs
    rw [enqueueAll, List.foldl_cons, enqueue_replaces (.inl hj), ← enqueueAll, ih hrest,
      List.getLast?_cons]
    cases rest.getLast? with
    | none => rfl
    | some j' => simp

theorem prefix_replaced_iff (items : List Item) (j : Item) :
    items <+: items.dropLast ++ [j] ↔ items = [] ∨ some j = items.getLast? := by
  rcases List.eq_nil_or_concat items with rfl | ⟨before, i, rfl⟩
  · simp
  · rw [List.concat_eq_append, List.dropLast_concat, List.prefix_append_right_inj,
      List.getLast?_concat]
    constructor
    · intro h
      exact .inr (congrArg List.head? (h.eq_of_length rfl)).symm
    · rintro (hnil | hsame)
      · simp at hnil
      · cases Option.some.inj hsame
        exact List.prefix_refl _

end Replication.Pending

namespace Cluster

variable {c : Cluster} {i : Nat} {peer : Peer} {d : Dispatcher} {w : Worker}

theorem worker?_of_node {n : Node} (hn : c.node? i = some n) (hw : n.worker? peer = some w) :
    ∃ d, c.worker? i peer = some (d, w) := by
  obtain ⟨d, hd, hget⟩ := Option.bind_eq_some_iff.mp hw
  refine ⟨d, ?_⟩
  rw [worker?, hn, Option.bind_some, hd, Option.bind_some, hget]
  rfl

theorem node?_setNode_self {n : Node} (hn : c.node? i = some n) (n' : Node) :
    (c.setNode i n').node? i = some n' := by
  rw [node?_setNode, if_pos rfl, hn]
  rfl

theorem node?_setWorker (h : c.worker? i peer = some (d, w)) (w' : Worker) :
    ∃ n, (c.setWorker i peer w').node? i = some n ∧ n.worker? peer = some w' := by
  obtain ⟨n, hn, hd, -⟩ := worker?_eq_some h
  rw [setWorker, hn]
  refine ⟨_, node?_setNode_self hn _, ?_⟩
  simp [Node.worker?, hd]

theorem worker?_meet (c : Cluster) (i : Nat) (peer target : Peer) (items : List Item)
    (fate : Fate) : (c.meet target items fate).2.worker? i peer = c.worker? i peer := by
  rcases c.meet_cases target items fate with h | ⟨j, n, hn, h⟩
  · rw [h]
  · have hsame : (n.receiveAll items).2.dispatcher = n.dispatcher :=
      n.dispatcher_commit (Registry.shipped_receiveAll items)
    rw [h]
    simp only [worker?, node?_setNode]
    split
    · rename_i hj
      subst hj
      rw [hn]
      simp only [Option.map_some, Option.bind_some, hsame]
    · rfl

theorem conclude_eq (h : c.worker? i peer = some (d, w)) (items : List Item) {attempt : Nat}
    {answer : Answer} {conclusion : Conclusion}
    (hconclusion : Replication.conclude d.settings attempt answer = conclusion) :
    ∃ n, (c.setWorker i peer (w.settle c.now items attempt conclusion)).node? i = some n ∧
      n.worker? peer = some (w.settle c.now items attempt conclusion) ∧
      c.conclude i peer items attempt answer =
        (c.setWorker i peer (w.settle c.now items attempt conclusion)).setNode i
          ((conclusion.reactions items).foldl (·.react peer)
            (n.emitAll (Worker.report peer items conclusion))) := by
  obtain ⟨n, hn, hw⟩ := node?_setWorker h (w.settle c.now items attempt conclusion)
  refine ⟨n, hn, hw, ?_⟩
  simp only [Cluster.conclude, h, hconclusion]
  rw [hn]
  cases conclusion with
  | accepted outcomes => rfl
  | again delay => rfl
  | lost failure => rfl

theorem worker?_conclude (h : c.worker? i peer = some (d, w)) (items : List Item) (attempt : Nat)
    (outcomes : List Outcome) :
    ∃ d' w', (c.conclude i peer items attempt (.ok outcomes)).worker? i peer = some (d', w') ∧
      w'.queue = w.queue.pushAll (resent items outcomes) := by
  obtain ⟨n, hn, hw, hconclude⟩ := conclude_eq h items
    (show Replication.conclude d.settings attempt (.ok outcomes) = .accepted outcomes from rfl)
  have htold := (n.worker?_emitAll peer (Worker.report peer items (.accepted outcomes))).trans hw
  obtain ⟨w', hw', hqueue⟩ := Node.worker?_foldl_react htold (reactions items outcomes)
  obtain ⟨d', hd'⟩ := worker?_of_node (node?_setNode_self hn _) hw'
  rw [hconclude]
  exact ⟨d', w', hd', hqueue⟩

/-- What waits for an instance once a batch is answered: the last item has made way for the last
registration that is sent again, if any is. So all that waited stays exactly if none is sent
again, nothing waited, or the last item was that registration. -/
theorem Reachable.waiting_of_answer (hc : c.Reachable) {items : List Item} {attempt : Nat}
    {flight : Flight} {outcomes : List Outcome} (hworker : c.worker? i peer = some (d, w))
    (hsending : w.phase = .sending items attempt)
    (hflight : c.flights.get? (i, peer) = some flight)
    (hanswer : (c.meet peer items flight.fate).1 = .ok outcomes) :
    ∃ d' w', (c.perform (.worker i peer)).worker? i peer = some (d', w') ∧
      (w'.queue.dropped = w.queue.dropped → ∀ k,
        (w'.queue.waiting k = match lastResent k items outcomes with
          | some j => (w.queue.waiting k).dropLast ++ [j]
          | none => w.queue.waiting k) ∧
        (w.queue.waiting k <+: w'.queue.waiting k ↔
          lastResent k items outcomes = none ∨ w.queue.waiting k = [] ∨
            lastResent k items outcomes = (w.queue.waiting k).getLast?)) := by
  obtain ⟨c', hnodes, hland⟩ := land_eq hflight items attempt
  have hworker' : c'.worker? i peer = some (d, w) := by
    rw [← hworker, ← worker?_meet c i peer peer items flight.fate, worker?, worker?, node?, node?,
      hnodes]
  obtain ⟨d', w', hw', hqueue⟩ := worker?_conclude hworker' items attempt outcomes
  refine ⟨d', w', ?_, ?_⟩
  · rw [Cluster.perform, Cluster.move, hworker]
    simp only [hsending]
    rw [hland, hanswer]
    exact hw'
  · intro hroom k
    have hregisters : ∀ j ∈ (resent items outcomes).filter (·.key = k),
        j.operation = .register := by
      intro j hj
      obtain ⟨i, -, -, -, rfl⟩ := mem_resent_iff.mp (List.mem_filter.mp hj).1
      rfl
    have hwaiting := (hc.tidy.worker hworker).tidy.waiting_pushAll (hqueue ▸ hroom) k
    rw [← hqueue, Pending.enqueueAll_registers hregisters] at hwaiting
    refine ⟨hwaiting, ?_⟩
    rw [hwaiting, lastResent]
    cases ((resent items outcomes).filter (·.key = k)).getLast? with
    | none => simp
    | some j => simpa using Pending.prefix_replaced_iff (w.queue.waiting k) j

/-- A node has a heartbeat on its way to a peer that does not know the instance, and cancels the
instance before the answer comes. -/
def heartbeatUnderway (peer : Peer) : Cluster :=
  let node := { Node.start {} 1 with
    dispatcher := some { settings := {}, peers := [peer] }, chores := [.discovery 0] }
  let c : Cluster := { nodes := [node], fates := .insert .empty peer.display [.answer [.notFound]] }
  let c := (c.call 0 (.register .peer (.named "WEB" "web-1" "host" 80) none)).perform (.chore 0 0)
  let c := (c.call 0 (.renew .client "WEB" "web-1" none)).perform (.worker 0 peer)
  (c.perform (.worker 0 peer)).call 0 (.cancel .client "WEB" "web-1")

/-- The registration that is sent again takes the place of the cancellation, which is lost. -/
theorem heartbeatUnderway_overtakes :
    let peer : Peer := ⟨"peer", 1⟩
    let c := heartbeatUnderway peer
    let k : Key := ("WEB", "web-1")
    c.Reachable ∧ ∃ d w d' w', c.worker? 0 peer = some (d, w) ∧
      (w.queue.waiting k).map (·.operation) = [.cancel] ∧
      (c.perform (.worker 0 peer)).worker? 0 peer = some (d', w') ∧
      (w'.queue.waiting k).map (·.operation) = [.register] ∧
      ¬ w.queue.waiting k <+: w'.queue.waiting k := by
  intro peer c k
  let x := { Instance.named "WEB" "web-1" "host" 80 with
    dirtyAt := 1, updatedAt := 1, lastChange := some .added }
  let heartbeat := { Item.of .heartbeat x 1 with lease := some 90 }
  have hc : c.Reachable := by
    refine .call 0 _ (.perform _ (.perform _ (.call 0 _ (.perform _ (.call 0 _ (.start ?_))))))
    rintro (_ | i) n d hn hd
    · cases hn
      cases hd
      rfl
    · cases hn
  let cancel := { Item.of .cancel { x with lastChange := some .deleted } 1 with lease := some 90 }
  have hbefore : (c.worker? 0 peer).map
      (fun p => (p.2.phase, p.2.queue.waiting k, p.2.queue.dropped)) =
        some (.sending [heartbeat] 0, [cancel], 0) := by decide +kernel
  have hafter : ((c.perform (.worker 0 peer)).worker? 0 peer).map (·.2.queue.dropped) = some 0 := by
    decide +kernel
  obtain ⟨⟨d, w⟩, hworker, heq⟩ := Option.map_eq_some_iff.mp hbefore
  simp only [Prod.mk.injEq] at heq
  obtain ⟨hphase, hwaiting, hdropped⟩ := heq
  obtain ⟨d', w', hworker', h⟩ := hc.waiting_of_answer hworker hphase
    (show c.flights.get? (0, peer) = some ⟨0, 0, .answer [.notFound]⟩ by decide +kernel) rfl
  rw [hworker'] at hafter
  obtain ⟨hwaiting', hstay⟩ := h ((Option.some.inj hafter).trans hdropped.symm) k
  have hlast : lastResent k [heartbeat] [.notFound] =
      some { heartbeat with operation := .register } := by decide +kernel
  rw [hlast, hwaiting] at hwaiting' hstay
  refine ⟨hc, d, w, d', w', hworker, by rw [hwaiting]; rfl, hworker', by rw [hwaiting']; rfl, ?_⟩
  rw [hwaiting, hstay]
  decide +kernel

end Cluster

end ServiceRegistry
