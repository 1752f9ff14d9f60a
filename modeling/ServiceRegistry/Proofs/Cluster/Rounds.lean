import ServiceRegistry.Proofs.Replication.Repair

/-! # Rounds of a worker

A worker with items to send goes through one round: it gathers them, sends the batch, and reacts to
the answer. So two registries meet in an exchange (`Spans.round`), and two rounds after a heartbeat
repair what they do not agree on (`Reachable.heartbeat_repairs`).
-/

namespace ServiceRegistry

set_option autoImplicit false

open Replication

namespace Replication.Dispatcher

variable {d : Dispatcher} {peer : Peer} {w : Worker}

theorem enqueue_workers (d : Dispatcher) (peer : Peer) (i : Item) :
    ∃ workers, (d.enqueue peer i).1 = { d with workers } ∧ ∀ other,
      workers.get? other =
        if other = peer then (d.workers.get? other).map fun w => (w.push peer i).1
        else d.workers.get? other := by
  unfold enqueue
  cases hw : d.workers.get? peer with
  | none =>
    refine ⟨d.workers, rfl, fun other => ?_⟩
    split
    · rename_i h
      rw [h, hw]
      rfl
    · rfl
  | some w =>
    refine ⟨_, rfl, fun other => ?_⟩
    rw [KeyMap.get?_insert]
    by_cases h : peer = other
    · subst h
      rw [if_pos rfl, if_pos rfl, hw]
      rfl
    · rw [if_neg h, if_neg fun heq => h heq.symm]

theorem enqueueAll_workers {peers : List Peer} (hpeers : peers.Nodup) (d : Dispatcher) (i : Item) :
    ∃ workers, (enqueueAll i peers d).1 = { d with workers } ∧ ∀ other,
      workers.get? other =
        if other ∈ peers then (d.workers.get? other).map fun w => (w.push other i).1
        else d.workers.get? other := by
  induction peers generalizing d with
  | nil => exact ⟨d.workers, rfl, fun other => by simp⟩
  | cons peer rest ih =>
    obtain ⟨hnew, hrest⟩ := List.nodup_cons.mp hpeers
    obtain ⟨workers, hfirst, hget⟩ := d.enqueue_workers peer i
    obtain ⟨workers', hafter, hget'⟩ := ih hrest { d with workers }
    refine ⟨workers', ?_, fun other => ?_⟩
    · simp only [enqueueAll, hfirst]
      exact hafter
    · rw [hget' other]
      simp only [hget other]
      by_cases h : other = peer
      · subst h
        simp [hnew]
      · simp [h]

theorem replicate_workers (d : Dispatcher) (i : Item) :
    ∃ workers, (d.replicate i).1 = { d with workers } ∧ ∀ peer,
      workers.get? peer = (d.workers.get? peer).map fun w => (w.push peer i).1 := by
  obtain ⟨workers, hafter, hget⟩ := enqueueAll_workers d.workers.distinct d i
  refine ⟨workers, hafter, fun peer => ?_⟩
  rw [hget]
  split
  · rfl
  · rename_i hnone
    cases hw : d.workers.get? peer with
    | none => rfl
    | some w =>
      have hmem := (KeyMap.get?_eq_some_iff _ _ _).mp hw
      exact absurd (List.mem_map_of_mem hmem) hnone

end Replication.Dispatcher

namespace Node

variable {n : Node} {peer : Peer} {w : Worker} {r : Registry}

/-- The node ships to a wanted peer through a worker, and nowhere but through its dispatcher. -/
structure Feeds (n : Node) (peer : Peer) (w : Worker) (r : Registry) : Prop where
  registry : n.registry = r
  outbox : n.outbox = none
  worker : ∃ d, n.dispatcher = some d ∧ d.workers.get? peer = some w ∧ peer ∈ d.peers ∧
    0 < d.settings.batchSize

theorem Feeds.emitAll (h : n.Feeds peer w r) (es : List Event) : (n.emitAll es).Feeds peer w r := by
  obtain ⟨events, hemit⟩ := n.emitAll_eq es
  rw [hemit]
  exact ⟨h.registry, h.outbox, h.worker⟩

theorem Feeds.setWorker (h : n.Feeds peer w r) (w' : Worker) :
    ({ n with dispatcher := n.dispatcher.map fun d =>
      { d with workers := d.workers.insert peer w' } } : Node).Feeds peer w' r := by
  obtain ⟨d, hd, -, hwanted, hbatch⟩ := h.worker
  refine ⟨h.registry, h.outbox, { d with workers := d.workers.insert peer w' }, ?_, ?_, hwanted,
    hbatch⟩
  · rw [hd]
    rfl
  · exact (KeyMap.get?_insert ..).trans (if_pos rfl)

theorem Feeds.dispatcher (h : n.Feeds peer w r) {d d' : Dispatcher} (hd : n.dispatcher = some d)
    {workers : KeyMap Peer Worker} (hd' : d' = { d with workers }) {w' : Worker}
    (hget : workers.get? peer = some w') (events : List Event) :
    ({ n with dispatcher := some d' }.emitAll events).Feeds peer w' r := by
  obtain ⟨d₀, hd₀, -, hwanted, hbatch⟩ := h.worker
  cases hd.symm.trans hd₀
  subst hd'
  have hfeeds : ({ n with dispatcher := some { d with workers } } : Node).Feeds peer w' r :=
    ⟨h.registry, h.outbox, _, rfl, hget, hwanted, hbatch⟩
  exact hfeeds.emitAll events

theorem Feeds.ship (h : n.Feeds peer w r) (i : Item) :
    ∃ w', (n.ship i).Feeds peer w' r ∧ w'.queue = (w.queue.push i).2 ∧ w'.phase = w.phase := by
  obtain ⟨d, hd, hw, -, -⟩ := h.worker
  obtain ⟨workers, hafter, hget⟩ := d.replicate_workers i
  have hpushed : workers.get? peer = some (w.push peer i).1 := by
    rw [hget, hw]
    rfl
  have hship : n.ship i =
      { n with dispatcher := some (d.replicate i).1 }.emitAll (d.replicate i).2 := by
    simp only [Node.ship, h.outbox, hd]
  refine ⟨(w.push peer i).1, ?_, rfl, rfl⟩
  rw [hship]
  exact h.dispatcher hd hafter hpushed _

theorem Feeds.react (h : n.Feeds peer w r) (reaction : Reaction) :
    ∃ w', (n.react peer reaction).Feeds peer w' (r.reacted n.clock [reaction]) ∧
      w'.queue = w.queue.pushAll reaction.resent?.toList ∧ w'.phase = w.phase ∧
      (n.react peer reaction).clock = n.clock := by
  obtain ⟨d, hd, hw, hwanted, hbatch⟩ := h.worker
  obtain ⟨events, hreact⟩ := n.react_eq peer reaction
  rw [hreact, h.registry]
  cases reaction.resent? with
  | none => exact ⟨w, ⟨rfl, h.outbox, d, hd, hw, hwanted, hbatch⟩, rfl, rfl, rfl⟩
  | some i =>
    obtain ⟨workers, hafter, hget⟩ := d.enqueue_workers peer i
    have hpushed : workers.get? peer = some (w.push peer i).1 := by
      rw [hget, if_pos rfl, hw]
      rfl
    have hdispatcher : n.dispatcher.map (fun d => (d.enqueue peer i).1) =
        some { d with workers } := by
      rw [hd, Option.map_some, hafter]
    exact ⟨(w.push peer i).1,
      ⟨rfl, h.outbox, { d with workers }, hdispatcher, hpushed, hwanted, hbatch⟩, rfl, rfl, rfl⟩

theorem Feeds.foldl_react (h : n.Feeds peer w r) (reactions : List Reaction) :
    ∃ w', (reactions.foldl (·.react peer) n).Feeds peer w' (r.reacted n.clock reactions) ∧
      w'.queue = w.queue.pushAll (reactions.filterMap Reaction.resent?) ∧ w'.phase = w.phase := by
  induction reactions generalizing n w r with
  | nil => exact ⟨w, h, rfl, rfl⟩
  | cons reaction rest ih =>
    obtain ⟨w₁, hfirst, hqueue, hphase, hclock⟩ := h.react reaction
    obtain ⟨w₂, hrest, hqueue', hphase'⟩ := ih hfirst
    refine ⟨w₂, ?_, ?_, hphase'.trans hphase⟩
    · rw [hclock] at hrest
      exact hrest
    · rw [hqueue', hqueue]
      cases hresent : reaction.resent? <;> simp [Queue.pushAll, hresent]

theorem Feeds.renew {app id : String} {l : Lease Instance} (h : n.Feeds peer w r)
    (hl : r.lease? app id = some l) {dirtyAt : Option Millis}
    (hcaller : ∀ t ∈ dirtyAt, t ≤ l.holder.dirtyAt) :
    ∃ w', ((n.commit (n.registry.perform n.clock (.renew .client app id dirtyAt))).2).Feeds peer w'
        (r.perform n.clock (.renew .client app id dirtyAt)).registry ∧
      w'.queue = (w.queue.push (Registry.beat l n.clock)).2 ∧ w'.phase = w.phase := by
  have hbehind : ¬ dirtyAt.any (fun t => (l.renew n.clock).holder.dirtyAt < t) := by
    cases dirtyAt with
    | none => exact nofun
    | some t =>
      have hle : t ≤ (l.renew n.clock).holder.dirtyAt := hcaller t rfl
      simpa using hle
  have heffects : (r.perform n.clock (.renew .client app id dirtyAt)).effects =
      [.emit (.renewed (Registry.keyOf app id).1 (Registry.keyOf app id).2 false),
        .ship (Registry.beat l n.clock)] := by
    rw [Registry.lease?] at hl
    simp only [Registry.perform, Registry.Response.map, Registry.renew, hl, if_neg hbehind]
    rw [if_neg (by simp)]
    rfl
  have hfeeds :
      ({ n with registry := (r.perform n.clock (.renew .client app id dirtyAt)).registry }.emit
        (.renewed (Registry.keyOf app id).1 (Registry.keyOf app id).2 false)).Feeds peer w
          (r.perform n.clock (.renew .client app id dirtyAt)).registry :=
    ⟨rfl, h.outbox, h.worker⟩
  rw [h.registry]
  simp only [Node.commit, heffects, List.foldl_cons, List.foldl_nil]
  exact hfeeds.ship _

end Node

namespace Cluster

variable {c c' : Cluster} {i j : Nat} {peer : Peer} {w : Worker} {r s : Registry}

/-- Timers go on and clocks are read, and nothing else happens. -/
inductive Passes : Cluster → Cluster → Prop where
  | refl (c : Cluster) : Passes c c
  | wait {c c' : Cluster} (now : Nat) : Passes c c' → Passes c { c' with now }
  | clock {c c' : Cluster} (i : Nat) (clock : Millis) : Passes c c' →
    Passes c (c'.update i fun n => { n with clock })

/-- A round of a worker. If items wait it gathers them, sends the batch, and hears of the answer. -/
inductive Round (i : Nat) (peer : Peer) : Cluster → Cluster → Prop where
  | rest {c : Cluster} {d : Dispatcher} {w : Worker} : c.worker? i peer = some (d, w) →
    w.queue.isEmpty = true → Round i peer c c
  | ship {c c₁ c₂ c₃ : Cluster} {d : Dispatcher} {w : Worker} : c.worker? i peer = some (d, w) →
    w.queue.isEmpty = false → Passes (c.perform (.worker i peer)) c₁ →
    Passes (c₁.perform (.worker i peer)) c₂ → Passes (c₂.perform (.worker i peer)) c₃ →
    Round i peer c c₃

/-- A node has a worker for a peer whose place is another node, and batches between them arrive. -/
structure Spans (c : Cluster) (i j : Nat) (peer : Peer) (w : Worker) (r s : Registry) : Prop where
  sender : ∃ n, c.node? i = some n ∧ n.Feeds peer w r
  receiver : ∃ m, c.node? j = some m ∧ m.registry = s
  apart : i ≠ j
  place : c.places.lookup peer.display = some j
  fates : c.fates.get? peer.display = none

theorem node?_update (c : Cluster) (k i : Nat) (f : Node → Node) :
    (c.update k f).node? i = if k = i then (c.node? i).map f else c.node? i := by
  by_cases h : k = i
  · subst h
    rw [if_pos rfl]
    cases hk : c.node? k with
    | none => simp only [update, hk, Option.map_none]
    | some n =>
      simp only [update, hk]
      exact node?_setNode_self hk _
  · rw [if_neg h]
    cases hk : c.node? k with
    | none => simp only [update, hk]
    | some n => simp only [update, hk, node?_setNode, if_neg h]

theorem Spans.setSender (h : c.Spans i j peer w r s) {w' : Worker} {r' : Registry} {n : Node}
    (hn : n.Feeds peer w' r') : (c.setNode i n).Spans i j peer w' r' s := by
  obtain ⟨m, hm, hregistry⟩ := h.receiver
  obtain ⟨n₀, hn₀, -⟩ := h.sender
  refine ⟨⟨n, node?_setNode_self hn₀ n, hn⟩, ⟨m, ?_, hregistry⟩, h.apart, h.place, h.fates⟩
  rw [node?_setNode, if_neg h.apart]
  exact hm

theorem Spans.setReceiver (h : c.Spans i j peer w r s) (m : Node) :
    (c.setNode j m).Spans i j peer w r m.registry := by
  obtain ⟨n, hn, hfeeds⟩ := h.sender
  obtain ⟨m₀, hm₀, -⟩ := h.receiver
  refine ⟨⟨n, ?_, hfeeds⟩, ⟨m, node?_setNode_self hm₀ m, rfl⟩, h.apart, h.place, h.fates⟩
  rw [node?_setNode, if_neg fun heq => h.apart heq.symm]
  exact hn

theorem Spans.clock (h : c.Spans i j peer w r s) (k : Nat) (clock : Millis) :
    (c.update k fun n => { n with clock }).Spans i j peer w r s := by
  obtain ⟨n, hn, hfeeds⟩ := h.sender
  obtain ⟨m, hm, hregistry⟩ := h.receiver
  have hplaces : (c.update k fun n => { n with clock }).places = c.places ∧
      (c.update k fun n => { n with clock }).fates = c.fates := by
    unfold update
    split <;> exact ⟨rfl, rfl⟩
  refine
    { sender := ?sender, receiver := ?receiver, apart := h.apart
      place := by rw [hplaces.1]; exact h.place
      fates := by rw [hplaces.2]; exact h.fates }
  case sender =>
    rw [node?_update, hn]
    split
    · exact ⟨_, rfl, hfeeds.registry, hfeeds.outbox, hfeeds.worker⟩
    · exact ⟨n, rfl, hfeeds⟩
  case receiver =>
    rw [node?_update, hm]
    split
    · exact ⟨_, rfl, hregistry⟩
    · exact ⟨m, rfl, hregistry⟩

theorem Spans.passes (hpass : Passes c c') (h : c.Spans i j peer w r s) :
    c'.Spans i j peer w r s ∧ c'.flights = c.flights := by
  induction hpass with
  | refl => exact ⟨h, rfl⟩
  | wait now _ ih =>
    obtain ⟨hspans, hflights⟩ := ih
    exact ⟨⟨hspans.sender, hspans.receiver, hspans.apart, hspans.place, hspans.fates⟩, hflights⟩
  | clock k clock _ ih =>
    obtain ⟨hspans, hflights⟩ := ih
    refine ⟨hspans.clock k clock, Eq.trans ?_ hflights⟩
    unfold update
    split <;> rfl

theorem Spans.worker (h : c.Spans i j peer w r s) :
    ∃ d, c.worker? i peer = some (d, w) ∧ peer ∈ d.peers ∧ 0 < d.settings.batchSize := by
  obtain ⟨n, hn, hfeeds⟩ := h.sender
  obtain ⟨d, hd, hw, hwanted, hbatch⟩ := hfeeds.worker
  refine ⟨d, ?_, hwanted, hbatch⟩
  rw [worker?, hn, Option.bind_some, hd, Option.bind_some, hw]
  rfl

theorem Spans.setWorker (h : c.Spans i j peer w r s) (w' : Worker) :
    (c.setWorker i peer w').Spans i j peer w' r s := by
  obtain ⟨n, hn, hfeeds⟩ := h.sender
  rw [Cluster.setWorker, hn]
  exact h.setSender (hfeeds.setWorker w')

theorem Spans.gather (h : c.Spans i j peer w r s) (hidle : w.phase = .idle) :
    ∃ due, (c.perform (.worker i peer)).Spans i j peer { w with phase := .gathering due } r s := by
  obtain ⟨d, hworker, -⟩ := h.worker
  refine ⟨c.now + d.settings.batchingDelay, ?_⟩
  simp only [Cluster.perform, Cluster.move, hworker, hidle]
  exact h.setWorker _

theorem Spans.send (h : c.Spans i j peer w r s) {due : Nat} (hphase : w.phase = .gathering due)
    (hqueue : w.queue.Roomy) {item : Item} (hitem : w.queue.toList = [item]) :
    ∃ q : Queue, q.Roomy ∧ q.toList = [] ∧
      (c.perform (.worker i peer)).Spans i j peer
        { w with queue := q, phase := .sending [item] 0 } r s ∧
      ∃ flight, (c.perform (.worker i peer)).flights.get? (i, peer) = some flight ∧
        flight.fate = .deliver := by
  obtain ⟨d, hworker, hwanted, hbatch⟩ := h.worker
  obtain ⟨-, hitems, hpending⟩ := hqueue.tidy.drain d.settings.batchSize
  have hbatch' : (w.queue.drain d.settings.batchSize).1 = [item] := by
    rw [hitems, Pending.drain, Queue.toPending, hitem]
    exact List.take_of_length_le hbatch
  have hrest : (w.queue.drain d.settings.batchSize).2.toList = [] := by
    have hlist := congrArg Pending.items hpending
    refine hlist.trans ?_
    rw [Pending.drain, Queue.toPending, hitem]
    exact List.drop_of_length_le hbatch
  refine ⟨(w.queue.drain d.settings.batchSize).2, hqueue.drain _, hrest, ?_⟩
  have htaken : w.takeBatch d.settings (d.peers.contains peer) =
      { w with queue := (w.queue.drain d.settings.batchSize).2, phase := .sending [item] 0 } := by
    simp [Worker.takeBatch, hbatch', hwanted]
  simp only [Cluster.perform, Cluster.move, hworker, hphase, htaken]
  have hset := h.setWorker
    { w with queue := (w.queue.drain d.settings.batchSize).2, phase := .sending [item] 0 }
  have hfate : (((c.setWorker i peer { w with
      queue := (w.queue.drain d.settings.batchSize).2, phase := .sending [item] 0 }).fates.get?
        peer.display).getD []) = [] := by
    rw [hset.fates]
    rfl
  simp only [launch, hfate]
  exact ⟨⟨hset.sender, hset.receiver, hset.apart, hset.place, hset.fates⟩, _,
    (KeyMap.get?_insert ..).trans (if_pos rfl), rfl⟩

theorem Spans.meet (h : c.Spans i j peer w r s) (items : List Item) :
    ∃ there, (c.meet peer items .deliver).1 = .ok (s.receiveAll there items).answer ∧
      (c.meet peer items .deliver).2.Spans i j peer w r (s.receiveAll there items).registry := by
  obtain ⟨m, hm, rfl⟩ := h.receiver
  refine ⟨m.clock, ?_⟩
  have hsilent : shipped (m.registry.receiveAll m.clock items).effects = [] :=
    Registry.shipped_receiveAll items
  obtain ⟨events, hcommit⟩ := m.commit_silent hsilent
  have htarget : (c.places.lookup peer.display).bind (fun j => (c.node? j).map (j, ·)) =
      some (j, m) := by
    rw [h.place, Option.bind_some, hm]
    rfl
  have hafter :
      (m.receiveAll items).2.registry = (m.registry.receiveAll m.clock items).registry := by
    rw [Node.receiveAll, hcommit]
  simp only [Cluster.meet, deliver, htarget]
  exact ⟨rfl, hafter ▸ h.setReceiver _⟩

theorem Spans.conclude (h : c.Spans i j peer w r s) (items : List Item) (attempt : Nat)
    (outcomes : List Outcome) :
    ∃ w' now, (c.conclude i peer items attempt (.ok outcomes)).Spans i j peer w'
        (r.reacted now (reactions items outcomes)) s ∧
      w'.queue = w.queue.pushAll (resent items outcomes) ∧ w'.phase = .idle := by
  obtain ⟨d, hworker, -⟩ := h.worker
  obtain ⟨n, hn, -, hconclude⟩ := conclude_eq hworker items
    (show Replication.conclude d.settings attempt (.ok outcomes) = .accepted outcomes from rfl)
  have hset := h.setWorker (w.settle c.now items attempt (.accepted outcomes))
  obtain ⟨n', hn', hfeeds⟩ := hset.sender
  cases hn.symm.trans hn'
  obtain ⟨w', hreacted, hqueue, hphase⟩ :=
    (hfeeds.emitAll (Worker.report peer items (.accepted outcomes))).foldl_react
      (reactions items outcomes)
  rw [hconclude]
  exact ⟨w', _, hset.setSender hreacted, hqueue, hphase⟩

theorem Spans.land (h : c.Spans i j peer w r s) {items : List Item} {attempt : Nat}
    (hphase : w.phase = .sending items attempt) {flight : Flight}
    (hflight : c.flights.get? (i, peer) = some flight) (hfate : flight.fate = .deliver) :
    ∃ w' now there, (c.perform (.worker i peer)).Spans i j peer w'
        (r.exchange s now there items).2.1 (r.exchange s now there items).2.2 ∧
      w'.queue = w.queue.pushAll (r.exchange s now there items).1 ∧ w'.phase = .idle := by
  obtain ⟨d, hworker, -⟩ := h.worker
  obtain ⟨there, hanswer, hmet⟩ := h.meet items
  simp only [Cluster.perform, Cluster.move, hworker, hphase, Cluster.land, hflight, hfate, hanswer]
  have hspans : ({ (c.meet peer items .deliver).2 with
      flights := (c.meet peer items .deliver).2.flights.erase (i, peer)
      shipments := (c.meet peer items .deliver).2.shipments ++
        [{ sentAt := flight.sentAt, sender := i, peer, items
           answer := .ok (s.receiveAll there items).answer }] } : Cluster).Spans i j peer w r
        (s.receiveAll there items).registry :=
    ⟨hmet.sender, hmet.receiver, hmet.apart, hmet.place, hmet.fates⟩
  obtain ⟨w', now, hafter, hqueue, hidle⟩ := hspans.conclude items attempt _
  exact ⟨w', now, there, hafter, hqueue, hidle⟩

theorem Spans.round (h : c.Spans i j peer w r s) (hidle : w.phase = .idle) (hqueue : w.queue.Roomy)
    {items : List Item} (hitems : w.queue.toList = items)
    (hfew : items = [] ∨ ∃ item, items = [item]) (hround : Round i peer c c') :
    ∃ w' now there, c'.Spans i j peer w' (r.exchange s now there items).2.1
        (r.exchange s now there items).2.2 ∧ w'.phase = .idle ∧
      ∃ q : Queue, q.Roomy ∧ q.toList = [] ∧
        w'.queue = q.pushAll (r.exchange s now there items).1 := by
  obtain ⟨d, hworker, -⟩ := h.worker
  cases hround with
  | rest hworker' hempty =>
    cases hworker.symm.trans hworker'
    have hnil := hqueue.tidy.toList_eq_nil hempty
    cases hitems.symm.trans hnil
    exact ⟨w, 0, 0, h, hidle, w.queue, hqueue, hnil, rfl⟩
  | ship hworker' hsome hfirst hsecond hthird =>
    cases hworker.symm.trans hworker'
    rcases hfew with hnone | ⟨item, hone⟩
    · have hlength := hqueue.tidy.length_toList
      rw [hitems, hnone] at hlength
      simp [Queue.isEmpty, ← hlength] at hsome
    · subst hone
      obtain ⟨due, hgathering⟩ := h.gather hidle
      obtain ⟨hgathering, -⟩ := hgathering.passes hfirst
      obtain ⟨q, hroomy, hempty, hsending, flight, hflight, hfate⟩ :=
        hgathering.send rfl hqueue hitems
      obtain ⟨hsending, hflights⟩ := hsending.passes hsecond
      rw [← hflights] at hflight
      obtain ⟨w', now, there, hlanded, hpushed, hidle'⟩ := hsending.land rfl hflight hfate
      obtain ⟨hlanded, -⟩ := hlanded.passes hthird
      exact ⟨w', now, there, hlanded, hidle', q, hroomy, hempty, hpushed⟩

theorem Spans.rounds (h : c.Spans i j peer w r s) (hidle : w.phase = .idle) (hqueue : w.queue.Roomy)
    {item : Item} (hitem : w.queue.toList = [item]) {c₁ c₂ : Cluster}
    (hfirst : Round i peer c c₁) (hsecond : Round i peer c₁ c₂) :
    ∃ w' now there now' there',
      let a := r.exchange s now there [item]
      let b := a.2.1.exchange a.2.2 now' there' a.1
      c₂.Spans i j peer w' b.2.1 b.2.2 := by
  obtain ⟨w₁, now, there, hspans₁, hidle₁, q, hq, hempty, hpushed⟩ :=
    h.round hidle hqueue hitem (.inr ⟨item, rfl⟩) hfirst
  have hfew := r.exchange_few s now there item
  have hwaiting : w₁.queue.Roomy ∧ w₁.queue.toList = (r.exchange s now there [item]).1 := by
    rw [hpushed]
    rcases hfew with hnone | ⟨again, hone⟩
    · rw [hnone]
      exact ⟨hq, hempty⟩
    · rw [hone]
      exact ⟨hq.push again, hq.toList_push hempty again⟩
  obtain ⟨w₂, now', there', hspans₂, -⟩ :=
    hspans₁.round hidle₁ hwaiting.1 hwaiting.2 hfew hsecond
  exact ⟨w₂, now, there, now', there', hspans₂⟩

theorem Spans.renew (h : c.Spans i j peer w r s) {app id : String} {l : Lease Instance}
    (hl : r.lease? app id = some l) {dirtyAt : Option Millis}
    (hcaller : ∀ t ∈ dirtyAt, t ≤ l.holder.dirtyAt) :
    ∃ w' now, (c.call i (.renew .client app id dirtyAt)).Spans i j peer w'
        (r.perform now (.renew .client app id dirtyAt)).registry s ∧
      w'.queue = (w.queue.push (Registry.beat l now)).2 ∧ w'.phase = w.phase := by
  obtain ⟨n, hn, hfeeds⟩ := h.sender
  obtain ⟨w', hrenewed, hqueue, hphase⟩ := hfeeds.renew hl hcaller
  rw [hfeeds.registry] at hrenewed
  refine ⟨w', n.clock, ?_, hqueue, hphase⟩
  simp only [Cluster.call, update, hn, hfeeds.registry]
  exact h.setSender hrenewed

/-- After a heartbeat and two rounds both nodes hold the newer of their records. -/
theorem Reachable.heartbeat_repairs (hc : c.Reachable) (h : c.Spans i j peer w r s)
    (hidle : w.phase = .idle) (hempty : w.queue.isEmpty = true) (hr : r.Reachable)
    (hs : s.Reachable) {app id : String} {l : Lease Instance} (hl : r.lease? app id = some l)
    (hdirty : 0 < l.holder.dirtyAt) (hknown : l.holder.overridden ≠ some .unknown)
    (hpeer : ∀ l', s.lease? app id = some l' → 0 < l'.holder.dirtyAt ∧
      l'.holder.overridden ≠ some .unknown ∧
      (l'.holder.dirtyAt = l.holder.dirtyAt → l'.holder.content = l.holder.content))
    {dirtyAt : Option Millis} (hcaller : ∀ t ∈ dirtyAt, t ≤ l.holder.dirtyAt)
    {c₁ c₂ c₃ : Cluster} (hpass : Passes (c.call i (.renew .client app id dirtyAt)) c₁)
    (hfirst : Round i peer c₁ c₂) (hsecond : Round i peer c₂ c₃) :
    let x := ((s.lease? app id).map fun l' => Registry.newer l'.holder l.holder).getD l.holder
    ∃ w' r' s' l₁ l₂, c₃.Spans i j peer w' r' s' ∧
      r'.lease? app id = some l₁ ∧ l₁.holder.content = x.content ∧ l₁.duration = l.duration ∧
      s'.lease? app id = some l₂ ∧ l₂.holder.content = x.content ∧
      ((∀ l', s.lease? app id = some l' → l'.holder.dirtyAt < l.holder.dirtyAt) →
        l₂.duration = l.duration) := by
  intro x
  obtain ⟨d, hworker, -⟩ := h.worker
  have hroomy := hc.tidy.worker hworker
  obtain ⟨w₀, time, hrenewed, hqueue, hphase⟩ := h.renew hl hcaller
  obtain ⟨hrenewed, -⟩ := hrenewed.passes hpass
  have hwaiting : w₀.queue.toList = [Registry.beat (l.renew time) time] := by
    rw [hqueue]
    exact hroomy.toList_push (hroomy.tidy.toList_eq_nil hempty) _
  have hroomy₀ : w₀.queue.Roomy := hqueue ▸ hroomy.push _
  obtain ⟨w', now, there, now', there', hafter⟩ :=
    hrenewed.rounds (hphase.trans hidle) hroomy₀ hwaiting hfirst hsecond
  have hr₀ : (r.perform time (.renew .client app id dirtyAt)).registry.Reachable := .perform _ _ hr
  obtain ⟨-, hown, e, htheirs, hbehind⟩ :=
    hr₀.exchange_heartbeat hs (hr.sound.lease?_renew hl time dirtyAt) hdirty hknown hpeer time
      now there now' there'
  obtain ⟨hr₁, hs₁⟩ := hr₀.after_exchange hs now there [Registry.beat (l.renew time) time]
  obtain ⟨hr₂, hs₂⟩ := hr₁.after_exchange hs₁ now' there' _
  rw [hr₂.sound.view_slot] at hown
  rw [hs₂.sound.view_slot] at htheirs
  obtain ⟨l₁, hl₁, hsame₁⟩ := Option.map_eq_some_iff.mp hown
  obtain ⟨l₂, hl₂, hsame₂⟩ := Option.map_eq_some_iff.mp htheirs
  obtain ⟨hcontent₁, hduration₁⟩ := Prod.mk.inj hsame₁
  obtain ⟨hcontent₂, hduration₂⟩ := Prod.mk.inj hsame₂
  exact ⟨w', _, _, l₁, l₂, hafter, hl₁, hcontent₁, hduration₁, hl₂, hcontent₂,
    fun h => hduration₂.trans (hbehind h)⟩

def unaware (peer : Peer) : Cluster :=
  let known :=
    (Registry.start {} 1).perform 1 (.register .peer (.named "WEB" "web-1" "host" 80) none)
  let node := { Node.start {} 1 with
    registry := known.registry, dispatcher := some { settings := {}, peers := [peer] }
    chores := [.discovery 0] }
  let c : Cluster := { nodes := [node, Node.start {} 1], places := [(peer.display, 1)] }
  c.perform (.chore 0 0)

theorem unaware_reachable (peer : Peer) : (unaware peer).Reachable := by
  unfold unaware
  refine .perform _ (.start ?_)
  rintro (_ | _ | i) n d hn hd <;> cases hn <;> cases hd
  rfl

/-- A heartbeat and two rounds bring the instance to the peer. -/
theorem unaware_repaired :
    let peer : Peer := ⟨"peer", 1⟩
    let c := unaware peer
    let c₁ := c.call 0 (.renew .client "WEB" "web-1" none)
    ∃ c₂ c₃, Round 0 peer c₁ c₂ ∧ Round 0 peer c₂ c₃ ∧
      (c.node? 1).bind (·.registry.lease? "WEB" "web-1") = none ∧
      ∃ l, (c₃.node? 1).bind (·.registry.lease? "WEB" "web-1") = some l ∧ l.duration = 90 := by
  intro peer c c₁
  let round (c : Cluster) : Cluster :=
    ((c.perform (.worker 0 peer)).perform (.worker 0 peer)).perform (.worker 0 peer)
  have hround (c : Cluster)
      (h : (c.worker? 0 peer).map (·.2.queue.isEmpty) = some false) : Round 0 peer c (round c) := by
    obtain ⟨⟨d, w⟩, hworker, hsome⟩ := Option.map_eq_some_iff.mp h
    exact .ship hworker hsome (.refl _) (.refl _) (.refl _)
  have hfirst := hround c₁ (by decide +kernel)
  have hsecond := hround (round c₁) (by decide +kernel)
  refine ⟨_, _, hfirst, hsecond, by decide +kernel, ?_⟩
  have hc : c.Reachable := unaware_reachable peer
  let s := Registry.start {} 1
  let r := (s.perform 1 (.register .peer (.named "WEB" "web-1" "host" 80) none)).registry
  have hworker : (c.worker? 0 peer).map (fun p => (p.2.phase, p.2.queue.isEmpty)) =
      some (.idle, true) := by decide +kernel
  obtain ⟨⟨d, w⟩, hworker, heq⟩ := Option.map_eq_some_iff.mp hworker
  obtain ⟨hidle, hempty⟩ := Prod.mk.inj heq
  obtain ⟨n, hn, hd, hw⟩ := worker?_eq_some hworker
  have hspans : c.Spans 0 1 peer w r s := by
    cases hn
    refine ⟨⟨_, rfl, rfl, rfl, d, hd, hw, ?wanted, ?batch⟩, ⟨_, rfl, rfl⟩, by decide,
      by decide +kernel, by decide +kernel⟩
    all_goals cases hd; decide +kernel
  have hl : (r.lease? "WEB" "web-1").map
      (fun l => (l.holder.dirtyAt, l.holder.overridden, l.duration)) = some (1, none, 90) := by
    decide +kernel
  obtain ⟨l, hl, heq⟩ := Option.map_eq_some_iff.mp hl
  simp only [Prod.mk.injEq] at heq
  obtain ⟨hdirty, hoverridden, hduration⟩ := heq
  have hnone (l') : s.lease? "WEB" "web-1" ≠ some l' := by
    have hnone : s.lease? "WEB" "web-1" = none := by decide +kernel
    rw [hnone]
    exact nofun
  have hcaller : ∀ t ∈ (none : Option Millis), t ≤ l.holder.dirtyAt := fun t ht => nomatch ht
  obtain ⟨w', r', s', l₁, l₂, hafter, -, -, -, hl₂, -, htaken⟩ :=
    hc.heartbeat_repairs hspans hidle hempty (.perform 1 _ (.start {} 1)) (.start {} 1) hl
      (by rw [hdirty]; decide) (by rw [hoverridden]; decide) (fun l' hl' => absurd hl' (hnone l'))
      hcaller (.refl _) hfirst hsecond
  obtain ⟨m, hm, hregistry⟩ := hafter.receiver
  refine ⟨l₂, ?_, (htaken fun l' hl' => absurd hl' (hnone l')).trans hduration⟩
  rw [hm, Option.bind_some, hregistry, hl₂]

end Cluster

end ServiceRegistry
