import ServiceRegistry.Proofs.Cache.Reader
import ServiceRegistry.Proofs.Cluster.Requeue
import ServiceRegistry.Proofs.Node.Channel
import ServiceRegistry.Proofs.Registry.Runs

/-! # What happens at a node

A node lives through acts: calls from outside, chores, and the moves of its workers. An act carries
out commands, and sends events. Of the events that tell of changes there is one for each change
that is logged, in the same order: `Node.announced_act`.
-/

namespace ServiceRegistry

set_option autoImplicit false

open Replication

namespace Replication

/-- The next move of a worker and what observers are told; the answer counts if it waits for one. -/
def Worker.next (d : Dispatcher) (peer : Peer) (now : Nat) (answer : Answer) (w : Worker) :
    Worker × List Event :=
  match w.phase with
  | .idle => ({ w with phase := .gathering (now + d.settings.batchingDelay) }, [])
  | .gathering _ => (w.takeBatch d.settings (d.peers.contains peer), [])
  | .resting items attempt _ => ({ w with phase := .sending items attempt }, [])
  | .sending items attempt =>
    let c := conclude d.settings attempt answer
    (w.settle now items attempt c, Worker.report peer items c)

def Dispatcher.work (d : Dispatcher) (peer : Peer) (now : Nat) (answer : Answer) :
    Dispatcher × List Event :=
  match d.workers.get? peer with
  | none => (d, [])
  | some w =>
    let (w, events) := w.next d peer now answer
    ({ d with workers := d.workers.insert peer w }, events)

end Replication

inductive Act where
  | command (c : Command)
  | receive (items : List Item)
  | evict (choose : Choice)
  | refresh
  | rebuild
  | fetch (key : PayloadKey) (v : Json)
  | purge
  | prune
  | rotate
  | scrape
  | clock (now : Millis)
  | health (source : Option HealthSource)
  | drain (most : Nat)
  | replicate (i : Item)
  | react (peer : Peer) (r : Reaction)
  | work (peer : Peer) (now : Nat) (answer : Answer)
  | want (peers : List Peer)
  | syncPeers
  | shutdown

def Act.enter (app id : String) : Act :=
  .command (.register .client (.named app id "host" 80) none)

namespace Node

/-- A node at its start, with an outbox or a dispatcher that has no workers yet. -/
def fresh (s : NodeSettings) (now : Millis) (outbox : Option Queue)
    (dispatcher : Option (DispatcherSettings × List Peer)) : Node :=
  { Node.start s now with
    outbox, dispatcher := dispatcher.map fun (settings, peers) => { settings, peers } }

def hand (n : Node) (f : Dispatcher → Dispatcher × List Event) : Node :=
  match n.dispatcher with
  | none => n
  | some d => { n with dispatcher := some (f d).1 }.emitAll (f d).2

def act (n : Node) : Act → Node
  | .command c => (n.commit (n.registry.perform n.clock c)).2
  | .receive items => (n.receiveAll items).2
  | .evict choose => (n.evictionCycle choose).2
  | .refresh => n.refreshCache.2
  | .rebuild => n.rebuildCache.2
  | .fetch key v => { n with cache := (n.cache.fetch key v).2 }
  | .purge => { n with registry := (n.registry.purge n.clock).2 }
  | .prune => { n with registry := n.registry.prune.2 }
  | .rotate => n.rotateRenewals
  | .scrape => n.scrape.2
  | .clock now => { n with clock := now }
  | .health source => { n with health := source }
  | .drain most => { n with outbox := n.outbox.map fun q => (q.drain most).2 }
  | .replicate i => n.replicate i
  | .react peer r => n.react peer r
  | .work peer now answer => n.hand (·.work peer now answer)
  | .want peers => { n with dispatcher := n.dispatcher.map fun d => { d with peers } }
  | .syncPeers => n.syncPeers
  | .shutdown => { n with dispatcher := n.dispatcher.map (·.shutdown) }

def run (n : Node) (acts : List Act) : Node := acts.foldl act n

/-- What an act asks of the registry. -/
def turns (n : Node) : Act → List Registry.Turn
  | .command c => [.perform n.clock c]
  | .receive items => items.map (.receive n.clock)
  | .evict choose => n.eviction.turns n.registry n.clock n.reportedIsolation choose
  | .refresh => [.takeDirty, .purge n.clock]
  | .rebuild | .purge => [.purge n.clock]
  | .prune => [.prune]
  | .rotate => [.rotate]
  | .react _ (.adopt record lease) => [.adopt n.clock record lease]
  | .react _ (.resend _) | .fetch .. | .scrape | .clock _ | .health _ | .drain _ | .replicate _
  | .work .. | .want _ | .syncPeers | .shutdown => []

def deeds (n : Node) (a : Act) : List Deed := n.registry.done (n.turns a)

def changes (n : Node) (a : Act) : List Change := n.registry.logged (n.turns a)

def effects (n : Node) : Act → List Effect
  | .command c => (n.registry.perform n.clock c).effects
  | .receive items => (n.registry.receiveAll n.clock items).effects
  | .evict choose => (n.eviction.run n.registry n.clock n.reportedIsolation choose).2.effects
  | .refresh => (n.cache.refresh n.registry n.clock).2.effects
  | .rebuild => (n.cache.rebuild n.registry n.clock).2.effects
  | .react _ (.adopt record lease) =>
    (n.registry.perform n.clock (.register .peer record
      (((n.registry.lease? record.app record.id).map (·.duration)).or lease))).effects
  | _ => []

def hears (n : Node) (f : Dispatcher → Dispatcher × List Event) : List Event :=
  (n.dispatcher.map fun d => (f d).2).getD []

/-- The events of some effects, with those of the dispatcher as it takes the items. -/
def told (n : Node) : List Effect → List Event
  | [] => []
  | .emit e :: rest => e :: told n rest
  | .ship i :: rest =>
    (if n.outbox.isSome then [] else n.hears (·.replicate i)) ++ told (n.ship i) rest

def announces (n : Node) : Act → List Event
  | .replicate i => n.hears (·.replicate i)
  | .react peer (.resend i) => n.hears (·.enqueue peer i)
  | .work peer now answer => n.hears (·.work peer now answer)
  | a => n.told (n.effects a)

variable {n : Node} {history : List Change}

theorem events_emitAll (n : Node) (es : List Event) :
    (n.emitAll es).events = n.events.sendAll es := by
  induction es generalizing n with
  | nil => rfl
  | cons e rest ih => exact ih (n.emit e)

theorem hand_eq (n : Node) (f : Dispatcher → Dispatcher × List Event) :
    ∃ events, n.hand f =
      { n with dispatcher := n.dispatcher.map fun d => (f d).1, events } := by
  obtain ⟨_, _, _, _, _, _, _, _, _, dispatcher, _⟩ := n
  cases dispatcher with
  | none => exact ⟨_, rfl⟩
  | some d => exact emitAll_eq _ (f d).2

theorem events_hand (n : Node) (f : Dispatcher → Dispatcher × List Event) :
    (n.hand f).events = n.events.sendAll (n.hears f) := by
  unfold hand hears
  cases n.dispatcher with
  | none => rfl
  | some d => exact events_emitAll ..

theorem ship_eq_hand (h : n.outbox = none) (i : Item) : n.ship i = n.hand (·.replicate i) := by
  unfold ship hand
  cases hd : n.dispatcher <;> simp only [h]

theorem events_ship (n : Node) (i : Item) :
    (n.ship i).events =
      n.events.sendAll (if n.outbox.isSome then [] else n.hears (·.replicate i)) := by
  cases houtbox : n.outbox with
  | none =>
    rw [ship_eq_hand houtbox, events_hand]
    rfl
  | some q =>
    simp only [ship, houtbox]
    rfl

theorem ship_eq (n : Node) (i : Item) :
    ∃ events, n.ship i = { n with
      outbox := n.outbox.map fun q => (q.push i).2
      dispatcher :=
        if n.outbox.isSome then n.dispatcher else n.dispatcher.map fun d => (d.replicate i).1
      events } := by
  obtain ⟨_, _, _, _, _, _, _, _, outbox, dispatcher, _⟩ := n
  cases outbox with
  | some q => exact ⟨_, rfl⟩
  | none =>
    cases dispatcher with
    | none => exact ⟨_, rfl⟩
    | some d => exact emitAll_eq _ (d.replicate i).2

theorem told_congr (n n' : Node) (hdispatcher : n'.dispatcher = n.dispatcher)
    (houtbox : n'.outbox = n.outbox) (effects : List Effect) :
    n'.told effects = n.told effects := by
  induction effects generalizing n n' with
  | nil => rfl
  | cons e rest ih =>
    cases e with
    | emit e => exact congrArg (e :: ·) (ih n n' hdispatcher houtbox)
    | ship i =>
      obtain ⟨events, hship⟩ := n.ship_eq i
      obtain ⟨events', hship'⟩ := n'.ship_eq i
      have hrest : (n'.ship i).told rest = (n.ship i).told rest := by
        refine ih _ _ ?_ ?_
        · simp only [hship, hship', hdispatcher, houtbox]
        · simp only [hship, hship', houtbox]
      simp only [told, hears, hdispatcher, houtbox, hrest]

theorem events_foldl_perform (n : Node) (effects : List Effect) :
    (effects.foldl perform n).events = n.events.sendAll (n.told effects) := by
  induction effects generalizing n with
  | nil => rfl
  | cons e rest ih =>
    rw [List.foldl_cons, ih]
    cases e with
    | emit e =>
      rw [told, told_congr n (n.perform (.emit e)) rfl rfl]
      rfl
    | ship i =>
      rw [told, Broadcast.sendAll_append, ← events_ship]
      rfl

theorem events_commit {α : Type} (n n' : Node) (hdispatcher : n'.dispatcher = n.dispatcher)
    (houtbox : n'.outbox = n.outbox) (s : Response α) :
    (n'.commit s).2.events = n'.events.sendAll (n.told s.effects) := by
  rw [← told_congr n { n' with registry := s.registry } hdispatcher houtbox]
  exact events_foldl_perform { n' with registry := s.registry } s.effects

theorem react_adopt (n : Node) (peer : Peer) (record : Instance) (lease : Option UInt64) :
    n.react peer (.adopt record lease) =
      (n.commit (n.registry.perform n.clock (.register .peer record
        (((n.registry.lease? record.app record.id).map (·.duration)).or lease)))).2 := by
  simp only [react, Registry.adopt, Registry.perform]
  cases n.registry.register n.clock .peer record
    (((n.registry.lease? record.app record.id).map (·.duration)).or lease) <;> rfl

/-- The channel gets the events that an act announces, and no other. -/
theorem events_act (n : Node) (a : Act) :
    (n.act a).events = n.events.sendAll (n.announces a) := by
  cases a with
  | command c => exact events_commit n n rfl rfl _
  | receive items => exact events_commit n n rfl rfl _
  | evict choose =>
    exact events_commit n { n with
      eviction := (n.eviction.run n.registry n.clock n.reportedIsolation choose).1 } rfl rfl _
  | refresh =>
    exact events_commit n { n with
      cache := (n.cache.refresh n.registry n.clock).1 } rfl rfl _
  | rebuild =>
    exact events_commit n { n with
      cache := (n.cache.rebuild n.registry n.clock).1 } rfl rfl _
  | replicate i => exact n.events_hand (·.replicate i)
  | react peer r =>
    cases r with
    | resend i => exact n.events_hand (·.enqueue peer i)
    | adopt record lease =>
      rw [act, react_adopt]
      exact events_commit n n rfl rfl _
  | work peer now answer => exact n.events_hand (·.work peer now answer)
  | fetch | purge | prune | rotate | scrape | clock | health | drain | want | syncPeers
  | shutdown => rfl

end Node

namespace Replication

theorem Worker.peer?_push {peer : Peer} {w : Worker} {i : Item} {e : Event}
    (h : e ∈ (w.push peer i).2) : e.peer?.isSome := by
  simp only [Worker.push] at h
  split at h
  · cases h
  · rw [List.mem_singleton.mp h]
    rfl

theorem Worker.peer?_report {peer : Peer} {items : List Item} {c : Conclusion} {e : Event}
    (h : e ∈ Worker.report peer items c) : e.peer?.isSome := by
  cases c with
  | again delay => cases h
  | accepted outcomes | lost failure =>
    rw [List.mem_singleton.mp h]
    rfl

theorem Worker.peer?_next {d : Dispatcher} {peer : Peer} {now : Nat} {answer : Answer}
    {w : Worker} {e : Event} (h : e ∈ (w.next d peer now answer).2) : e.peer?.isSome := by
  unfold Worker.next at h
  split at h
  · cases h
  · cases h
  · cases h
  · exact Worker.peer?_report h

namespace Dispatcher

def Discreet (f : Dispatcher → Dispatcher × List Event) : Prop :=
  ∀ d, ∀ e ∈ (f d).2, e.peer?.isSome

theorem discreet_enqueue (peer : Peer) (i : Item) : Discreet (·.enqueue peer i) := by
  intro d e h
  simp only [enqueue] at h
  split at h
  · cases h
  · exact Worker.peer?_push h

theorem discreet_replicate (i : Item) : Discreet (·.replicate i) := by
  have hall (peers : List Peer) (d : Dispatcher) :
      ∀ e ∈ (enqueueAll i peers d).2, e.peer?.isSome := by
    induction peers generalizing d with
    | nil => exact nofun
    | cons peer rest ih =>
      intro e h
      rcases List.mem_append.mp h with h | h
      · exact discreet_enqueue peer i d e h
      · exact ih _ e h
  exact fun d => hall d.workers.keys d

theorem discreet_work (peer : Peer) (now : Nat) (answer : Answer) :
    Discreet (·.work peer now answer) := by
  intro d e h
  simp only [work] at h
  split at h
  · cases h
  · exact Worker.peer?_next h

end Dispatcher

end Replication

namespace Node

variable {n : Node} {β : Type} {g : Event → Option β}

theorem filterMap_hears (hg : ∀ e, e.peer?.isSome → g e = none)
    {f : Dispatcher → Dispatcher × List Event} (hf : Dispatcher.Discreet f) (n : Node) :
    (n.hears f).filterMap g = [] := by
  unfold hears
  cases n.dispatcher with
  | none => rfl
  | some d => exact List.filterMap_eq_nil_iff.mpr fun e he => hg e (hf d e he)

theorem filterMap_told (hg : ∀ e, e.peer?.isSome → g e = none) (n : Node)
    (effects : List Effect) : (n.told effects).filterMap g = (eventsOf effects).filterMap g := by
  induction effects generalizing n with
  | nil => rfl
  | cons e rest ih =>
    cases e with
    | emit e =>
      rw [told, List.filterMap_cons, ih]
      rfl
    | ship i =>
      have hsilent :
          (if n.outbox.isSome then [] else n.hears (·.replicate i)).filterMap g = [] := by
        split
        · rfl
        · exact n.filterMap_hears hg (Dispatcher.discreet_replicate i)
      rw [told, List.filterMap_append, hsilent, ih]
      rfl

theorem filterMap_announces (hg : ∀ e, e.peer?.isSome → g e = none) (n : Node) (a : Act) :
    (n.announces a).filterMap g = (eventsOf (n.effects a)).filterMap g := by
  cases a with
  | replicate i => exact n.filterMap_hears hg (Dispatcher.discreet_replicate i)
  | work peer now answer => exact n.filterMap_hears hg (Dispatcher.discreet_work peer now answer)
  | react peer r =>
    cases r with
    | resend i => exact n.filterMap_hears hg (Dispatcher.discreet_enqueue peer i)
    | adopt record lease => exact n.filterMap_told hg _
  | _ => exact n.filterMap_told hg _

/-- What an act tells before its deeds: that self-preservation sets in or ends. -/
def edges (n : Node) : Act → List Event
  | .evict choose =>
    eventsOf (EvictionController.modeEffects n.eviction.status
      (n.eviction.run n.registry n.clock n.reportedIsolation choose).1.status)
  | _ => []

/-- What an act tells after its deeds: that a chore is done. -/
def notes (n : Node) : Act → List Event
  | .evict choose =>
    let report := (n.eviction.run n.registry n.clock n.reportedIsolation choose).2.answer
    [.evictionCycle report.expired report.evicted (report.mode ≠ .normal)]
  | .refresh => eventsOf (n.cache.refresh n.registry n.clock).2.effects
  | .rebuild => eventsOf (n.cache.rebuild n.registry n.clock).2.effects
  | _ => []

theorem eventsOf_effects (n : Node) (a : Act) :
    eventsOf (n.effects a) = n.edges a ++ (n.deeds a).flatMap (·.told) ++ n.notes a := by
  rw [← Registry.eventsOf_deedEffects]
  cases a with
  | command c =>
    refine .trans ?_ (List.append_nil _).symm
    exact congrArg eventsOf (List.append_nil _).symm
  | receive items =>
    refine .trans ?_ (List.append_nil _).symm
    exact congrArg eventsOf (Registry.receiveAll_eq ..).2
  | evict choose =>
    rw [effects, EvictionController.run_effects, eventsOf_append, eventsOf_append,
      (EvictionController.evictAll_eq ..).2, deeds, turns, EvictionController.done_turns]
    rfl
  | react peer r =>
    cases r with
    | resend i => rfl
    | adopt record lease =>
      refine .trans ?_ (List.append_nil _).symm
      exact congrArg eventsOf (List.append_nil _).symm
  | _ => rfl

theorem mem_edges {a : Act} {e : Event} (h : e ∈ n.edges a) :
    ∃ active, e = .selfPreservationChanged active := by
  cases a with
  | evict choose =>
    simp only [edges, EvictionController.modeEffects] at h
    split at h
    · exact ⟨_, List.mem_singleton.mp h⟩
    · cases h
  | _ => cases h

theorem mem_notes {a : Act} {e : Event} (h : e ∈ n.notes a) :
    (∃ expired evicted suspended, e = .evictionCycle expired evicted suspended) ∨
      ∃ version, e = .cacheRebuilt version := by
  cases a with
  | evict choose => exact .inl ⟨_, _, _, List.mem_singleton.mp h⟩
  | refresh =>
    simp only [notes, ResponseCache.refresh] at h
    split at h <;> split at h
    all_goals first
      | exact .inr ⟨_, List.mem_singleton.mp h⟩
      | cases h
  | rebuild => exact .inr ⟨_, List.mem_singleton.mp h⟩
  | _ => cases h

theorem filterMap_announces_deeds (hg : ∀ e, e.isDeed = false → g e = none) (n : Node) (a : Act) :
    (n.announces a).filterMap g = ((n.deeds a).flatMap (·.told)).filterMap g := by
  have hedges : (n.edges a).filterMap g = [] := List.filterMap_eq_nil_iff.mpr fun e he => by
    obtain ⟨active, rfl⟩ := mem_edges he
    exact hg _ rfl
  have hnotes : (n.notes a).filterMap g = [] := List.filterMap_eq_nil_iff.mpr fun e he => by
    rcases mem_notes he with ⟨_, _, _, rfl⟩ | ⟨_, rfl⟩
    · exact hg _ rfl
    · exact hg _ rfl
  rw [filterMap_announces fun e he => hg e (Event.isDeed_of_peer? he), eventsOf_effects,
    List.filterMap_append, List.filterMap_append, hedges, hnotes, List.nil_append, List.append_nil]

theorem foldl_perform_eq (n : Node) (effects : List Effect) :
    ∃ events outbox dispatcher,
      effects.foldl perform n = { n with events, outbox, dispatcher } := by
  induction effects generalizing n with
  | nil => exact ⟨n.events, n.outbox, n.dispatcher, rfl⟩
  | cons e rest ih =>
    obtain ⟨events, outbox, dispatcher, hrest⟩ := ih (n.perform e)
    refine ⟨events, outbox, dispatcher, ?_⟩
    rw [List.foldl_cons, hrest]
    cases e with
    | emit e => rfl
    | ship i =>
      obtain ⟨_, hship⟩ := n.ship_eq i
      rw [perform, hship]

theorem commit_eq {α : Type} (n : Node) (s : Response α) :
    ∃ events outbox dispatcher,
      (n.commit s).2 = { n with registry := s.registry, events, outbox, dispatcher } :=
  foldl_perform_eq { n with registry := s.registry } s.effects

theorem registry_commit {α : Type} (n : Node) (s : Response α) :
    (n.commit s).2.registry = s.registry := by
  obtain ⟨_, _, _, hcommit⟩ := n.commit_eq s
  rw [hcommit]

theorem cache_commit {α : Type} (n : Node) (s : Response α) :
    (n.commit s).2.cache = n.cache := by
  obtain ⟨_, _, _, hcommit⟩ := n.commit_eq s
  rw [hcommit]

theorem registry_hand (n : Node) (f : Dispatcher → Dispatcher × List Event) :
    (n.hand f).registry = n.registry := by
  obtain ⟨events, hhand⟩ := n.hand_eq f
  rw [hhand]

variable {history : List Change}

theorem aside_commit {α : Type} (n : Node) (s : Response α) :
    (n.commit s).2.eviction = n.eviction ∧ (n.commit s).2.metrics = n.metrics ∧
      (n.commit s).2.chores = n.chores := by
  obtain ⟨_, _, _, hcommit⟩ := n.commit_eq s
  rw [hcommit]
  exact ⟨rfl, rfl, rfl⟩

theorem aside_hand (n : Node) (f : Dispatcher → Dispatcher × List Event) :
    (n.hand f).eviction = n.eviction ∧ (n.hand f).metrics = n.metrics ∧
      (n.hand f).chores = n.chores := by
  obtain ⟨_, hhand⟩ := n.hand_eq f
  rw [hhand]
  exact ⟨rfl, rfl, rfl⟩

/-- Only cycles of eviction touch the controller, and only scrapes touch the metrics. -/
theorem aside_act (n : Node) (a : Act) :
    ((∃ choose, a = .evict choose) ∨ (n.act a).eviction = n.eviction) ∧
      (a = .scrape ∨ (n.act a).metrics = n.metrics) ∧ (n.act a).chores = n.chores := by
  have hsame {n' : Node} (h : n'.eviction = n.eviction ∧ n'.metrics = n.metrics ∧
      n'.chores = n.chores) :
      ((∃ choose, a = .evict choose) ∨ n'.eviction = n.eviction) ∧
        (a = .scrape ∨ n'.metrics = n.metrics) ∧ n'.chores = n.chores :=
    ⟨.inr h.1, .inr h.2.1, h.2.2⟩
  cases a with
  | evict choose =>
    have haside := aside_commit { n with
      eviction := (n.eviction.run n.registry n.clock n.reportedIsolation choose).1 }
      (n.eviction.run n.registry n.clock n.reportedIsolation choose).2
    exact ⟨.inl ⟨choose, rfl⟩, .inr haside.2.1, haside.2.2⟩
  | scrape => exact ⟨.inr rfl, .inl rfl, rfl⟩
  | command c => exact hsame (n.aside_commit _)
  | receive items => exact hsame (n.aside_commit _)
  | refresh =>
    exact hsame (aside_commit { n with cache := (n.cache.refresh n.registry n.clock).1 } _)
  | rebuild =>
    exact hsame (aside_commit { n with cache := (n.cache.rebuild n.registry n.clock).1 } _)
  | replicate i => exact hsame (n.aside_hand (·.replicate i))
  | react peer r =>
    cases r with
    | resend i => exact hsame (n.aside_hand (·.enqueue peer i))
    | adopt record lease =>
      rw [act, react_adopt]
      exact hsame (n.aside_commit _)
  | work peer now answer => exact hsame (n.aside_hand (·.work peer now answer))
  | fetch | purge | prune | rotate | clock | health | drain | want | syncPeers | shutdown =>
    exact hsame ⟨rfl, rfl, rfl⟩

theorem registry_act (n : Node) (a : Act) : (n.act a).registry = n.registry.run (n.turns a) := by
  cases a with
  | command c => exact n.registry_commit _
  | receive items => exact (n.registry_commit _).trans (Registry.receiveAll_eq ..).1
  | evict choose => exact (registry_commit _ _).trans EvictionController.run_registry_eq
  | refresh =>
    exact (registry_commit _ _).trans (n.cache.refresh_eq n.registry n.clock).1
  | rebuild => exact registry_commit _ _
  | react peer r =>
    cases r with
    | resend i => exact n.registry_hand (·.enqueue peer i)
    | adopt record lease =>
      rw [act, react_adopt, registry_commit]
      exact (Registry.step_adopt ..).symm
  | replicate i => exact n.registry_hand (·.replicate i)
  | work peer now answer => exact n.registry_hand _
  | purge | prune | rotate | fetch | scrape | clock | health | drain | want | syncPeers
  | shutdown => rfl

theorem ne_takeDirty_of_mem_turns {a : Act} (ha : a ≠ .refresh) {t : Registry.Turn}
    (ht : t ∈ n.turns a) : t ≠ .takeDirty := by
  rintro rfl
  cases a with
  | refresh => exact ha rfl
  | receive items =>
    obtain ⟨i, -, hi⟩ := List.mem_map.mp ht
    cases hi
  | evict choose =>
    rcases List.mem_append.mp ht with ht | ht
    · obtain ⟨k, -, hk⟩ := List.mem_map.mp ht
      cases hk
    · cases List.mem_singleton.mp ht
  | react peer r =>
    cases r with
    | resend i => cases ht
    | adopt record lease => cases List.mem_singleton.mp ht
  | command | rebuild | purge | prune | rotate => cases List.mem_singleton.mp ht
  | fetch | scrape | clock | health | drain | replicate | work | want | syncPeers | shutdown =>
    cases ht

theorem reachable_act (hn : n.registry.Reachable) (a : Act) : (n.act a).registry.Reachable := by
  rw [registry_act]
  exact hn.run (n.turns a)

theorem traced_act (hn : n.registry.Reachable) (h : n.registry.Traced history) (a : Act) :
    (n.act a).registry.Traced (history ++ n.changes a) := by
  rw [registry_act]
  exact hn.traced_run h (n.turns a)

theorem dirty_act (hn : n.registry.Reachable) {a : Act} (ha : a ≠ .refresh) :
    (n.act a).registry.dirty = (n.registry.dirty || !(n.changes a).isEmpty) := by
  rw [registry_act]
  exact hn.dirty_run fun _ ht => ne_takeDirty_of_mem_turns ha ht

theorem reachable_run (hn : n.registry.Reachable) (acts : List Act) :
    (n.run acts).registry.Reachable :=
  List.foldlRecOn (motive := fun n => n.registry.Reachable) acts act hn
    fun _ hn a _ => reachable_act hn a

theorem settings_run (hn : n.registry.Reachable) (acts : List Act) :
    (n.run acts).registry.settings = n.registry.settings := by
  induction acts generalizing n with
  | nil => rfl
  | cons a rest ih =>
    refine (ih (reachable_act hn a)).trans ?_
    rw [registry_act]
    exact hn.settings_run (n.turns a)

/-- The changes of an act are told of one by one, in their order. -/
theorem announced_act (hn : n.registry.Reachable) (a : Act) :
    (n.announces a).filterMap Event.announced? = (n.changes a).map .ofChange := by
  rw [filterMap_announces_deeds Event.announced?_eq_none]
  exact Registry.announced_told_deeds fun d hd => hn.done hd

/-- A node after all these changes and events, and no others. -/
structure Follows (history : List Change) (sent : List Event) (n : Node) : Prop where
  reachable : n.registry.Reachable
  registry : n.registry.Traced history
  channel : n.events.Carries sent
  announced : sent.filterMap Event.announced? = history.map .ofChange

variable {sent : List Event}

theorem follows_fresh (s : NodeSettings) (now : Millis) (outbox : Option Queue)
    (dispatcher : Option (DispatcherSettings × List Peer)) :
    (fresh s now outbox dispatcher).Follows [] [] where
  reachable := .start s.registry now
  registry := ⟨.start s.registry.logCapacity, rfl⟩
  channel := .ofCapacity s.eventCapacity
  announced := rfl

theorem Follows.act (h : n.Follows history sent) (a : Act) :
    (n.act a).Follows (history ++ n.changes a) (sent ++ n.announces a) where
  reachable := reachable_act h.reachable a
  registry := traced_act h.reachable h.registry a
  channel := by
    rw [events_act]
    exact h.channel.sendAll _
  announced := by
    rw [List.filterMap_append, List.map_append, h.announced, announced_act h.reachable]

end Node

/-- A node, and all that it has done and told since its start. -/
structure Chronicle where
  node : Node
  deeds : List Deed := []
  events : List Event := []

namespace Chronicle

variable {h : Chronicle}

def fresh (s : NodeSettings) (now : Millis) (outbox : Option Queue)
    (dispatcher : Option (DispatcherSettings × List Peer)) : Chronicle :=
  { node := .fresh s now outbox dispatcher }

def act (h : Chronicle) (a : Act) : Chronicle :=
  { node := h.node.act a
    deeds := h.deeds ++ h.node.deeds a
    events := h.events ++ h.node.announces a }

def run (h : Chronicle) (acts : List Act) : Chronicle := acts.foldl act h

def changes (h : Chronicle) : List Change := h.deeds.flatMap (·.changes)

theorem changes_act (h : Chronicle) (a : Act) :
    (h.act a).changes = h.changes ++ h.node.changes a := List.flatMap_append

/-- What is written of the node is what led to it. -/
def Faithful (h : Chronicle) : Prop := h.node.Follows h.changes h.events

theorem faithful_fresh (s : NodeSettings) (now : Millis) (outbox : Option Queue)
    (dispatcher : Option (DispatcherSettings × List Peer)) :
    (fresh s now outbox dispatcher).Faithful := Node.follows_fresh s now outbox dispatcher

theorem Faithful.act (hh : h.Faithful) (a : Act) : (h.act a).Faithful := by
  rw [Faithful, changes_act]
  exact Node.Follows.act hh a

theorem Faithful.run (hh : h.Faithful) (acts : List Act) : (h.run acts).Faithful :=
  List.foldlRecOn acts Chronicle.act hh fun _ hh a _ => hh.act a

end Chronicle

end ServiceRegistry
