import ServiceRegistry.Proofs.Cluster.Traffic
import ServiceRegistry.Proofs.Node.Acts

/-! # Statistics of workers

What the workers of a node count in their statistics, observers are told of: a tally grows by what
the events of an act say. A worker that is stopped takes its statistics along, so the stopped ones
are counted beside those at work.
-/

namespace ServiceRegistry

set_option autoImplicit false

open Replication

def Event.sum (g : Event → Nat) (events : List Event) : Nat := (events.map g).sum

theorem Event.sum_append (g : Event → Nat) (before after : List Event) :
    Event.sum g (before ++ after) = Event.sum g before + Event.sum g after := by
  rw [Event.sum, List.map_append, List.sum_append]
  rfl

theorem Event.sum_singleton (g : Event → Nat) (e : Event) : Event.sum g [e] = g e :=
  List.sum_singleton

theorem Event.sum_eq_zero {g : Event → Nat} {events : List Event} (h : ∀ e ∈ events, g e = 0) :
    Event.sum g events = 0 :=
  List.sum_eq_zero fun _ hx => by
    obtain ⟨e, he, rfl⟩ := List.mem_map.mp hx
    exact h e he

namespace Replication

/-- A statistic that starts at zero and changes by what the events of its worker say. -/
structure Worker.Tally (f : Worker → Nat) (g : Event → Nat) : Prop where
  fresh : ∀ capacity, f (.ofCapacity capacity) = 0
  push : ∀ peer w i, f (w.push peer i).1 = f w + Event.sum g (w.push peer i).2
  next : ∀ d peer now answer w,
    f (w.next d peer now answer).1 = f w + Event.sum g (w.next d peer now answer).2
  plain : ∀ e : Event, e.peer?.isNone → g e = 0

namespace Dispatcher

variable {f : Worker → Nat} {g : Event → Nat}

/-- The dispatcher keeps its workers, and tells of what their statistics grow by. -/
structure Counts (f : Worker → Nat) (g : Event → Nat)
    (h : Dispatcher → Dispatcher × List Event) : Prop where
  keeps : ∀ d peer, d.workers.contains peer → (h d).1.workers.contains peer
  total : ∀ d, (h d).1.workers.total f = d.workers.total f + Event.sum g (h d).2

theorem contains_insert {κ α : Type} [DecidableEq κ] (m : KeyMap κ α) (k k' : κ) (a : α)
    (h : m.contains k') : (m.insert k a).contains k' := by
  rw [KeyMap.contains, KeyMap.get?_insert]
  split
  · rfl
  · exact h

theorem counts_update {d : Dispatcher} {peer : Peer} {w w' : Worker} {events : List Event}
    (hw : d.workers.get? peer = some w) (hf : f w' = f w + Event.sum g events) :
    (d.workers.insert peer w').total f = d.workers.total f + Event.sum g events := by
  have hinsert := d.workers.total_insert f peer w'
  rw [hw, Option.map_some, Option.getD_some] at hinsert
  omega

theorem counts_enqueue (hf : Worker.Tally f g) (peer : Peer) (i : Item) :
    Counts f g (·.enqueue peer i) where
  keeps d other h := by
    simp only [enqueue]
    split
    · exact h
    · exact contains_insert _ _ _ _ h
  total d := by
    simp only [enqueue]
    split
    · rfl
    · rename_i w hw
      exact counts_update hw (hf.push peer w i)

theorem counts_enqueueAll (hf : Worker.Tally f g) (i : Item) (peers : List Peer) :
    Counts f g (enqueueAll i peers) := by
  induction peers with
  | nil => exact ⟨fun _ _ h => h, fun _ => rfl⟩
  | cons peer rest ih =>
    have hfirst := counts_enqueue hf peer i
    refine ⟨fun d other h => ih.keeps _ other (hfirst.keeps d other h), fun d => ?_⟩
    have hrest := ih.total (d.enqueue peer i).1
    have hpeer := hfirst.total d
    simp only [enqueueAll, Event.sum_append]
    omega

theorem counts_replicate (hf : Worker.Tally f g) (i : Item) : Counts f g (·.replicate i) :=
  ⟨fun d => (counts_enqueueAll hf i d.workers.keys).keeps d,
    fun d => (counts_enqueueAll hf i d.workers.keys).total d⟩

theorem counts_work (hf : Worker.Tally f g) (peer : Peer) (now : Nat) (answer : Answer) :
    Counts f g (·.work peer now answer) where
  keeps d other h := by
    simp only [work]
    split
    · exact h
    · exact contains_insert _ _ _ _ h
  total d := by
    simp only [work]
    split
    · rfl
    · rename_i w hw
      exact counts_update hw (hf.next d peer now answer w)

end Dispatcher

end Replication

namespace Node

variable {n n' : Node} {f : Worker → Nat} {g : Event → Nat}

def workers (n : Node) : KeyMap Peer Worker := (n.dispatcher.map (·.workers)).getD .empty

def stops (n : Node) (a : Act) : List Worker :=
  (n.workers.entries.filter fun e => !(n.act a).workers.contains e.1).map Prod.snd

/-- Between two nodes no worker is stopped, and the others count what events say. -/
structure Counts (f : Worker → Nat) (g : Event → Nat) (n n' : Node) (events : List Event) :
    Prop where
  keeps : ∀ peer, n.workers.contains peer → n'.workers.contains peer
  total : n'.workers.total f = n.workers.total f + Event.sum g events

theorem Counts.of_dispatcher {events : List Event} (h : n'.dispatcher = n.dispatcher)
    (hevents : Event.sum g events = 0) : Counts f g n n' events := by
  have hworkers : n'.workers = n.workers := by rw [workers, workers, h]
  refine ⟨fun peer hpeer => hworkers ▸ hpeer, ?_⟩
  rw [hworkers, hevents, Nat.add_zero]

theorem counts_hand {h : Dispatcher → Dispatcher × List Event} (hh : Dispatcher.Counts f g h)
    (n : Node) : Counts f g n (n.hand h) (n.hears h) := by
  obtain ⟨events, hhand⟩ := n.hand_eq h
  have hdispatcher : (n.hand h).dispatcher = n.dispatcher.map fun d => (h d).1 := by rw [hhand]
  cases hd : n.dispatcher with
  | none =>
    refine .of_dispatcher ?_ ?_
    · rw [hdispatcher, hd]
      rfl
    · rw [hears, hd]
      rfl
  | some d =>
    refine ⟨fun peer => ?_, ?_⟩
    · rw [workers, workers, hdispatcher, hd]
      exact hh.keeps d peer
    · rw [workers, workers, hdispatcher, hd, hears, hd]
      exact hh.total d

theorem counts_foldl_perform (hf : Worker.Tally f g) (n : Node) (effects : List Effect)
    (hplain : ∀ e ∈ eventsOf effects, e.peer?.isNone) :
    Counts f g n (effects.foldl perform n) (n.told effects) := by
  induction effects generalizing n with
  | nil => exact ⟨fun _ h => h, rfl⟩
  | cons e rest ih =>
    cases e with
    | emit e =>
      obtain ⟨he, hrest⟩ := List.forall_mem_cons.mp hplain
      obtain ⟨hkeeps, htotal⟩ := ih (n.emit e) hrest
      rw [told_congr n (n.emit e) rfl rfl] at htotal
      refine ⟨hkeeps, htotal.trans ?_⟩
      rw [told, ← List.singleton_append, Event.sum_append,
        Event.sum_singleton, hf.plain e he, Nat.zero_add]
      rfl
    | ship i =>
      obtain ⟨hkeeps, htotal⟩ := ih (n.ship i) hplain
      have hship : Counts f g n (n.ship i)
          (if n.outbox.isSome then [] else n.hears (·.replicate i)) := by
        cases houtbox : n.outbox with
        | none =>
          rw [ship_eq_hand houtbox]
          exact counts_hand (Dispatcher.counts_replicate hf i) n
        | some q =>
          refine .of_dispatcher ?_ rfl
          simp only [ship, houtbox]
      refine ⟨fun peer h => hkeeps peer (hship.keeps peer h), ?_⟩
      refine htotal.trans ?_
      rw [hship.total, told, Event.sum_append]
      omega

theorem counts_commit {α : Type} (n n' : Node) (hf : Worker.Tally f g)
    (hdispatcher : n'.dispatcher = n.dispatcher) (houtbox : n'.outbox = n.outbox) (s : Response α)
    (hplain : ∀ e ∈ eventsOf s.effects, e.peer?.isNone) :
    Counts f g n (n'.commit s).2 (n.told s.effects) := by
  obtain ⟨hkeeps, htotal⟩ :=
    counts_foldl_perform hf { n' with registry := s.registry } s.effects hplain
  have hworkers : ({ n' with registry := s.registry } : Node).workers = n.workers := by
    rw [workers, workers, hdispatcher]
  rw [told_congr n { n' with registry := s.registry } hdispatcher houtbox,
    hworkers] at htotal
  rw [hworkers] at hkeeps
  exact ⟨hkeeps, htotal⟩

theorem plain_effects (hn : n.registry.Reachable) (a : Act) :
    ∀ e ∈ eventsOf (n.effects a), e.peer?.isNone := by
  intro e he
  rw [eventsOf_effects, List.mem_append, List.mem_append] at he
  rcases he with (he | he) | he
  · obtain ⟨active, rfl⟩ := mem_edges he
    rfl
  · obtain ⟨d, hd, he⟩ := List.mem_flatMap.mp he
    rw [Event.peer?_of_isDeed (Deed.isDeed_told (hn.done hd) he)]
    rfl
  · rcases mem_notes he with ⟨_, _, _, rfl⟩ | ⟨_, rfl⟩ <;> rfl

theorem counts_act (hf : Worker.Tally f g) (hn : n.registry.Reachable) {a : Act}
    (hsync : a ≠ .syncPeers) (hshutdown : a ≠ .shutdown) :
    Counts f g n (n.act a) (n.announces a) := by
  have hplain := plain_effects hn a
  cases a with
  | command c => exact counts_commit n n hf rfl rfl _ hplain
  | receive items => exact counts_commit n n hf rfl rfl _ hplain
  | evict choose =>
    exact counts_commit n { n with
      eviction := (n.eviction.run n.registry n.clock n.reportedIsolation choose).1 } hf rfl rfl _
      hplain
  | refresh =>
    exact counts_commit n { n with
      cache := (n.cache.refresh n.registry n.clock).1 } hf rfl rfl _ hplain
  | rebuild =>
    exact counts_commit n { n with
      cache := (n.cache.rebuild n.registry n.clock).1 } hf rfl rfl _ hplain
  | replicate i => exact counts_hand (Dispatcher.counts_replicate hf i) n
  | react peer r =>
    cases r with
    | resend i => exact counts_hand (Dispatcher.counts_enqueue hf peer i) n
    | adopt record lease =>
      rw [act, react_adopt]
      exact counts_commit n n hf rfl rfl _ hplain
  | work peer now answer => exact counts_hand (Dispatcher.counts_work hf peer now answer) n
  | want peers =>
    have hworkers : (n.act (.want peers)).workers = n.workers := by
      unfold workers Node.act
      cases n.dispatcher <;> rfl
    refine ⟨fun peer h => hworkers ▸ h, ?_⟩
    rw [hworkers]
    rfl
  | syncPeers => exact absurd rfl hsync
  | shutdown => exact absurd rfl hshutdown
  | fetch | purge | prune | rotate | scrape | clock | health | drain => exact .of_dispatcher rfl rfl

theorem stops_of_keeps {a : Act}
    (h : ∀ peer, n.workers.contains peer → (n.act a).workers.contains peer) : n.stops a = [] := by
  rw [stops, List.filter_eq_nil_iff.mpr, List.map_nil]
  intro e he
  have hget := (n.workers.get?_eq_some_iff e.1 e.2).mpr he
  simp [h e.1 (Option.isSome_of_eq_some hget)]

end Node

namespace KeyMap

theorem total_filter_add {κ α : Type} (f : α → Nat) (m : KeyMap κ α) (p : κ × α → Bool) :
    (m.filter p).total f + ((m.entries.filter fun e => !p e).map fun e => f e.2).sum =
      m.total f := by
  rw [total, total, ← List.sum_append, ← List.map_append]
  exact ((List.filter_append_perm p m.entries).map _).sum_eq

end KeyMap

namespace Replication.Dispatcher

variable {f : Worker → Nat}

theorem get?_addWorker (capacity : Nat) (workers : KeyMap Peer Worker) (peer other : Peer) :
    (addWorker capacity workers peer).get? other =
      (workers.get? other).or (if other = peer then some (.ofCapacity capacity) else none) := by
  unfold addWorker
  split
  · rename_i h
    obtain ⟨w, hw⟩ := Option.isSome_iff_exists.mp h
    split
    · rename_i hother
      rw [hother, hw]
      rfl
    · exact (Option.or_none ..).symm
  · rename_i h
    have hnone : workers.get? peer = none := by simpa [KeyMap.contains] using h
    rw [KeyMap.get?_insert]
    by_cases hother : other = peer
    · rw [if_pos hother.symm, if_pos hother, hother, hnone]
      rfl
    · rw [if_neg (Ne.symm hother), if_neg hother, Option.or_none]

theorem get?_foldl_addWorker (capacity : Nat) (peers : List Peer) (workers : KeyMap Peer Worker)
    (other : Peer) :
    (peers.foldl (addWorker capacity) workers).get? other =
      (workers.get? other).or (if other ∈ peers then some (.ofCapacity capacity) else none) := by
  induction peers generalizing workers with
  | nil => exact (Option.or_none ..).symm
  | cons peer rest ih =>
    rw [List.foldl_cons, ih, get?_addWorker, Option.or_assoc]
    by_cases hother : other = peer
    · simp [hother]
    · simp [hother]

theorem contains_foldl_addWorker (capacity : Nat) (peers : List Peer)
    (workers : KeyMap Peer Worker) (other : Peer) :
    (peers.foldl (addWorker capacity) workers).contains other =
      (workers.contains other || peers.contains other) := by
  rw [KeyMap.contains, get?_foldl_addWorker, Option.isSome_or, KeyMap.contains]
  by_cases hother : other ∈ peers <;> simp [hother]

theorem stopped_syncPeers (d : Dispatcher) {e : Peer × Worker} (he : e ∈ d.workers.entries)
    (hsync : d.inSync = false) : d.syncPeers.workers.contains e.1 = d.peers.contains e.1 := by
  have hget := (d.workers.get?_eq_some_iff e.1 e.2).mpr he
  have hafter : d.syncPeers.workers = d.peers.foldl (addWorker d.settings.queueCapacity)
      (d.workers.filter fun e => d.peers.contains e.1) := by
    rw [syncPeers, if_neg (by simp [hsync])]
  rw [hafter, contains_foldl_addWorker, KeyMap.contains, KeyMap.get?_filter, hget,
    Option.filter_some]
  cases d.peers.contains e.1 <;> rfl

theorem total_syncPeers_add (hf : ∀ capacity, f (.ofCapacity capacity) = 0) (d : Dispatcher) :
    d.syncPeers.workers.total f +
      ((d.workers.entries.filter fun e => !d.syncPeers.workers.contains e.1).map
        fun e => f e.2).sum = d.workers.total f := by
  cases hsync : d.inSync with
  | true =>
    have hsame : d.syncPeers = d := by rw [syncPeers, if_pos hsync]
    have hnone : d.workers.entries.filter (fun e => !d.workers.contains e.1) = [] := by
      refine List.filter_eq_nil_iff.mpr fun e he => ?_
      have hget := (d.workers.get?_eq_some_iff e.1 e.2).mpr he
      simp [KeyMap.contains, hget]
    rw [hsame, hnone]
    rfl
  | false =>
    have hstopped : d.workers.entries.filter (fun e => !d.syncPeers.workers.contains e.1) =
        d.workers.entries.filter fun e => !d.peers.contains e.1 :=
      List.filter_congr fun e he => by rw [d.stopped_syncPeers he hsync]
    have hkept : d.syncPeers.workers.total f =
        (d.workers.filter fun e => d.peers.contains e.1).total f := by
      rw [syncPeers, if_neg (by simp [hsync])]
      exact total_foldl_addWorker hf ..
    rw [hstopped, hkept]
    exact KeyMap.total_filter_add f d.workers fun e => d.peers.contains e.1

end Replication.Dispatcher

namespace Node

variable {n : Node} {f : Worker → Nat} {g : Event → Nat}

theorem total_stops (f : Worker → Nat) (n : Node) (a : Act) :
    ((n.stops a).map f).sum =
      ((n.workers.entries.filter fun e => !(n.act a).workers.contains e.1).map
        fun e => f e.2).sum := by
  rw [stops, List.map_map]
  rfl

/-- The statistics of the workers at work and of those that are stopped grow by what is told. -/
theorem total_act (hf : Worker.Tally f g) (hn : n.registry.Reachable) (a : Act) :
    (n.act a).workers.total f + ((n.stops a).map f).sum =
      n.workers.total f + Event.sum g (n.announces a) := by
  by_cases hsync : a = .syncPeers
  · subst hsync
    rw [total_stops, workers, workers]
    cases hd : n.dispatcher with
    | none =>
      simp only [act, syncPeers, hd]
      rfl
    | some d =>
      simp only [act, syncPeers, hd]
      exact d.total_syncPeers_add hf.fresh
  by_cases hshutdown : a = .shutdown
  · subst hshutdown
    have hafter : (n.act .shutdown).workers = .empty := by
      unfold workers Node.act
      cases n.dispatcher <;> rfl
    have hall : n.workers.entries.filter
        (fun e => !(KeyMap.empty : KeyMap Peer Worker).contains e.1) = n.workers.entries :=
      List.filter_eq_self.mpr fun _ _ => rfl
    rw [total_stops, hafter, hall]
    exact Nat.zero_add _
  have hcounts := counts_act hf hn hsync hshutdown
  rw [stops_of_keeps hcounts.keeps]
  exact hcounts.total

end Node

end ServiceRegistry
