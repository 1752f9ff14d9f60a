import ServiceRegistry.Proofs.Node.Turns

/-! # Freshness of the cache

The chore that refreshes the cache waits for its timer and for the events of its node. While it
waits, with its first tick behind it and no event unread, the snapshot is that of the registry
(`Node.snapshot_fresh`). For a snapshot that is out of date there is a change that the chore has
still to read of, or a refresh that is due after some quiet time.
-/

namespace ServiceRegistry

set_option autoImplicit false

open Replication

namespace Node

variable {n : Node} {history : List Change} {sent : List Event}

theorem mirrors_fresh (s : NodeSettings) (now : Millis) (outbox : Option Queue)
    (dispatcher : Option (DispatcherSettings × List Peer)) :
    (fresh s now outbox dispatcher).cache.Mirrors [] (fresh s now outbox dispatcher).registry := by
  have hfollows := follows_fresh s now outbox dispatcher
  exact ResponseCache.mirrors_capture hfollows.reachable hfollows.registry rfl

theorem Follows.rebuild (h : n.Follows history sent) :
    (n.act .rebuild).cache.Mirrors history (n.act .rebuild).registry ∧
      (n.act .rebuild).cache.snapshot.version = history.length := by
  rw [Node.act, rebuildCache, cache_commit, registry_commit]
  have hreachable := h.reachable.purge n.clock
  have htraced := h.registry.purge n.clock
  exact ⟨ResponseCache.mirrors_capture hreachable htraced rfl, htraced.tracks.version⟩

theorem Follows.refresh (h : n.Follows history sent)
    (hmirrors : n.cache.Mirrors history n.registry) :
    (n.act .refresh).cache.Mirrors history (n.act .refresh).registry ∧
      (n.act .refresh).cache.snapshot.version = history.length := by
  rw [Node.act, refreshCache, cache_commit, registry_commit]
  obtain ⟨hmirrors, hversion, -⟩ := hmirrors.refresh h.reachable h.registry n.clock
  exact ⟨hmirrors, hversion⟩

theorem snapshot_act (n : Node) (a : Act) :
    a = .refresh ∨ a = .rebuild ∨ (n.act a).cache.snapshot = n.cache.snapshot := by
  cases a with
  | refresh => exact .inl rfl
  | rebuild => exact .inr (.inl rfl)
  | fetch key v =>
    refine .inr (.inr ?_)
    simp only [act, ResponseCache.fetch]
    split <;> rfl
  | command c | receive items | evict choose =>
    exact .inr (.inr (congrArg ResponseCache.snapshot (cache_commit _ _)))
  | replicate i =>
    obtain ⟨_, hhand⟩ := n.hand_eq (·.replicate i)
    exact .inr (.inr (congrArg (·.cache.snapshot) hhand))
  | react peer r =>
    cases r with
    | resend i =>
      obtain ⟨_, hhand⟩ := n.hand_eq (·.enqueue peer i)
      exact .inr (.inr (congrArg (·.cache.snapshot) hhand))
    | adopt record lease =>
      rw [act, react_adopt, cache_commit]
      exact .inr (.inr rfl)
  | work peer now answer =>
    obtain ⟨_, hhand⟩ := n.hand_eq (·.work peer now answer)
    exact .inr (.inr (congrArg (·.cache.snapshot) hhand))
  | purge | prune | rotate | scrape | clock | health | drain | want | syncPeers | shutdown =>
    exact .inr (.inr rfl)

/-- An act leaves the snapshot, or brings it up to date. -/
theorem Follows.mirrors_act (h : n.Follows history sent)
    (hmirrors : n.cache.Mirrors history n.registry) (a : Act) :
    (n.act a).cache.Mirrors (history ++ n.changes a) (n.act a).registry ∧
      ((n.act a).cache.snapshot.version = (history ++ n.changes a).length ∨
        (n.act a).cache.snapshot = n.cache.snapshot) := by
  by_cases hrefresh : a = .refresh
  · subst hrefresh
    rw [show n.changes .refresh = [] from rfl, List.append_nil]
    exact (h.refresh hmirrors).imp_right .inl
  rcases n.snapshot_act a with rfl | rfl | hsame
  · exact absurd rfl hrefresh
  · rw [show n.changes .rebuild = [] from rfl, List.append_nil]
    exact h.rebuild.imp_right .inl
  · have hextended := hmirrors.extend (dirty_act h.reachable hrefresh)
    exact ⟨hextended.congr hsame rfl, .inr hsame⟩

theorem mirrors_run (h : n.Follows history sent) (hmirrors : n.cache.Mirrors history n.registry)
    (acts : List Act) :
    ∃ history' sent', (n.run acts).Follows history' sent' ∧
      (n.run acts).cache.Mirrors history' (n.run acts).registry := by
  induction acts generalizing n history sent with
  | nil => exact ⟨history, sent, h, hmirrors⟩
  | cons a rest ih => exact ih (h.act a) (h.mirrors_act hmirrors a).1

theorem chores_run (n : Node) (acts : List Act) : (n.run acts).chores = n.chores := by
  induction acts generalizing n with
  | nil => rfl
  | cons a rest ih => exact (ih (n.act a)).trans (n.aside_act a).2.2

theorem chores_spend_of_nil (h : n.chores = []) (turns : List Turn) :
    (n.spend turns).chores = [] := by
  induction turns generalizing n with
  | nil => exact h
  | cons t rest ih =>
    refine ih ?_
    cases t with
    | act a => exact (n.aside_act a).2.2.trans h
    | chore now place => simp only [turn, doChore, h, List.getElem?_nil]

def Awaits (sent : List Event) (events : Receiver) : Prop :=
  ∃ i e, events.next ≤ i ∧ sent[i]? = some e ∧ e.isChange = true

theorem Awaits.append {sent : List Event} {events : Receiver} (h : Awaits sent events)
    (later : List Event) : Awaits (sent ++ later) events := by
  obtain ⟨i, e, hplace, he, hchange⟩ := h
  exact ⟨i, e, hplace, (List.getElem?_append_left (List.getElem?_eq_some_iff.mp he).1).trans he,
    hchange⟩

theorem isChange_of_announced? {e : Event} {w : WatchEvent} (h : e.announced? = some w) :
    e.isChange = true := by
  cases e <;> first | rfl | cases h

/-- What is true between the turns of a node that keeps its cache. -/
structure Keeps (started : Nat) (history : List Change) (sent : List Event) (events : Receiver)
    (tick : Nat) (quiet : Option Nat) (n : Node) : Prop where
  chores : n.chores = [.cache events tick quiet]
  follows : n.Follows history sent
  mirrors : n.cache.Mirrors history n.registry
  place : events.next ≤ sent.length
  fresh : started < tick → quiet = none →
    n.cache.snapshot.version = history.length ∨ Awaits sent events

variable {started tick : Nat} {events : Receiver} {quiet : Option Nat}

theorem Keeps.act (h : n.Keeps started history sent events tick quiet) (a : Act) :
    (n.act a).Keeps started (history ++ n.changes a) (sent ++ n.announces a) events tick quiet := by
  obtain ⟨hmirrors, hsnapshot⟩ := h.follows.mirrors_act h.mirrors a
  refine ⟨(n.aside_act a).2.2.trans h.chores, h.follows.act a, hmirrors, ?_,
    fun hticked hquiet => ?_⟩
  · rw [List.length_append]
    exact Nat.le_add_right_of_le h.place
  rcases hsnapshot with hcurrent | hsame
  · exact .inl hcurrent
  cases hchanges : n.changes a with
  | nil =>
    rw [List.append_nil]
    refine (h.fresh hticked hquiet).imp (fun hversion => ?_) fun hawaits => hawaits.append _
    rw [← hversion]
    exact congrArg Snapshot.version hsame
  | cons c rest =>
    have hannounced := announced_act h.follows.reachable a
    rw [hchanges, List.map_cons] at hannounced
    have hmem : WatchEvent.ofChange c ∈ (n.announces a).filterMap Event.announced? := by
      rw [hannounced]
      exact List.mem_cons_self
    obtain ⟨e, he, hchange⟩ := List.mem_filterMap.mp hmem
    obtain ⟨i, hi⟩ := List.mem_iff_getElem?.mp he
    refine .inr ⟨sent.length + i, e, Nat.le_add_right_of_le h.place, ?_,
      isChange_of_announced? hchange⟩
    rw [List.getElem?_append_right (Nat.le_add_right ..), Nat.add_sub_cancel_left]
    exact hi

theorem Keeps.renewed (h : n.Keeps started history sent events tick quiet) {a : Act}
    (hnone : n.changes a = []) (hversion : (n.act a).cache.snapshot.version = history.length)
    {events' : Receiver} (hplace : events'.next ≤ sent.length) (tick' : Nat) :
    ∃ sent', { n.act a with
      chores := (n.act a).chores.set 0 (.cache events' tick' none) }.Keeps started history sent'
      events' tick' none := by
  have hact := h.act a
  rw [hnone, List.append_nil] at hact
  refine ⟨_, ?_, hact.follows.congr rfl rfl, hact.mirrors, ?_,
    fun _ _ => .inl hversion⟩
  · simp only [hact.chores, List.set_cons_zero]
  · rw [List.length_append]
    exact Nat.le_add_right_of_le hplace

theorem Keeps.chore (h : n.Keeps started history sent events tick quiet) (now : Nat) :
    ∃ sent' events' tick' quiet',
      (n.doChore now 0).Keeps started history sent' events' tick' quiet' := by
  have hrefresh {events' : Receiver} (hplace : events'.next ≤ sent.length) (tick' : Nat) :=
    h.renewed (a := .refresh) rfl (h.follows.refresh h.mirrors).2 hplace tick'
  have hset (chore : Chore) : n.chores.set 0 chore = [chore] := by
    rw [h.chores]
    rfl
  rw [doChore, h.chores, List.getElem?_cons_zero]
  cases hquiet : quiet with
  | some due =>
    obtain ⟨sent', hkeeps⟩ := hrefresh (h.follows.channel.skim_le events) tick
    exact ⟨sent', n.events.skim events, tick, none, hkeeps⟩
  | none =>
    simp only [Chore.perform]
    split
    · obtain ⟨sent', hkeeps⟩ := hrefresh h.place (tick + n.cacheSettings.refreshInterval)
      exact ⟨sent', events, tick + n.cacheSettings.refreshInterval, none, hkeeps⟩
    have hreads := h.follows.channel.reads h.place
    have hplace := hreads.le_length h.follows.channel
    split
    · rename_i e events' hreceive
      rw [hreceive] at hreads hplace
      refine ⟨sent, events', tick, _, hset _, h.follows.congr rfl rfl, h.mirrors, hplace,
        fun hticked hnone => ?_⟩
      have hunchanged : e.isChange = false := by
        cases hchange : e.isChange with
        | false => rfl
        | true => simp [hchange] at hnone
      refine (h.fresh hticked hquiet).imp_right fun hawaits => ?_
      obtain ⟨i, e', hi, he', hchange⟩ := hawaits
      cases hreads with
      | message _ he =>
        -- The change that is awaited is not the event just read.
        have hne : events.next ≠ i := by
          rintro rfl
          rw [he] at he'
          rw [Option.some.inj he', hchange] at hunchanged
          cases hunchanged
        exact ⟨i, e', Nat.lt_of_le_of_ne hi hne, he', hchange⟩
    · rename_i missed events' hreceive
      rw [hreceive] at hplace
      obtain ⟨sent', hkeeps⟩ := h.renewed (a := .rebuild) rfl h.follows.rebuild.2 hplace tick
      exact ⟨sent', events', tick, none, hkeeps⟩
    · rename_i events' hreceive
      rw [hreceive] at hreads hplace
      cases hreads with
      | empty _ =>
        exact ⟨sent, _, tick, none, hset _, h.follows.congr rfl rfl, h.mirrors, h.place,
          hquiet ▸ h.fresh⟩

theorem Keeps.turn (h : n.Keeps started history sent events tick quiet) (t : Turn) :
    ∃ history' sent' events' tick' quiet',
      (n.turn t).Keeps started history' sent' events' tick' quiet' := by
  cases t with
  | act a => exact ⟨_, _, _, _, _, h.act a⟩
  | chore now place =>
    cases place with
    | zero => exact ⟨history, h.chore now⟩
    | succ place =>
      have hnone : n.doChore now (place + 1) = n := by
        simp only [doChore, h.chores, List.getElem?_cons_succ, List.getElem?_nil]
      exact ⟨_, _, _, _, _, hnone.symm ▸ h⟩

theorem Keeps.spend (h : n.Keeps started history sent events tick quiet) (turns : List Turn) :
    ∃ history' sent' events' tick' quiet',
      (n.spend turns).Keeps started history' sent' events' tick' quiet' := by
  induction turns generalizing n history sent events tick quiet with
  | nil => exact ⟨history, sent, events, tick, quiet, h⟩
  | cons t rest ih =>
    obtain ⟨_, _, _, _, _, hturn⟩ := h.turn t
    exact ih hturn

theorem keeps_startCache (hn : n.Follows history sent)
    (hmirrors : n.cache.Mirrors history n.registry) (hchores : n.chores = []) (now : Nat) :
    (n.startCache now).chores = [] ∨
      (n.startCache now).Keeps now history sent n.events.subscribe now none := by
  unfold startCache addTimed
  split
  · exact .inl hchores
  · refine .inr ⟨?_, hn.congr rfl rfl, hmirrors, Nat.le_of_eq hn.channel.count,
      fun hticked => absurd hticked (Nat.lt_irrefl now)⟩
    rw [addChore, hchores, List.nil_append]

/-- Whatever happens at a node, before and after it starts to keep its cache, the chore that is
waiting with nothing to read has left a snapshot of the registry as it is now. -/
theorem snapshot_fresh (s : NodeSettings) (now : Millis) (outbox : Option Queue)
    (dispatcher : Option (DispatcherSettings × List Peer)) (before : List Act) (started : Nat)
    (turns : List Turn) (events : Receiver) (tick : Nat) :
    let n := (((fresh s now outbox dispatcher).run before).startCache started).spend turns
    .cache events tick none ∈ n.chores → started < tick → n.events.hasNews events = false →
      n.cache.snapshot.version = n.registry.log.version ∧
        n.cache.snapshot.catalog = n.registry.catalog := by
  intro n hchore hticked hread
  obtain ⟨history, sent, hfollows, hmirrors⟩ := mirrors_run
    (follows_fresh s now outbox dispatcher) (mirrors_fresh s now outbox dispatcher) before
  have hnone : ((fresh s now outbox dispatcher).run before).chores = [] := chores_run _ before
  rcases keeps_startCache hfollows hmirrors hnone started with hidle | hstart
  · rw [show n.chores = [] from chores_spend_of_nil hidle turns] at hchore
    cases hchore
  obtain ⟨history, sent, events', tick', quiet, hkeeps⟩ := hstart.spend turns
  rw [show n.chores = _ from hkeeps.chores, List.mem_singleton] at hchore
  cases hchore
  have hversion : n.cache.snapshot.version = history.length := by
    rcases hkeeps.fresh hticked rfl with hversion | ⟨i, e, hi, he, -⟩
    · exact hversion
    · have hend := (hkeeps.follows.channel.hasNews_eq_false_iff hkeeps.place).mp hread
      have hlt := (List.getElem?_eq_some_iff.mp he).1
      omega
  have hregistry : n.registry.log.version = history.length :=
    hkeeps.follows.registry.tracks.version
  have hshows := hkeeps.mirrors.snapshot.shows
  rw [hversion, List.take_length, ← hkeeps.follows.registry.records, ← hregistry] at hshows
  exact ⟨hversion.trans hregistry.symm, hshows.unique hkeeps.follows.reachable.sound.catalog_shows⟩

/-- A change wakes the chore, another one comes in the quiet time, and one refresh shows both. -/
theorem snapshot_fresh_roused :
    let turns : List Turn := [.chore 0 0, .chore 1 0, .act (.enter "WEB" "web-1"), .chore 2 0,
      .act (.enter "WEB" "web-2"), .chore 502 0, .chore 503 0]
    let n := (((fresh {} 1 none none).run [.enter "WEB" "web-0"]).startCache 0).spend turns
    .cache ⟨5⟩ 30000 none ∈ n.chores ∧ 0 < 30000 ∧ n.events.hasNews ⟨5⟩ = false ∧
      n.cache.snapshot.version = 3 ∧ n.cache.snapshot.version = n.registry.log.version ∧
      n.cache.snapshot.catalog = n.registry.catalog := by
  intro turns n
  have hchore : .cache ⟨5⟩ 30000 none ∈ n.chores := by decide +kernel
  have hread : n.events.hasNews ⟨5⟩ = false := by decide +kernel
  have hfresh := snapshot_fresh {} 1 none none [.enter "WEB" "web-0"] 0 turns ⟨5⟩ 30000
  exact ⟨hchore, by decide, hread, by decide +kernel, hfresh hchore (by decide) hread⟩

end Node

end ServiceRegistry
