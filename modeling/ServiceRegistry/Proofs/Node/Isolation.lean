import Mathlib.Data.List.Induction
import ServiceRegistry.Proofs.Cluster.Rounds
import ServiceRegistry.Proofs.Node.Tally

/-! # Isolation

A node takes itself for isolated by the last word of each peer. A peer that refuses a batch has no
say in this: it stays lost if it was, although it answers (`Contact.isIsolated_iff_lost`).
-/

namespace ServiceRegistry

set_option autoImplicit false

open Replication

namespace Replication

inductive Ending where
  | taken
  | refused
  | lost
  deriving DecidableEq, Repr

def Conclusion.ending? : Conclusion → Option Ending
  | .accepted _ => some .taken
  | .again _ => none
  | .lost failure => some (if failure.transient then .lost else .refused)

def Ending.health (before : Bool) : Ending → Bool
  | .taken => true
  | .refused => before
  | .lost => false

def Worker.ending? (s : DispatcherSettings) (answer : Answer) (w : Worker) : Option Ending :=
  match w.phase with
  | .sending _ attempt => (conclude s attempt answer).ending?
  | _ => none

theorem PeerStats.healthy_count (s : PeerStats) (items : List Item) (c : Conclusion) :
    (s.count items c).healthy = c.ending?.toList.foldl Ending.health s.healthy := by
  cases c with
  | accepted outcomes => rfl
  | again delay => rfl
  | lost failure =>
    cases htransient : failure.transient <;>
      simp [count, Conclusion.ending?, Ending.health, htransient]

theorem Worker.healthy_next (d : Dispatcher) (peer : Peer) (now : Nat) (answer : Answer)
    (w : Worker) :
    (w.next d peer now answer).1.stats.healthy =
      (w.ending? d.settings answer).toList.foldl Ending.health w.stats.healthy := by
  unfold next ending?
  cases w.phase with
  | sending items attempt => exact w.stats.healthy_count items _
  | idle | gathering | resting => rfl

/-- The last ending that is no refusal decides. -/
theorem foldl_health_eq_false_iff (ends : List Ending) :
    ends.foldl Ending.health true = false ↔
      (ends.filter (· ≠ .refused)).getLast? = some .lost := by
  induction ends using List.reverseRecOn with
  | nil => simp
  | append_singleton ends e ih =>
    rw [List.foldl_append, List.filter_append]
    cases e with
    | taken => simp [Ending.health]
    | refused => simpa [Ending.health] using ih
    | lost => simp [Ending.health]

theorem getLast?_eq_lost_iff (ends : List Ending) :
    ends.getLast? = some .lost ↔
      (ends.filter (· ≠ .refused)).getLast? = some .lost ∧ ends.getLast? ≠ some .refused := by
  induction ends using List.reverseRecOn with
  | nil => simp
  | append_singleton ends e => cases e <;> simp

namespace Dispatcher

variable {d : Dispatcher} {peer other : Peer}

def healthy? (d : Dispatcher) (peer : Peer) : Option Bool :=
  (d.workers.get? peer).map (·.stats.healthy)

theorem isIsolated_iff (d : Dispatcher) :
    d.isIsolated = true ↔
      (∃ peer, (d.healthy? peer).isSome) ∧ ∀ peer, d.healthy? peer ≠ some true := by
  have hentry {peer : Peer} {w : Worker} :
      d.workers.get? peer = some w ↔ (peer, w) ∈ d.workers.entries :=
    d.workers.get?_eq_some_iff peer w
  rw [isIsolated, Bool.and_eq_true, List.all_eq_true]
  refine and_congr ⟨fun h => ?_, ?_⟩ ⟨fun h peer htrue => ?_, fun h w hw => ?_⟩
  · obtain ⟨⟨peer, w⟩, he⟩ := List.exists_mem_of_ne_nil _
      (by simpa [KeyMap.isEmpty] using h : d.workers.entries ≠ [])
    exact ⟨peer, by rw [healthy?, hentry.mpr he]; rfl⟩
  · rintro ⟨peer, h⟩
    obtain ⟨w, hw⟩ := Option.isSome_iff_exists.mp (Option.isSome_map.symm.trans h)
    have hne := List.ne_nil_of_mem (hentry.mp hw)
    simpa [KeyMap.isEmpty] using hne
  · obtain ⟨w, hw, hhealthy⟩ := Option.map_eq_some_iff.mp htrue
    have hunhealthy := h w (List.mem_map.mpr ⟨_, hentry.mp hw, rfl⟩)
    rw [hhealthy] at hunhealthy
    cases hunhealthy
  · obtain ⟨⟨peer, w⟩, he, rfl⟩ := List.mem_map.mp hw
    have hne := h peer
    rw [healthy?, hentry.mpr he] at hne
    simpa using hne

theorem healthy?_enqueue (d : Dispatcher) (peer other : Peer) (i : Item) :
    (d.enqueue other i).1.healthy? peer = d.healthy? peer := by
  obtain ⟨workers, hafter, hget⟩ := d.enqueue_workers other i
  rw [hafter, healthy?, healthy?, hget]
  split
  · exact Option.map_map ..
  · rfl

theorem healthy?_replicate (d : Dispatcher) (peer : Peer) (i : Item) :
    (d.replicate i).1.healthy? peer = d.healthy? peer := by
  obtain ⟨workers, hafter, hget⟩ := d.replicate_workers i
  rw [hafter, healthy?, healthy?, hget]
  exact Option.map_map ..

def ending? (d : Dispatcher) (peer : Peer) (answer : Answer) : Option Ending :=
  (d.workers.get? peer).bind (·.ending? d.settings answer)

theorem healthy?_work (d : Dispatcher) (peer : Peer) (now : Nat) (answer : Answer) :
    (d.work peer now answer).1.healthy? peer =
      (d.healthy? peer).map ((d.ending? peer answer).toList.foldl Ending.health) := by
  unfold work healthy? ending?
  cases hw : d.workers.get? peer with
  | none => simp [hw]
  | some w => simp [w.healthy_next]

theorem healthy?_work_of_ne (d : Dispatcher) (now : Nat) (answer : Answer) (h : other ≠ peer) :
    (d.work other now answer).1.healthy? peer = d.healthy? peer := by
  unfold work healthy?
  cases hw : d.workers.get? other with
  | none => rfl
  | some w => simp [h]

theorem healthy?_syncPeers {healthy : Bool} (h : d.syncPeers.healthy? peer = some healthy) :
    healthy = (d.healthy? peer).getD true := by
  obtain ⟨w, hw, rfl⟩ := Option.map_eq_some_iff.mp h
  unfold syncPeers at hw
  split at hw
  · rw [healthy?, hw]
    rfl
  · rw [get?_foldl_addWorker, KeyMap.get?_filter] at hw
    rcases Option.or_eq_some_iff.mp hw with hkept | ⟨hnone, hnew⟩
    · rw [healthy?, Option.eq_some_of_filter_eq_some hkept]
      rfl
    · split at hnew
      · rename_i hwanted
        cases hnew
        rw [healthy?]
        cases hbefore : d.workers.get? peer with
        | none => rfl
        | some w => simp [hbefore, hwanted] at hnone
      · cases hnew

end Dispatcher

end Replication

namespace Node

variable {n : Node} {peer : Peer}

def healthy? (n : Node) (peer : Peer) : Option Bool := (n.worker? peer).map (·.stats.healthy)

def ending? (n : Node) (peer : Peer) : Act → Option Ending
  | .work other _ answer =>
    if other = peer then n.dispatcher.bind (·.ending? peer answer) else none
  | _ => none

theorem healthy?_eq (n : Node) (peer : Peer) :
    n.healthy? peer = n.dispatcher.bind (·.healthy? peer) := Option.map_bind ..

theorem isIsolated_iff (n : Node) :
    n.isIsolated = true ↔
      (∃ peer, (n.worker? peer).isSome) ∧ ∀ peer, n.healthy? peer ≠ some true := by
  have hsome (peer : Peer) : (n.worker? peer).isSome = (n.healthy? peer).isSome :=
    Option.isSome_map.symm
  simp only [hsome, healthy?_eq, isIsolated]
  cases n.dispatcher with
  | none => simp
  | some d => exact d.isIsolated_iff

theorem healthy?_hand_eq (n : Node) (f : Dispatcher → Dispatcher × List Event) (peer : Peer) :
    (n.hand f).healthy? peer = n.dispatcher.bind fun d => (f d).1.healthy? peer := by
  obtain ⟨events, hhand⟩ := n.hand_eq f
  rw [hhand, healthy?_eq]
  exact Option.bind_map ..

theorem healthy?_hand {f : Dispatcher → Dispatcher × List Event}
    (hf : ∀ d : Dispatcher, (f d).1.healthy? peer = d.healthy? peer) (n : Node) :
    (n.hand f).healthy? peer = n.healthy? peer := by
  rw [healthy?_hand_eq, healthy?_eq]
  exact congrArg n.dispatcher.bind (funext hf)

theorem healthy?_ship (n : Node) (peer : Peer) (i : Item) :
    (n.ship i).healthy? peer = n.healthy? peer := by
  cases houtbox : n.outbox with
  | none =>
    rw [ship_eq_hand houtbox]
    exact healthy?_hand (fun d => d.healthy?_replicate peer i) n
  | some q => simp only [ship, houtbox, healthy?, worker?]

theorem healthy?_foldl_perform (n : Node) (peer : Peer) (effects : List Effect) :
    (effects.foldl perform n).healthy? peer = n.healthy? peer := by
  induction effects generalizing n with
  | nil => rfl
  | cons e rest ih =>
    rw [List.foldl_cons, ih]
    cases e with
    | emit e => rfl
    | ship i => exact n.healthy?_ship peer i

theorem healthy?_commit {α : Type} (n : Node) (peer : Peer) (s : Response α) :
    (n.commit s).2.healthy? peer = n.healthy? peer :=
  healthy?_foldl_perform { n with registry := s.registry } peer s.effects

/-- What an act leaves of a peer's health is what the batch that ends in it makes of it. -/
theorem healthy?_act (n : Node) (a : Act) {healthy : Bool}
    (h : (n.act a).healthy? peer = some healthy) :
    healthy = (n.ending? peer a).toList.foldl Ending.health ((n.healthy? peer).getD true) := by
  have hstay (hsame : (n.act a).healthy? peer = n.healthy? peer) (hnone : n.ending? peer a = none) :
      healthy = (n.ending? peer a).toList.foldl Ending.health ((n.healthy? peer).getD true) := by
    rw [hnone, ← hsame, h]
    rfl
  cases a with
  | command c => exact hstay (n.healthy?_commit peer _) rfl
  | receive items => exact hstay (n.healthy?_commit peer _) rfl
  | evict choose =>
    exact hstay (healthy?_commit { n with
      eviction := (n.eviction.run n.registry n.clock n.reportedIsolation choose).1 } peer _) rfl
  | refresh =>
    exact hstay (healthy?_commit { n with
      cache := (n.cache.refresh n.registry n.clock).1 } peer _) rfl
  | rebuild =>
    exact hstay (healthy?_commit { n with
      cache := (n.cache.rebuild n.registry n.clock).1 } peer _) rfl
  | replicate i => exact hstay (healthy?_hand (fun d => d.healthy?_replicate peer i) n) rfl
  | react other r =>
    cases r with
    | resend i => exact hstay (healthy?_hand (fun d => d.healthy?_enqueue peer other i) n) rfl
    | adopt record lease =>
      refine hstay ?_ rfl
      rw [act, react_adopt]
      exact n.healthy?_commit peer _
  | work other now answer =>
    by_cases hother : other = peer
    · subst hother
      rw [act, healthy?_hand_eq] at h
      obtain ⟨d, hd, h⟩ := Option.bind_eq_some_iff.mp h
      rw [d.healthy?_work] at h
      obtain ⟨before, hbefore, rfl⟩ := Option.map_eq_some_iff.mp h
      rw [ending?, if_pos rfl, healthy?_eq, hd, Option.bind_some, Option.bind_some, hbefore]
      rfl
    · refine hstay (healthy?_hand (fun d => ?_) n) (if_neg hother)
      exact d.healthy?_work_of_ne now answer hother
  | want peers =>
    refine hstay ?_ rfl
    rw [healthy?_eq, healthy?_eq]
    exact Option.bind_map ..
  | syncPeers =>
    rw [healthy?_eq] at h ⊢
    obtain ⟨d', hd', h⟩ := Option.bind_eq_some_iff.mp h
    obtain ⟨d, hd, rfl⟩ := Option.map_eq_some_iff.mp hd'
    rw [hd]
    exact Dispatcher.healthy?_syncPeers h
  | shutdown =>
    rw [healthy?_eq] at h
    obtain ⟨d', hd', h⟩ := Option.bind_eq_some_iff.mp h
    obtain ⟨d, hd, rfl⟩ := Option.map_eq_some_iff.mp hd'
    cases h
  | fetch | purge | prune | rotate | scrape | clock | health | drain => exact hstay rfl rfl

end Node

/-- A node, and how the batches to each peer ended since there is a worker for it. -/
structure Contact where
  node : Node
  ends : Peer → List Ending := fun _ => []

namespace Contact

def start (s : NodeSettings) (now : Millis) (outbox : Option Queue)
    (dispatcher : Option (DispatcherSettings × List Peer)) : Contact :=
  { node := .fresh s now outbox dispatcher }

def step (x : Contact) (a : Act) : Contact :=
  { node := x.node.act a
    ends := fun peer =>
      if ((x.node.act a).worker? peer).isSome then
        x.ends peer ++ (x.node.ending? peer a).toList
      else [] }

def run (x : Contact) (acts : List Act) : Contact := acts.foldl step x

def Accounts (x : Contact) : Prop :=
  ∀ peer, (x.node.healthy? peer).getD true = (x.ends peer).foldl Ending.health true

variable {x : Contact}

theorem accounts_start (s : NodeSettings) (now : Millis) (outbox : Option Queue)
    (dispatcher : Option (DispatcherSettings × List Peer)) :
    (start s now outbox dispatcher).Accounts := by
  intro peer
  cases dispatcher <;> rfl

theorem Accounts.step (h : x.Accounts) (a : Act) : (x.step a).Accounts := by
  intro peer
  rw [Contact.step]
  cases hworker : (x.node.act a).worker? peer with
  | none => simp [Node.healthy?, hworker]
  | some w =>
    have hhealthy : (x.node.act a).healthy? peer = some w.stats.healthy := by
      rw [Node.healthy?, hworker]
      rfl
    simp only [hhealthy, hworker, Option.getD_some, Option.isSome_some, if_true,
      List.foldl_append]
    rw [x.node.healthy?_act a hhealthy, h peer]

theorem Accounts.run (h : x.Accounts) (acts : List Act) : (x.run acts).Accounts :=
  List.foldlRecOn acts Contact.step h fun _ hx a _ => hx.step a

/-- A node is isolated if it has workers, and the last batch of each that was not refused was lost.
This is what the last batches say unless one of them was refused. -/
theorem isIsolated_iff_lost (s : NodeSettings) (now : Millis) (outbox : Option Queue)
    (dispatcher : Option (DispatcherSettings × List Peer)) (acts : List Act) :
    let x := (start s now outbox dispatcher).run acts
    (x.node.isIsolated = true ↔ (∃ peer, (x.node.worker? peer).isSome) ∧
      ∀ peer, (x.node.worker? peer).isSome →
        ((x.ends peer).filter (· ≠ .refused)).getLast? = some .lost) ∧
    ((∃ peer, (x.node.worker? peer).isSome) ∧
        (∀ peer, (x.node.worker? peer).isSome → (x.ends peer).getLast? = some .lost) ↔
      x.node.isIsolated = true ∧
        ∀ peer, (x.node.worker? peer).isSome → (x.ends peer).getLast? ≠ some .refused) := by
  intro x
  have haccounts : x.Accounts := (accounts_start s now outbox dispatcher).run acts
  have hlost (peer : Peer) : x.node.healthy? peer ≠ some true ↔
      ((x.node.worker? peer).isSome →
        ((x.ends peer).filter (· ≠ .refused)).getLast? = some .lost) := by
    rw [← foldl_health_eq_false_iff, ← haccounts peer, Node.healthy?]
    cases x.node.worker? peer <;> simp
  have hisolated := x.node.isIsolated_iff.trans (and_congr_right' (forall_congr' hlost))
  refine ⟨hisolated, ?_, ?_⟩
  · rintro ⟨hworkers, hlast⟩
    have hboth (peer : Peer) (h : (x.node.worker? peer).isSome) :=
      (getLast?_eq_lost_iff (x.ends peer)).mp (hlast peer h)
    exact ⟨hisolated.mpr ⟨hworkers, fun peer h => (hboth peer h).1⟩,
      fun peer h => (hboth peer h).2⟩
  · rintro ⟨h, hanswered⟩
    obtain ⟨hworkers, hlost⟩ := hisolated.mp h
    exact ⟨hworkers, fun peer h =>
      (getLast?_eq_lost_iff _).mpr ⟨hlost peer h, hanswered peer h⟩⟩

/-- The only peer fails and then refuses a batch: the node takes itself for isolated still. -/
theorem isIsolated_refused :
    let peer : Peer := ⟨"peer", 1⟩
    let item : Item := { operation := .cancel, app := "WEB", id := "web-1", time := 1 }
    let round (transient : Bool) : List Act :=
      [.replicate item, .work peer 0 (.ok []), .work peer 0 (.ok []),
        .work peer 0 (.error ⟨peer.display, "no", transient⟩)]
    let x := (start {} 1 none (some ({ retries := 0 }, [peer]))).run
      (.syncPeers :: (round true ++ round false))
    x.ends peer = [.lost, .refused] ∧ x.node.isIsolated = true ∧
      ¬ ∀ peer, (x.node.worker? peer).isSome → (x.ends peer).getLast? = some .lost := by
  intro peer item round x
  have hends : x.ends peer = [.lost, .refused] := by decide +kernel
  have hworker : (x.node.worker? peer).isSome := by decide +kernel
  refine ⟨hends, by decide +kernel, fun hlost => ?_⟩
  have hanswered := ((isIsolated_iff_lost {} 1 none (some ({ retries := 0 }, [peer]))
    (.syncPeers :: (round true ++ round false))).2.mp ⟨⟨peer, hworker⟩, hlost⟩).2 peer hworker
  exact hanswered (by rw [hends]; rfl)

end Contact

end ServiceRegistry
