import Mathlib.Algebra.Order.Ring.Nat
import ServiceRegistry.Proofs.Node.Acts

/-! # Batches that are sent again

A worker sends a batch until the peer takes it, refuses it, or has failed as often as it may. The
rests in between double, and each batch is counted and told of once: `Errand.retries_exactly`.
-/

namespace ServiceRegistry.Replication

set_option autoImplicit false

def passing : Answer → Bool
  | .ok _ => false
  | .error failure => failure.transient

/-- The first attempt whose answer is not a passing failure, and at most the last that the settings
allow. -/
def lastAttempt (s : DispatcherSettings) (script : Nat → Answer) : Nat :=
  ((List.range s.retries).find? fun i => !passing (script i)).getD s.retries

section Attempts

variable {s : DispatcherSettings} {script : Nat → Answer} {i : Nat}

theorem lastAttempt_spec (s : DispatcherSettings) (script : Nat → Answer) :
    lastAttempt s script ≤ s.retries ∧ (∀ i < lastAttempt s script, passing (script i) = true) ∧
      (lastAttempt s script < s.retries → passing (script (lastAttempt s script)) = false) := by
  unfold lastAttempt
  cases hfind : (List.range s.retries).find? fun i => !passing (script i) with
  | none =>
    have hall := List.find?_range_eq_none.mp hfind
    refine ⟨Nat.le_refl _, fun i hi => ?_, fun h => absurd h (Nat.lt_irrefl _)⟩
    simpa using hall i hi
  | some k =>
    obtain ⟨hk, hmem, hbefore⟩ := List.find?_range_eq_some.mp hfind
    refine ⟨Nat.le_of_lt (List.mem_range.mp hmem), fun i hi => ?_, fun _ => ?_⟩
    · simpa using hbefore i hi
    · simpa using hk

theorem backoffFactor_eq (i : Nat) : backoffFactor i = min (2 ^ i) (UInt32.size - 1) := by
  unfold backoffFactor
  split
  · rename_i h
    have hle : 2 ^ i ≤ 2 ^ 31 := Nat.pow_le_pow_right (by decide) (Nat.le_of_lt_succ h)
    rw [Nat.one_shiftLeft, Nat.min_eq_left (Nat.le_trans hle (by decide))]
  · rename_i h
    have hle : 2 ^ 32 ≤ 2 ^ i := Nat.pow_le_pow_right (by decide) (Nat.le_of_not_lt h)
    rw [Nat.min_eq_right (Nat.le_trans (by decide) hle)]

theorem conclude_of_lt (h : i < lastAttempt s script) :
    conclude s i (script i) = .again (s.backoff * min (2 ^ i) (UInt32.size - 1)) := by
  obtain ⟨hle, hpassing, -⟩ := lastAttempt_spec s script
  have hi := hpassing i h
  cases hanswer : script i with
  | ok outcomes =>
    rw [hanswer] at hi
    cases hi
  | error failure =>
    rw [hanswer] at hi
    simp only [conclude, ← backoffFactor_eq]
    exact if_pos ⟨hi, Nat.lt_of_lt_of_le h hle⟩

def lastConclusion (s : DispatcherSettings) (script : Nat → Answer) : Conclusion :=
  conclude s (lastAttempt s script) (script (lastAttempt s script))

theorem lastConclusion_eq (s : DispatcherSettings) (script : Nat → Answer) :
    lastConclusion s script =
      match script (lastAttempt s script) with
      | .ok outcomes => .accepted outcomes
      | .error failure => .lost failure := by
  obtain ⟨-, -, hlast⟩ := lastAttempt_spec s script
  unfold lastConclusion
  cases hanswer : script (lastAttempt s script) with
  | ok outcomes => rfl
  | error failure =>
    rw [hanswer] at hlast
    refine if_neg fun ⟨htransient, hlt⟩ => ?_
    exact Bool.false_ne_true ((hlast hlt).symm.trans htransient)

theorem settle_lastConclusion (s : DispatcherSettings) (script : Nat → Answer) (w : Worker)
    (now : Nat) (items : List Item) (attempt : Nat) :
    (w.settle now items attempt (lastConclusion s script)).phase = .idle := by
  rw [lastConclusion_eq]
  cases script (lastAttempt s script) <;> rfl

end Attempts

theorem PeerStats.count_apart {before after : PeerStats}
    (h : after = { before with droppedItems := after.droppedItems }) (items : List Item)
    (c : Conclusion) :
    after.count items c =
      { before.count items c with droppedItems := (after.count items c).droppedItems } := by
  rw [h]
  cases c <;> rfl

/-- What is seen of a worker that sends a batch, as each answer comes. -/
inductive Note where
  | sends (items : List Item)
  | waits (delay : Nat)
  | tells (e : Event)
  | returns (outcomes : Option (List Outcome))
  deriving DecidableEq, Repr

def Phase.waits (now : Nat) : Phase → List Note
  | .resting _ _ due => [.waits (due - now)]
  | _ => []

def Conclusion.returns : Conclusion → List Note
  | .accepted outcomes => [.returns (some outcomes)]
  | .again _ => []
  | .lost _ => [.returns none]

structure Errand where
  worker : Worker
  notes : List Note := []

namespace Errand

inductive Turn where
  | push (i : Item)
  | move (peers : List Peer) (now : Nat)

def Turn.isMove : Turn → Bool
  | .push _ => false
  | .move .. => true

def answer (script : Nat → Answer) : Phase → Answer
  | .sending _ attempt => script attempt
  | _ => .ok []

def step (s : DispatcherSettings) (peer : Peer) (script : Nat → Answer) (e : Errand) :
    Turn → Errand
  | .push i => { e with worker := (e.worker.push peer i).1 }
  | .move peers now =>
    let (w, events) :=
      e.worker.next { settings := s, peers } peer now (answer script e.worker.phase)
    match e.worker.phase with
    | .sending items attempt =>
      { worker := w
        notes := e.notes ++ .sends items :: (events.map .tells ++ w.phase.waits now ++
          (conclude s attempt (script attempt)).returns) }
    | _ => { e with worker := w }

def run (s : DispatcherSettings) (peer : Peer) (script : Nat → Answer) (e : Errand)
    (turns : List Turn) : Errand := turns.foldl (step s peer script) e

/-- The errand's worker moves as the dispatcher that has it lets it move. -/
theorem work_move (e : Errand) {d : Dispatcher} {peer : Peer}
    (h : d.workers.get? peer = some e.worker) (script : Nat → Answer) (now : Nat) :
    (d.work peer now (answer script e.worker.phase)).1.workers.get? peer =
      some (e.step d.settings peer script (.move d.peers now)).worker := by
  simp only [Dispatcher.work, h, KeyMap.get?_insert, if_true, step]
  cases hphase : e.worker.phase <;> simp only [Worker.next, hphase]

/-- The notes of the first attempts at a batch, all of them repeated. The rests double, by a factor
of 32 bits. -/
def tries (s : DispatcherSettings) (items : List Item) (attempts : Nat) : List Note :=
  (List.range attempts).flatMap fun i =>
    [.sends items, .waits (s.backoff * min (2 ^ i) (UInt32.size - 1))]

theorem tries_succ (s : DispatcherSettings) (items : List Item) (attempts : Nat) :
    tries s items (attempts + 1) = tries s items attempts ++
      [.sends items, .waits (s.backoff * min (2 ^ attempts) (UInt32.size - 1))] := by
  simp [tries, List.range_succ]

section Progress

variable (s : DispatcherSettings) (peer : Peer) (script : Nat → Answer) (items : List Item)
variable (before : PeerStats)

/-- All attempts so far are to be repeated, and the statistics say nothing of them. -/
structure Underway (attempts : Nat) (e : Errand) : Prop where
  stats : e.worker.stats = { before with droppedItems := e.worker.stats.droppedItems }
  notes : e.notes = tries s items attempts

structure Concluded (e : Errand) : Prop where
  phase : e.worker.phase = .idle
  stats : e.worker.stats =
    { before.count items (lastConclusion s script) with
      droppedItems := e.worker.stats.droppedItems }
  notes : e.notes = tries s items (lastAttempt s script) ++ .sends items ::
    ((Worker.report peer items (lastConclusion s script)).map .tells ++
      (lastConclusion s script).returns)

/-- Where the errand is after some moves: the worker sends and rests by turns. -/
def Progress (moves : Nat) (e : Errand) : Prop :=
  (∃ i ≤ lastAttempt s script, moves = 2 * i ∧ e.worker.phase = .sending items i ∧
      Underway s items before i e) ∨
    (∃ i < lastAttempt s script, moves = 2 * i + 1 ∧
      (∃ due, e.worker.phase = .resting items (i + 1) due) ∧ Underway s items before (i + 1) e) ∨
    moves = 2 * lastAttempt s script + 1 ∧ Concluded s peer script items before e

variable {s peer script items before} {e : Errand} {moves : Nat}

theorem Progress.push (h : Progress s peer script items before moves e) (i : Item) :
    Progress s peer script items before moves (e.step s peer script (.push i)) := by
  have hstats {t : PeerStats}
      (ht : e.worker.stats = { t with droppedItems := e.worker.stats.droppedItems }) :
      (e.worker.push peer i).1.stats =
        { t with droppedItems := (e.worker.push peer i).1.stats.droppedItems } := by
    simp only [Worker.push]
    rw [ht]
  rcases h with ⟨j, hj, hmoves, hphase, hunder⟩ | ⟨j, hj, hmoves, hphase, hunder⟩ |
    ⟨hmoves, hdone⟩
  · exact .inl ⟨j, hj, hmoves, hphase, hstats hunder.stats, hunder.notes⟩
  · exact .inr (.inl ⟨j, hj, hmoves, hphase, hstats hunder.stats, hunder.notes⟩)
  · exact .inr (.inr ⟨hmoves, hdone.phase, hstats hdone.stats, hdone.notes⟩)

theorem Progress.move (h : Progress s peer script items before moves e)
    (hmoves : moves ≤ 2 * lastAttempt s script) (peers : List Peer) (now : Nat) :
    Progress s peer script items before (moves + 1) (e.step s peer script (.move peers now)) := by
  rcases h with ⟨j, hj, rfl, hphase, hunder⟩ | ⟨j, hj, rfl, ⟨due, hphase⟩, hunder⟩ | ⟨rfl, -⟩
  · simp only [step, hphase, Worker.next, answer]
    rcases Nat.lt_or_eq_of_le hj with hlt | rfl
    · refine .inr (.inl ⟨j, hlt, rfl, ?_, ?_, ?_⟩)
      · simp only [conclude_of_lt hlt, Worker.settle]
        exact ⟨_, rfl⟩
      · simp only [conclude_of_lt hlt, Worker.settle, PeerStats.count]
        exact hunder.stats
      · rw [tries_succ, hunder.notes]
        simp [conclude_of_lt hlt, Worker.settle, Worker.report, Phase.waits, Conclusion.returns]
    · have hidle := settle_lastConclusion s script e.worker now items (lastAttempt s script)
      refine .inr (.inr ⟨rfl, hidle, PeerStats.count_apart hunder.stats .., ?_⟩)
      have hconclude : conclude s (lastAttempt s script) (script (lastAttempt s script)) =
        lastConclusion s script := rfl
      simp only [hunder.notes, hconclude, hidle, Phase.waits, List.append_nil]
  · simp only [step, hphase, Worker.next]
    exact .inl ⟨j + 1, hj, rfl, rfl, hunder.stats, hunder.notes⟩
  · omega

theorem Progress.run (h : Progress s peer script items before moves e) (turns : List Turn)
    (hmoves : moves + turns.countP Turn.isMove ≤ 2 * lastAttempt s script + 1) :
    Progress s peer script items before (moves + turns.countP Turn.isMove)
      (e.run s peer script turns) := by
  induction turns generalizing e moves with
  | nil => exact h
  | cons t rest ih =>
    cases t with
    | push i =>
      rw [List.countP_cons_of_neg (by simp [Turn.isMove])] at hmoves ⊢
      exact ih (h.push i) hmoves
    | move peers now =>
      rw [List.countP_cons_of_pos rfl, Nat.add_comm _ 1, ← Nat.add_assoc] at hmoves ⊢
      exact ih (h.move (by omega) peers now) hmoves

end Progress

/-- A batch is sent once more than there are passing failures, with a rest after each of these, and
is then done with: counted, told of and answered for once. -/
theorem retries_exactly (s : DispatcherSettings) (peer : Peer) (script : Nat → Answer) (w : Worker)
    (items : List Item) (turns : List Turn) (hphase : w.phase = .sending items 0)
    (hmoves : turns.countP Turn.isMove = 2 * lastAttempt s script + 1) :
    let e := (Errand.mk w []).run s peer script turns
    let tried := tries s items (lastAttempt s script)
    e.worker.phase = .idle ∧
      match script (lastAttempt s script) with
      | .ok outcomes =>
        e.notes = tried ++ [.sends items, .tells (.replicationSent peer.display items.length),
          .returns (some outcomes)] ∧
        e.worker.stats = {
          healthy := true
          sentBatches := w.stats.sentBatches + 1
          sentItems := w.stats.sentItems + items.length
          failedBatches := w.stats.failedBatches
          droppedItems := e.worker.stats.droppedItems }
      | .error failure =>
        e.notes = tried ++ [.sends items,
          .tells (.replicationFailed peer.display
            ((items.head?.map (·.operation)).getD .heartbeat) failure.message),
          .returns none] ∧
        e.worker.stats = {
          healthy := w.stats.healthy && !failure.transient
          sentBatches := w.stats.sentBatches
          sentItems := w.stats.sentItems
          failedBatches := w.stats.failedBatches + 1
          droppedItems := e.worker.stats.droppedItems } := by
  intro e tried
  have hstart : Progress s peer script items w.stats 0 ⟨w, []⟩ :=
    .inl ⟨0, Nat.zero_le _, rfl, hphase, rfl, rfl⟩
  have hend := hstart.run turns (by omega)
  rw [Nat.zero_add, hmoves] at hend
  obtain ⟨i, -, h, -⟩ | ⟨i, hlt, h, -⟩ | ⟨-, hphase, hstats, hnotes⟩ := hend
  · omega
  · omega
  refine ⟨hphase, ?_⟩
  rw [lastConclusion_eq] at hstats hnotes
  cases hanswer : script (lastAttempt s script) with
  | ok outcomes =>
    rw [hanswer] at hstats hnotes
    exact ⟨hnotes, hstats⟩
  | error failure =>
    rw [hanswer] at hstats hnotes
    exact ⟨hnotes, hstats⟩

/-- A peer that is busy twice takes the batch from a worker that may retry three times, but not
from one that may retry once. -/
theorem retries_exactly_busy :
    let peer : Peer := ⟨"peer", 1⟩
    let busy : Failure := ⟨peer.display, "busy", true⟩
    let item : Item := { operation := .cancel, app := "WEB", id := "web-1", time := 1 }
    let script (i : Nat) : Answer := if i < 2 then .error busy else .ok [.success]
    let w : Worker := { Worker.ofCapacity 10 with phase := .sending [item] 0 }
    let short : List Turn := [.move [peer] 0, .push item, .move [peer] 500, .move [peer] 510]
    let long := short ++ [.move [peer] 1510, .move [peer] 1520]
    let taken := (Errand.mk w []).run {} peer script long
    let lost := (Errand.mk w []).run { retries := 1 } peer script short
    w.phase = .sending [item] 0 ∧
      long.countP Turn.isMove = 2 * lastAttempt {} script + 1 ∧
      short.countP Turn.isMove = 2 * lastAttempt { retries := 1 } script + 1 ∧
      taken.notes = [.sends [item], .waits 500, .sends [item], .waits 1000, .sends [item],
        .tells (.replicationSent peer.display 1), .returns (some [.success])] ∧
      taken.worker.stats = ⟨true, 1, 1, 0, 0⟩ ∧
      lost.notes = [.sends [item], .waits 500, .sends [item],
        .tells (.replicationFailed peer.display .cancel busy.message), .returns none] ∧
      lost.worker.stats = ⟨false, 0, 0, 1, 0⟩ := by
  intro peer busy item script w short long taken lost
  have hlong : long.countP Turn.isMove = 2 * lastAttempt {} script + 1 := by decide
  have hshort : short.countP Turn.isMove = 2 * lastAttempt { retries := 1 } script + 1 := by decide
  obtain ⟨-, htaken, hsent⟩ := retries_exactly {} peer script w [item] long rfl hlong
  obtain ⟨-, hlost, hfailed⟩ :=
    retries_exactly { retries := 1 } peer script w [item] short rfl hshort
  exact ⟨rfl, hlong, hshort, htaken, hsent, hlost, hfailed⟩

end Errand

end ServiceRegistry.Replication
