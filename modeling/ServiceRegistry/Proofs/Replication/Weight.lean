import Mathlib.Algebra.Order.BigOperators.Group.List
import Mathlib.Algebra.Order.Ring.Nat
import ServiceRegistry.Proofs.Cluster.Requeue

/-! # Weights of items

A heartbeat weighs two, since the peer may ask for the registration, which is one more item. Any
other item weighs one. A push adds at most the weight of its item to a queue, and the registrations
that are sent again weigh no more than the heartbeats of the batch.
-/

namespace ServiceRegistry

set_option autoImplicit false

namespace KeyMap

variable {κ α : Type}

def total (f : α → Nat) (m : KeyMap κ α) : Nat := (m.entries.map fun e => f e.2).sum

theorem total_add (f g : α → Nat) (m : KeyMap κ α) :
    m.total (fun a => f a + g a) = m.total f + m.total g :=
  List.sum_map_add

theorem total_filter_le (f : α → Nat) (m : KeyMap κ α) (p : κ × α → Bool) :
    (m.filter p).total f ≤ m.total f :=
  (List.filter_sublist.map _).sum_le_sum fun _ _ => Nat.zero_le _

theorem sum_put [DecidableEq κ] (f : α → Nat) (k : κ) (b : α) (es : List (κ × α)) :
    ((put k b es).map fun e => f e.2).sum + ((lookup k es).map f).getD 0 =
      (es.map fun e => f e.2).sum + f b := by
  induction es with
  | nil => simp [put, lookup]
  | cons e rest ih =>
    simp only [put, lookup]
    split
    · simp only [List.map_cons, List.sum_cons, Option.map_some, Option.getD_some]
      omega
    · simp only [List.map_cons, List.sum_cons]
      omega

theorem total_insert [DecidableEq κ] (f : α → Nat) (m : KeyMap κ α) (k : κ) (b : α) :
    (m.insert k b).total f + ((m.get? k).map f).getD 0 = m.total f + f b :=
  sum_put f k b m.entries

end KeyMap

namespace Replication

def Item.weight (i : Item) : Nat := if i.operation = .heartbeat then 2 else 1

theorem Item.weight_absorb {pending incoming merged : Item}
    (h : pending.absorb incoming = some merged) :
    merged.weight ≤ pending.weight + incoming.weight := by
  unfold Item.absorb at h
  split at h <;> cases h <;> simp only [Item.weight]
  all_goals omega

def weight (items : List Item) : Nat := (items.map Item.weight).sum

def heartbeats (items : List Item) : Nat := items.countP (·.operation = .heartbeat)

theorem weight_append (items items' : List Item) :
    weight (items ++ items') = weight items + weight items' := by
  rw [weight, List.map_append, List.sum_append]
  rfl

theorem weight_cons (i : Item) (items : List Item) :
    weight (i :: items) = i.weight + weight items := rfl

theorem weight_eq (items : List Item) : weight items = items.length + heartbeats items := by
  induction items with
  | nil => rfl
  | cons i rest ih =>
    rw [weight_cons, ih, Item.weight, heartbeats, heartbeats, List.countP_cons]
    split <;> simp_all <;> omega

theorem weight_mono {items items' : List Item} (h : items.Sublist items') :
    weight items ≤ weight items' :=
  (h.map _).sum_le_sum fun _ _ => Nat.zero_le _

theorem weight_place_le (incoming : Item) (items : List Item) :
    weight (Pending.place incoming items) ≤ weight items + incoming.weight := by
  rcases Pending.split_last (fun i : Item => i.key = incoming.key) items with
    hnone | ⟨before, i, after, rfl, hi, hafter⟩
  · rw [Pending.place_of_absent hnone, weight_append]
    exact Nat.le_refl _
  · rw [Pending.place_of_split hi hafter]
    cases habsorb : i.absorb incoming with
    | none =>
      simp only [weight_append]
      exact Nat.le_refl _
    | some merged =>
      have hmerged := Item.weight_absorb habsorb
      simp only [weight_append, weight_cons]
      omega

theorem resent_cons (i : Item) (items : List Item) (o : Outcome) (outcomes : List Outcome) :
    resent (i :: items) (o :: outcomes) =
      ((reaction? i o).bind Reaction.resent?).toList ++ resent items outcomes := by
  simp only [resent, reactions, List.zip_cons_cons, List.filterMap_cons]
  cases reaction? i o with
  | none => rfl
  | some r => cases h : r.resent? <;> simp [h]

theorem weight_resent_le (items : List Item) (outcomes : List Outcome) :
    weight (resent items outcomes) ≤ heartbeats items := by
  induction items generalizing outcomes with
  | nil => exact Nat.le_refl _
  | cons i rest ih =>
    cases outcomes with
    | nil => exact Nat.zero_le _
    | cons o outcomes =>
      have hrest := ih outcomes
      have hfirst : weight ((reaction? i o).bind Reaction.resent?).toList ≤
          if i.operation = .heartbeat then 1 else 0 := by
        cases o with
        | notFound =>
          simp only [reaction?]
          split
          · rename_i hheartbeat
            rw [if_pos hheartbeat.1]
            exact Nat.le_refl _
          · exact Nat.zero_le _
        | conflict record => cases record <;> exact Nat.zero_le _
        | success | rejected => exact Nat.zero_le _
      rw [resent_cons, weight_append]
      simp only [heartbeats, List.countP_cons, decide_eq_true_eq] at hrest ⊢
      omega

def Conclusion.resent (items : List Item) (c : Conclusion) : List Item :=
  (c.reactions items).filterMap Reaction.resent?

theorem Conclusion.weight_resent_le (items : List Item) (c : Conclusion) :
    weight (c.resent items) ≤ heartbeats items := by
  cases c with
  | accepted outcomes => exact Replication.weight_resent_le items outcomes
  | again delay => exact Nat.zero_le _
  | lost failure => exact Nat.zero_le _

theorem Queue.Tidy.weight_push {q : Queue} (h : q.Tidy) (i : Item) :
    weight (q.push i).2.toList ≤ weight q.toList + i.weight :=
  (weight_mono (h.toList_push i).sublist).trans (weight_place_le i q.toList)

theorem Queue.Tidy.weight_drain {q : Queue} (h : q.Tidy) (most : Nat) :
    weight (q.drain most).2.toList + weight (q.drain most).1 = weight q.toList := by
  obtain ⟨-, hitems, hpending⟩ := h.drain most
  have hrest : (q.drain most).2.toList = q.toList.drop most := congrArg Pending.items hpending
  rw [hitems, hrest, Nat.add_comm, ← weight_append]
  exact congrArg weight (List.take_append_drop most q.toList)

def Phase.items : Phase → List Item
  | .sending items _ | .resting items .. => items
  | .idle | .gathering _ => []

def Worker.weight (w : Worker) : Nat := Replication.weight w.queue.toList

def Worker.awaited (w : Worker) : Nat := heartbeats w.phase.items

/-- A measure of workers that grows with the items that are pushed. -/
structure Worker.Gauge (f : Worker → Nat) : Prop where
  fresh : ∀ capacity, f (.ofCapacity capacity) = 0
  push : ∀ (peer : Peer) (w : Worker) (i : Item), w.queue.Tidy →
    f (w.push peer i).1 ≤ f w + i.weight

theorem Worker.gauge_weight : Worker.Gauge Worker.weight where
  fresh _ := rfl
  push _ _ i h := h.weight_push i

theorem Worker.gauge_load : Worker.Gauge fun w => w.weight + w.awaited where
  fresh _ := rfl
  push _ w i h := by
    have hpush := h.weight_push i
    change Replication.weight (w.queue.push i).2.toList + w.awaited ≤
      Replication.weight w.queue.toList + w.awaited + i.weight
    omega

/-- A worker that takes a batch gives up one for each item, even if it sends none of them. -/
theorem Worker.load_takeBatch {w : Worker} (h : w.queue.Tidy) (s : DispatcherSettings)
    (wanted : Bool) :
    (w.takeBatch s wanted).weight + (w.takeBatch s wanted).awaited +
      (w.queue.drain s.batchSize).1.length ≤ w.weight := by
  have hdrain := h.weight_drain s.batchSize
  have hsplit := weight_eq (w.queue.drain s.batchSize).1
  have hbatch : (w.takeBatch s wanted).awaited ≤ heartbeats (w.queue.drain s.batchSize).1 := by
    unfold Worker.takeBatch Worker.awaited
    simp only
    split
    · exact Nat.zero_le _
    · exact Nat.le_refl _
  have hbefore : w.weight = Replication.weight w.queue.toList := rfl
  have hafter : (w.takeBatch s wanted).weight =
      Replication.weight (w.queue.drain s.batchSize).2.toList := rfl
  omega

/-- A batch that is concluded gives up its heartbeats for what is sent again. -/
theorem Worker.load_settle {w : Worker} {items : List Item} {attempt : Nat}
    (h : w.phase = .sending items attempt) (now : Nat) (c : Conclusion) :
    (w.settle now items attempt c).weight + (w.settle now items attempt c).awaited +
      Replication.weight (c.resent items) ≤ w.weight + w.awaited := by
  have hresent := c.weight_resent_le items
  have hawaited : w.awaited = heartbeats items := by rw [Worker.awaited, h, Phase.items]
  rw [hawaited]
  cases c with
  | accepted outcomes => exact Nat.add_le_add_left hresent w.weight
  | again delay => exact Nat.le_refl _
  | lost failure => exact Nat.le_add_right _ _

namespace Dispatcher

variable {d : Dispatcher} {f : Worker → Nat}

theorem Tidy.total_enqueue (hf : Worker.Gauge f) (hd : d.Tidy) (peer : Peer) (i : Item) :
    (d.enqueue peer i).1.workers.total f ≤ d.workers.total f + i.weight := by
  unfold Dispatcher.enqueue
  cases hw : d.workers.get? peer with
  | none => exact Nat.le_add_right _ _
  | some w =>
    have hinsert := d.workers.total_insert f peer (w.push peer i).1
    have hpush := hf.push peer w i (hd peer w hw).tidy
    rw [hw] at hinsert
    simp only [Option.map_some, Option.getD_some] at hinsert ⊢
    omega

theorem total_addWorker (hf : ∀ capacity, f (.ofCapacity capacity) = 0) (capacity : Nat)
    (workers : KeyMap Peer Worker) (peer : Peer) :
    (addWorker capacity workers peer).total f = workers.total f := by
  unfold addWorker
  split
  · rfl
  · rename_i hnew
    have hinsert := workers.total_insert f peer (.ofCapacity capacity)
    have hnone : workers.get? peer = none := by simpa [KeyMap.contains] using hnew
    rw [hnone, hf] at hinsert
    exact hinsert

theorem total_foldl_addWorker (hf : ∀ capacity, f (.ofCapacity capacity) = 0) (capacity : Nat)
    (peers : List Peer) (workers : KeyMap Peer Worker) :
    (peers.foldl (addWorker capacity) workers).total f = workers.total f := by
  induction peers generalizing workers with
  | nil => rfl
  | cons peer rest ih => exact (ih _).trans (total_addWorker hf _ workers peer)

theorem total_syncPeers (hf : Worker.Gauge f) (d : Dispatcher) :
    d.syncPeers.workers.total f ≤ d.workers.total f := by
  unfold Dispatcher.syncPeers
  split
  · exact Nat.le_refl _
  · exact (total_foldl_addWorker hf.fresh ..).trans_le (KeyMap.total_filter_le ..)

end Dispatcher

end Replication

end ServiceRegistry
