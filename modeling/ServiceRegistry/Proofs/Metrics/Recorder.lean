import ServiceRegistry.Metrics

/-! # What the recorder counts

A counter shows the sum of what the events add to it, up to the wrap at 64 bits, and a gauge shows
the last value that an event gave it.
-/

namespace ServiceRegistry

set_option autoImplicit false

namespace Metric

variable {α : Type}

theorem value?_update (name name' : String) (f : α → α) (ms : List (Metric α)) :
    value? name (update name' f ms) =
      if name' = name then (value? name ms).map f else value? name ms := by
  have hsame : ((fun m : Metric α => decide (m.name = name)) ∘ fun m =>
      if m.name = name' then { m with value := f m.value } else m) =
      fun m => decide (m.name = name) := by
    funext m
    simp only [Function.comp_apply]
    split <;> rfl
  simp only [value?, update, List.find?_map, hsame]
  cases hfind : ms.find? (fun m => decide (m.name = name)) with
  | none => simp
  | some m =>
    have hname : m.name = name := by simpa using List.find?_some hfind
    simp only [Option.map_some, hname, eq_comm (a := name)]
    split <;> rfl

end Metric

namespace Metrics

variable {m : Metrics} {name name' : String}

/-- A counter has grown by some number since it was last looked at. -/
def Gains (name : String) (m m' : Metrics) (n : Nat) : Prop :=
  m'.counter? name = (m.counter? name).map (· + UInt64.ofNat n)

theorem Gains.of_eq {m' : Metrics} (h : m'.counter? name = m.counter? name) :
    Gains name m m' 0 := by
  rw [Gains, h]
  exact (congrArg (Option.map · _) (funext UInt64.add_zero)).trans Option.map_id_apply |>.symm

theorem Gains.trans {m' m'' : Metrics} {n n' : Nat} (h : Gains name m m' n)
    (h' : Gains name m' m'' n') : Gains name m m'' (n + n') := by
  rw [Gains, h', h, Option.map_map]
  congr 1
  funext v
  rw [Function.comp_apply, UInt64.ofNat_add, UInt64.add_assoc]

theorem gains_add (m : Metrics) (name name' : String) (n : Nat) :
    Gains name m (m.add name' (UInt64.ofNat n)) (if name' = name then n else 0) := by
  split
  · rename_i h
    rw [Gains, counter?, add, Metric.value?_update, if_pos h]
    rfl
  · rename_i h
    refine .of_eq ?_
    rw [counter?, add, Metric.value?_update, if_neg h]
    rfl

theorem gauge?_set (m : Metrics) (name name' : String) (n : Int64) :
    (m.set name' n).gauge? name =
      (m.gauge? name).map ((if name' = name then some n else none).getD ·) := by
  rw [gauge?, set, Metric.value?_update]
  split
  · rfl
  · simp [gauge?]

def gain (name : String) : Event → Nat
  | .changed _ kind operation _ _ _ => if changeCounter kind operation = name then 1 else 0
  | .renewed .. => if renewals = name then 1 else 0
  | .evicted .. => if evictions = name then 1 else 0
  | .evictionCycle _ _ suspended =>
    (if evictionCycles = name then 1 else 0) +
      if suspended ∧ suspendedCycles = name then 1 else 0
  | .selfPreservationChanged _ => 0
  | .replicationSent _ items => if itemsSent = name then items else 0
  | .replicationFailed .. => if batchesFailed = name then 1 else 0
  | .replicationDropped _ items => if itemsDropped = name then items else 0
  | .cacheRebuilt _ => if cacheRebuilds = name then 1 else 0

def setting? (name : String) : Event → Option Int64
  | .changed version .. => if registryVersion = name then some (Int64.ofNat version) else none
  | .selfPreservationChanged active =>
    if selfPreservation = name then some (if active then 1 else 0) else none
  | _ => none

theorem gains_record (m : Metrics) (name : String) (e : Event) :
    Gains name m (m.record e) (gain name e) := by
  cases e with
  | changed version kind operation app id replicated => exact gains_add m name _ 1
  | renewed | evicted | replicationFailed | cacheRebuilt => exact gains_add m name _ 1
  | evictionCycle expired evicted suspended =>
    have hcycle := gains_add m name evictionCycles 1
    cases suspended with
    | false => exact hcycle
    | true =>
      simp only [gain, true_and]
      exact hcycle.trans (gains_add _ name suspendedCycles 1)
  | selfPreservationChanged active => exact .of_eq rfl
  | replicationSent peer items | replicationDropped peer items => exact gains_add m name _ items

theorem gauge?_record (m : Metrics) (name : String) (e : Event) :
    (m.record e).gauge? name = (m.gauge? name).map ((setting? name e).getD ·) := by
  cases e with
  | changed version kind operation app id replicated => exact gauge?_set ..
  | selfPreservationChanged active => exact gauge?_set ..
  | evictionCycle expired evicted suspended =>
    cases suspended <;> exact Option.map_id_apply.symm
  | _ => exact Option.map_id_apply.symm

end Metrics

end ServiceRegistry
