import ServiceRegistry.Proofs.Cluster.Rounds
import ServiceRegistry.Proofs.Eviction.Cycle
import ServiceRegistry.Proofs.Node.Tally

/-! # Workers and the peers that are found

The set of workers is compared with the peers that are found, first by its size and its members
alone. Both ways come to the same: `get?_syncPeers` says which workers there are afterwards, and
`sync_reconciles` what becomes of them until other peers are found.
-/

namespace ServiceRegistry

set_option autoImplicit false

theorem nodup_eraseDups {α : Type} [DecidableEq α] : ∀ l : List α, l.eraseDups.Nodup
  | [] => List.nodup_nil
  | a :: rest => by
    rw [List.eraseDups_cons]
    exact List.nodup_cons.mpr ⟨by simp [List.mem_eraseDups], nodup_eraseDups _⟩
termination_by l => l.length
decreasing_by exact Nat.lt_succ_of_le (List.length_filter_le ..)

namespace Replication.Dispatcher

variable {d : Dispatcher} {found : List Peer} {peer : Peer}

/-- There is one worker for each of some peers, and no other. -/
def Serves (d : Dispatcher) (found : List Peer) : Prop := Enumerates d.workers.keys (· ∈ found)

theorem serves_iff (d : Dispatcher) (found : List Peer) :
    d.Serves found ↔ ∀ peer, (d.workers.get? peer).isSome ↔ peer ∈ found :=
  ⟨fun h peer => (d.workers.mem_keys peer).symm.trans (h.mem_iff peer),
    fun h => ⟨d.workers.distinct, fun peer => (d.workers.mem_keys peer).trans (h peer)⟩⟩

theorem Serves.get?_eq_none (h : d.Serves found) (hpeer : peer ∉ found) :
    d.workers.get? peer = none :=
  Option.not_isSome_iff_eq_none.mp fun hsome => hpeer (((serves_iff d found).mp h peer).mp hsome)

theorem Serves.congr {found' : List Peer} (h : d.Serves found)
    (hsame : ∀ peer, peer ∈ found' ↔ peer ∈ found) : d.Serves found' :=
  Enumerates.congr h fun peer => (hsame peer).symm

/-- As many workers as there are peers, and one for each of these: that leaves no other worker. -/
theorem inSync_iff (d : Dispatcher) : d.inSync = true ↔ d.Serves d.peers := by
  have hpeers : Enumerates d.peers.eraseDups (· ∈ d.peers) :=
    ⟨nodup_eraseDups _, fun _ => List.mem_eraseDups⟩
  have hsize : d.workers.size = d.workers.keys.length := (List.length_map _).symm
  rw [inSync, Bool.and_eq_true, beq_iff_eq, List.all_eq_true, hsize]
  constructor
  · rintro ⟨hlength, hall⟩
    have hsubset : d.peers.eraseDups ⊆ d.workers.keys := fun peer h =>
      (d.workers.mem_keys peer).mpr (hall peer ((hpeers.mem_iff peer).mp h))
    have hperm := (List.subperm_of_subset hpeers.nodup hsubset).perm_of_length_le hlength.le
    exact ⟨d.workers.distinct, fun peer => (hperm.mem_iff).symm.trans (hpeers.mem_iff peer)⟩
  · intro h
    exact ⟨h.length_eq hpeers, fun peer hpeer => ((serves_iff d d.peers).mp h peer).mpr hpeer⟩

theorem get?_syncPeers (d : Dispatcher) (peer : Peer) :
    d.syncPeers.workers.get? peer =
      if peer ∈ d.peers then
        some ((d.workers.get? peer).getD (.ofCapacity d.settings.queueCapacity))
      else none := by
  unfold syncPeers
  split
  · rename_i hsync
    have hserves := (inSync_iff d).mp hsync
    split
    · rename_i hpeer
      obtain ⟨w, hw⟩ := Option.isSome_iff_exists.mp (((serves_iff ..).mp hserves peer).mpr hpeer)
      rw [hw]
      rfl
    · rename_i hpeer
      exact hserves.get?_eq_none hpeer
  · rw [get?_foldl_addWorker, KeyMap.get?_filter]
    by_cases hpeer : peer ∈ d.peers
    · cases hw : d.workers.get? peer <;> simp [hpeer, Option.filter_some]
    · simp [hpeer]

theorem serves_syncPeers (d : Dispatcher) : d.syncPeers.Serves d.peers := by
  refine (serves_iff ..).mpr fun peer => ?_
  rw [get?_syncPeers]
  split <;> simp_all

def sync (d : Dispatcher) (found : List Peer) : Dispatcher :=
  ({ d with peers := found } : Dispatcher).syncPeers

theorem Serves.sync_eq (h : d.Serves found) : d.sync found = { d with peers := found } :=
  if_pos ((inSync_iff { d with peers := found }).mpr h)

/-- What is done with a dispatcher: items are handed to it, workers move, peers are named as wanted
or found. -/
inductive Use where
  | replicate (i : Item)
  | enqueue (peer : Peer) (i : Item)
  | work (peer : Peer) (now : Nat) (answer : Answer)
  | want (peers : List Peer)
  | sync (found : List Peer)

/-- No other peers are found than these, in any order and any number of times. -/
def Use.Within (found : List Peer) : Use → Prop
  | .sync found' => ∀ peer, peer ∈ found' ↔ peer ∈ found
  | _ => True

def use (d : Dispatcher) : Use → Dispatcher
  | .replicate i => (d.replicate i).1
  | .enqueue peer i => (d.enqueue peer i).1
  | .work peer now answer => (d.work peer now answer).1
  | .want peers => { d with peers }
  | .sync found => d.sync found

theorem isSome_work (d : Dispatcher) (peer other : Peer) (now : Nat) (answer : Answer) :
    ((d.work peer now answer).1.workers.get? other).isSome = (d.workers.get? other).isSome := by
  unfold work
  cases hw : d.workers.get? peer with
  | none => rfl
  | some w =>
    by_cases hother : peer = other
    · subst hother
      simp [hw]
    · simp [hother]

theorem Serves.use (h : d.Serves found) {u : Use} (hu : u.Within found) :
    (d.use u).Serves found := by
  cases u with
  | replicate i =>
    obtain ⟨workers, hafter, hget⟩ := d.replicate_workers i
    refine (serves_iff ..).mpr fun peer => ?_
    rw [Dispatcher.use, hafter, hget, Option.isSome_map]
    exact (serves_iff ..).mp h peer
  | enqueue peer i =>
    obtain ⟨workers, hafter, hget⟩ := d.enqueue_workers peer i
    refine (serves_iff ..).mpr fun other => ?_
    rw [Dispatcher.use, hafter, hget, ← (serves_iff ..).mp h other]
    split
    · rw [Option.isSome_map]
    · rfl
  | work peer now answer =>
    refine (serves_iff ..).mpr fun other => ?_
    rw [Dispatcher.use, isSome_work]
    exact (serves_iff ..).mp h other
  | want peers => exact h
  | sync found' =>
    have hsame : d.sync found' = { d with peers := found' } := (h.congr hu).sync_eq
    rw [Dispatcher.use, hsame]
    exact h

theorem Serves.foldl_use (h : d.Serves found) {uses : List Use}
    (huses : ∀ u ∈ uses, u.Within found) : (uses.foldl Dispatcher.use d).Serves found := by
  induction uses generalizing d with
  | nil => exact h
  | cons u rest ih =>
    obtain ⟨hu, hrest⟩ := List.forall_mem_cons.mp huses
    exact ih (h.use hu) hrest

/-- Once some peers are found there is one worker for each of them and no other: those that were
there are left as they are, the others begin with nothing. To find the same peers again changes
nothing, and until others are found each item is pushed once to each of them and to no other. -/
theorem sync_reconciles (d : Dispatcher) (found : List Peer) :
    let after := d.sync found
    Enumerates after.workers.keys (· ∈ found) ∧
    (∀ peer ∈ found, ∀ w, d.workers.get? peer = some w → after.workers.get? peer = some w) ∧
    (∀ peer ∈ found, d.workers.get? peer = none →
      ∃ w, after.workers.get? peer = some w ∧ w.queue.toList = [] ∧ w.phase = .idle ∧
        w.stats = { healthy := true, sentBatches := 0, sentItems := 0, failedBatches := 0,
                    droppedItems := 0 }) ∧
    (∀ found', (∀ peer, peer ∈ found' ↔ peer ∈ found) →
      after.sync found' = { after with peers := found' }) ∧
    ∀ uses : List Use, (∀ u ∈ uses, u.Within found) →
      let later := uses.foldl use after
      Enumerates later.workers.keys (· ∈ found) ∧
      ∀ i, let pushed := (later.replicate i).1
        Enumerates pushed.workers.keys (· ∈ found) ∧
        ∀ peer ∈ found, ∃ w w', later.workers.get? peer = some w ∧
          pushed.workers.get? peer = some w' ∧ w'.queue = (w.queue.push i).2 ∧
          w'.phase = w.phase ∧
          w'.stats = { w.stats with
            droppedItems := w.stats.droppedItems + (w.queue.push i).1 } := by
  intro after
  have hserves : after.Serves found := serves_syncPeers _
  have hget (peer : Peer) (hpeer : peer ∈ found) : after.workers.get? peer =
      some ((d.workers.get? peer).getD (.ofCapacity d.settings.queueCapacity)) :=
    (get?_syncPeers _ peer).trans (if_pos hpeer)
  refine ⟨hserves, ?survivors, ?newcomers, fun found' hsame => (hserves.congr hsame).sync_eq,
    fun uses huses => ?later⟩
  case survivors =>
    intro peer hpeer w hw
    rw [hget peer hpeer, hw]
    rfl
  case newcomers =>
    intro peer hpeer hnone
    refine ⟨_, hget peer hpeer, ?_⟩
    rw [hnone]
    exact ⟨rfl, rfl, rfl⟩
  case later =>
    have hlater := hserves.foldl_use huses
    refine ⟨hlater, fun i => ⟨hlater.use (u := .replicate i) trivial, fun peer hpeer => ?_⟩⟩
    obtain ⟨w, hw⟩ := Option.isSome_iff_exists.mp (((serves_iff ..).mp hlater peer).mpr hpeer)
    obtain ⟨workers, hafter, hpush⟩ := (uses.foldl use after).replicate_workers i
    refine ⟨w, (w.push peer i).1, hw, ?_, rfl, rfl, rfl⟩
    rw [hafter, hpush, hw]
    rfl

/-- One peer stays with the item that waits for it, one leaves and one comes. -/
theorem sync_reconciles_moved :
    let item (id : String) : Item := { operation := .cancel, app := "WEB", id, time := 1 }
    let stays : Peer := ⟨"stays", 1⟩
    let leaves : Peer := ⟨"leaves", 1⟩
    let comes : Peer := ⟨"comes", 1⟩
    let d := ((({ settings := {}, peers := [] } : Dispatcher).sync [leaves, stays]).replicate
      (item "web-1")).1
    let after := d.sync [comes, stays, comes]
    let later := [Use.replicate (item "web-2"), .sync [stays, comes]].foldl use after
    let pushed := (later.replicate (item "web-3")).1
    let waiting (d : Dispatcher) (peer : Peer) := (d.workers.get? peer).map (·.queue.toList)
    waiting d stays = some [item "web-1"] ∧ after.workers.get? stays = d.workers.get? stays ∧
      waiting d comes = none ∧ waiting after comes = some [] ∧
      (d.workers.get? leaves).isSome = true ∧ leaves ∉ pushed.workers.keys ∧
      ∃ w w', later.workers.get? stays = some w ∧ pushed.workers.get? stays = some w' ∧
        w'.queue = (w.queue.push (item "web-3")).2 := by
  intro item stays leaves comes d after later pushed waiting
  obtain ⟨-, hsurvivors, hnewcomers, -, hlater⟩ := d.sync_reconciles [comes, stays, comes]
  have hstays : waiting d stays = some [item "web-1"] := by decide +kernel
  obtain ⟨w, hw, -⟩ := Option.map_eq_some_iff.mp hstays
  have hcomes : waiting d comes = none := by decide +kernel
  obtain ⟨w', hw', hempty, -⟩ :=
    hnewcomers comes (by simp) (Option.map_eq_none_iff.mp hcomes)
  obtain ⟨-, hpushed⟩ := hlater [.replicate (item "web-2"), .sync [stays, comes]] (by
    rintro u hu
    rcases List.mem_pair.mp hu with rfl | rfl
    · trivial
    · intro peer
      simp only [List.mem_cons, List.not_mem_nil, or_false]
      exact ⟨fun h => h.elim (.inr ∘ .inl) .inl, fun h => h.elim .inr id⟩)
  obtain ⟨hkeys, hpush⟩ := hpushed (item "web-3")
  obtain ⟨w₂, w₃, hw₂, hw₃, hqueue, -⟩ := hpush stays (by simp)
  refine ⟨hstays, (hsurvivors stays (by simp) w hw).trans hw.symm, hcomes, ?_,
    by decide +kernel, ?_⟩
  · simp only [waiting, after, hw', Option.map_some, hempty]
  · dsimp only [pushed, later, after]
    refine ⟨fun hmem => ?_, w₂, w₃, hw₂, hw₃, hqueue⟩
    have hfound := (hkeys.mem_iff leaves).mp hmem
    revert hfound
    decide +kernel

end Replication.Dispatcher

end ServiceRegistry
