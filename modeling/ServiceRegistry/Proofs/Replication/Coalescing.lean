import ServiceRegistry.Proofs.Replication.Convergence
import ServiceRegistry.Proofs.Replication.Tale

/-! # Coalesced items

A peer that is told of an instance by what has been coalesced in a queue ends up as one that is
told of every item. Of what comes before the last registration or cancellation nothing is left at
the end, unless the record of the peer is newer. What comes after it is merged into it, up to a
release of the override, and behind that the last change of the status decides.
-/

namespace ServiceRegistry

set_option autoImplicit false

open Replication

namespace Replication

def sinceReset : List Item → List Item
  | [] => []
  | i :: rest => if rest.any (·.Resets) then sinceReset rest else i :: rest

/-- A record of some time fits a sequence: if the last registration is older, and no cancellation
follows it, there is one before it exactly if something that it takes over is not older. -/
def Fits (t : Millis) (items : List Item) : Prop :=
  ∀ b ∈ (sinceReset items).head?, b.operation = .register → t ≤ b.dirtyAt ∨
    ((∃ i ∈ (sinceReset items).tail.takeWhile (·.operation ≠ .deleteStatusOverride),
        t ≤ i.dirtyAt) ↔
      ∃ i ∈ items, i.operation = .cancel)

instance (t : Millis) (items : List Item) : Decidable (Fits t items) :=
  inferInstanceAs (Decidable (∀ _ ∈ _, _))

theorem sinceReset_append {b : Item} {after : List Item} (hb : b.Resets)
    (hafter : ∀ i ∈ after, ¬ i.Resets) (before : List Item) :
    sinceReset (before ++ b :: after) = b :: after := by
  induction before with
  | nil =>
    have hnone : after.any (·.Resets) = false := by simpa using hafter
    rw [List.nil_append, sinceReset, hnone]
    rfl
  | cons i before ih =>
    have hsome : (before ++ b :: after).any (·.Resets) = true := by simp [hb]
    rw [List.cons_append, sinceReset, hsome]
    exact ih

theorem Fits.of_register {t : Millis} {before after : List Item} {b : Item}
    (h : Fits t (before ++ b :: after)) (hop : b.operation = .register)
    (hafter : ∀ i ∈ after, ¬ i.Resets) :
    t ≤ b.dirtyAt ∨
      ((∃ i ∈ after.takeWhile (·.operation ≠ .deleteStatusOverride), t ≤ i.dirtyAt) ↔
        ∃ i ∈ before, i.operation = .cancel) := by
  rw [Fits, sinceReset_append (.inl hop) hafter] at h
  refine (h b rfl hop).imp_right fun hiff => hiff.trans ?_
  constructor
  · rintro ⟨i, hi, hcancel⟩
    rcases List.mem_append.mp hi with hi | hi
    · exact ⟨i, hi, hcancel⟩
    · rcases List.mem_cons.mp hi with rfl | hi
      · cases hop.symm.trans hcancel
      · exact absurd (.inr hcancel) (hafter i hi)
  · rintro ⟨i, hi, hcancel⟩
    exact ⟨i, List.mem_append_left _ hi, hcancel⟩

theorem split_released (items : List Item) :
    ∃ taken rest, items = taken ++ rest ∧
      items.takeWhile (·.operation ≠ .deleteStatusOverride) = taken ∧
      (∀ i ∈ taken, i.operation ≠ .deleteStatusOverride) ∧
      ∀ j ∈ rest.head?, j.operation = .deleteStatusOverride := by
  let keeps (i : Item) : Bool := i.operation ≠ .deleteStatusOverride
  refine ⟨items.takeWhile keeps, items.dropWhile keeps, List.takeWhile_append_dropWhile.symm, rfl,
    fun i hi => ?_, fun j hj => ?_⟩
  · simpa [keeps] using List.all_eq_true.mp List.all_takeWhile i hi
  · have hhead := List.head?_dropWhile_not keeps items
    rw [Option.mem_def.mp hj] at hhead
    simpa [keeps] using hhead

end Replication

namespace Slot

variable {k : Key} {p o o' : Slot} {items before after : List Item} {b i : Item}
  {deliveries batch : List (Millis × Item)}

theorem Tale.addressed_enqueueAll (h : Tale k o items o') :
    ∀ i ∈ Pending.enqueueAll items [], i.Addressed k :=
  Pending.forall_enqueueAll (fun _ _ _ hi hj => Item.Addressed.absorb hi hj)
    (fun i hi => (h.sendable i hi).1) (List.forall_mem_nil _)

theorem Tale.enqueueAll_released (h : Tale k o (before ++ b :: after) o')
    (hop : b.operation = .register)
    (hafter : ∀ i ∈ after, ¬ i.Resets ∧ i.operation ≠ .deleteStatusOverride) {rest : List Item}
    (hrest : ∀ j ∈ rest.head?, j.operation = .deleteStatusOverride) :
    Pending.enqueueAll (before ++ b :: after ++ rest) [] =
      Pending.enqueueAll (before ++ b :: after) [] ++ Pending.enqueueAll rest [] := by
  obtain ⟨_, -, hspan⟩ := h.append
  obtain ⟨b', hwaits, ⟨hop', -⟩, -⟩ := hspan.renders_register hop hafter
  rw [Pending.enqueueAll_append, Pending.enqueueAll_replaced (.inl hop), hwaits,
    Pending.enqueueAll_behind rest _ (by simp), Pending.enqueueAll_released hop' hrest,
    List.append_assoc]
  rfl

theorem Tale.face_registered (h : Tale k o (before ++ b :: after) o') (hp : p.Sound k)
    (hop : b.operation = .register) (hafter : ∀ i ∈ after, ¬ i.Resets)
    (hascending : (before ++ b :: after).Pairwise (·.dirtyAt ≤ ·.dirtyAt))
    (hfits : ∀ q, p.kept = some q → Fits q.1.dirtyAt (before ++ b :: after))
    (hdeliveries : deliveries.map Prod.snd = before ++ b :: after)
    (hbatch : batch.map Prod.snd = Pending.enqueueAll (before ++ b :: after) []) :
    (p.receiveEach batch).face = (p.receiveEach deliveries).face := by
  have hplaced := fun q hq => (hfits q hq).of_register hop hafter
  obtain ⟨taken, rest, rfl, htaken, hkeeps, hhead⟩ := split_released after
  rw [htaken] at hplaced
  rw [← List.cons_append, ← List.append_assoc] at h hascending hdeliveries hbatch
  obtain ⟨hothers, hothers'⟩ := List.forall_mem_append.mp hafter
  have hmerged := fun i hi => And.intro (hothers i hi) (hkeeps i hi)
  obtain ⟨o₁, hspan, htail⟩ := h.append
  obtain ⟨hsorted, hsorted', hlater⟩ := List.pairwise_append.mp hascending
  rw [hspan.enqueueAll_released hop hmerged hhead] at hbatch
  obtain ⟨first, last, rfl, hfirst, hlast⟩ := List.map_eq_append_iff.mp hdeliveries
  obtain ⟨first', last', rfl, hfirst', hlast'⟩ := List.map_eq_append_iff.mp hbatch
  obtain ⟨i, hi, halike⟩ :=
    hspan.alike_registered hp hop hmerged hsorted hplaced hfirst hfirst'
  have hitems : ∀ j ∈ rest, j.Addressed k ∧ j.Sendable j.dirtyAt ∧ ¬ j.Resets :=
    fun j hj => ⟨(htail.sendable j hj).1, (htail.sendable j hj).2, hothers' j hj⟩
  have hsound := hp.receiveEach (forall_delivered hfirst fun j hj => (hspan.sendable j hj).1)
  have hsound' := hp.receiveEach (forall_delivered hfirst' hspan.addressed_enqueueAll)
  rw [receiveEach_append, receiveEach_append]
  exact halike.face_enqueued hsound hsound' hitems (hlater i (List.mem_append_right _ hi)) hsorted'
    hlast hlast'

theorem Tale.nil_of_cancel (h : Tale k o (before ++ i :: after) o') (hop : i.operation = .cancel)
    (hafter : ∀ j ∈ after, ¬ j.Resets) : after = [] := by
  obtain ⟨_, -, hrest⟩ := h.append
  cases hrest with
  | cons htold hrest =>
    cases hrest with
    | nil => rfl
    | @cons _ _ _ j _ htold' =>
      have hempty := congrArg kept ((htold.tells _ (Int64.le_refl _)).eq_of_cancel hop)
      have hresets := (htold'.tells _ (Int64.le_refl _)).operation_of_empty hempty
      exact absurd hresets (hafter j List.mem_cons_self)

theorem Sound.receiveEach_cancel (hp : p.Sound k) (hbefore : ∀ i ∈ before, i.Addressed k)
    (hop : i.operation = .cancel) (hdeliveries : deliveries.map Prod.snd = before ++ [i]) :
    p.receiveEach deliveries = {} := by
  obtain ⟨first, now, last, rfl, hfirst, hlast⟩ := delivered_split hdeliveries
  cases List.map_eq_nil_iff.mp hlast
  rw [receiveEach_append]
  exact (hp.receiveEach (forall_delivered hfirst hbefore)).receive_cancel hop now

/-- Told of every item or only of what waits, a peer ends up with the same slot. -/
theorem Tale.face_coalesced (h : Tale k o items o') (hp : p.Sound k)
    (hascending : items.Pairwise (·.dirtyAt ≤ ·.dirtyAt))
    (hfits : ∀ q, p.kept = some q → Fits q.1.dirtyAt items)
    (hdeliveries : deliveries.map Prod.snd = items)
    (hbatch : batch.map Prod.snd = Pending.enqueueAll items []) :
    (p.receiveEach batch).face = (p.receiveEach deliveries).face := by
  have hsendable := h.sendable
  rcases Pending.split_last Item.Resets items with hnone | ⟨before, b, after, rfl, hb, hafter⟩
  · have halike : Alike Int64.minValue p p := alike_of_view rfl
    have hitems : ∀ i ∈ items, i.Addressed k ∧ i.Sendable i.dirtyAt ∧ ¬ i.Resets :=
      fun i hi => ⟨(hsendable i hi).1, (hsendable i hi).2, hnone i hi⟩
    exact halike.face_enqueued hp hp hitems (fun _ _ => Int64.minValue_le _) hascending hdeliveries
      hbatch
  by_cases hop : b.operation = .register
  · exact h.face_registered hp hop hafter hascending hfits hdeliveries hbatch
  · have hop := hb.resolve_left hop
    cases h.nil_of_cancel hop hafter
    obtain ⟨o₁, hbefore, -⟩ := h.append
    have hwaiting := hbefore.addressed_enqueueAll
    rw [Pending.enqueueAll_replaced hb] at hbatch
    rw [hp.receiveEach_cancel (fun j hj => (hbefore.sendable j hj).1) hop hdeliveries,
      hp.receiveEach_cancel (fun j hj => hwaiting j (List.dropLast_subset _ hj)) hop hbatch]

end Slot

namespace Replication

theorem sinceReset_plain (items : List Item) :
    sinceReset (items.map Item.plain) = (sinceReset items).map Item.plain := by
  induction items with
  | nil => rfl
  | cons i rest ih =>
    have hany : (rest.map Item.plain).any (·.Resets) = rest.any (·.Resets) := List.any_map
    rw [List.map_cons, sinceReset, sinceReset, hany, ih]
    split <;> rfl

theorem exists_mem_plain_iff {P : Item → Prop} {items : List Item} :
    (∃ i ∈ items.map Item.plain, P i) ↔ ∃ i ∈ items, P i.plain := by
  constructor
  · rintro ⟨_, hmem, h⟩
    obtain ⟨i, hi, rfl⟩ := List.mem_map.mp hmem
    exact ⟨i, hi, h⟩
  · rintro ⟨i, hi, h⟩
    exact ⟨i.plain, List.mem_map_of_mem hi, h⟩

theorem Fits.plain {t : Millis} {items : List Item} (h : Fits t items) :
    Fits t (items.map Item.plain) := by
  intro _ hhead hop
  rw [sinceReset_plain, List.head?_map] at hhead
  obtain ⟨b, hb, rfl⟩ := Option.map_eq_some_iff.mp hhead
  rw [sinceReset_plain, ← List.map_tail, List.takeWhile_map, exists_mem_plain_iff,
    exists_mem_plain_iff]
  exact h b hb hop

structure Orderly (items : List Item) : Prop where
  positive : ∀ i ∈ items, 0 < i.dirtyAt
  ascending : items.Pairwise (·.dirtyAt ≤ ·.dirtyAt)
  known : ∀ i ∈ items, i.Known

instance (items : List Item) : Decidable (Orderly items) :=
  decidable_of_iff ((∀ i ∈ items, 0 < i.dirtyAt) ∧ items.Pairwise (·.dirtyAt ≤ ·.dirtyAt) ∧
    ∀ i ∈ items, i.Known)
    ⟨fun h => ⟨h.1, h.2.1, h.2.2⟩, fun h => ⟨h.positive, h.ascending, h.known⟩⟩

theorem Queue.toList_pushAll_ofCapacity {k : Key} {items : List Item} {capacity : Nat}
    (hkey : ∀ i ∈ items, i.key = k)
    (hroom : ((ofCapacity capacity).pushAll items).dropped = 0) :
    ((ofCapacity capacity).pushAll items).toList = Pending.enqueueAll items [] := by
  have hwaiting := (tidy_ofCapacity capacity).waiting_pushAll hroom
  have hheld : ∀ i ∈ ((ofCapacity capacity).pushAll items).toList, i.key = k := by
    intro i hi
    by_cases hk : i.key = k
    · exact hk
    · have hnone : items.filter (·.key = i.key) = [] := by
        simpa using fun j hj => hkey j hj ▸ Ne.symm hk
      have hmem : i ∈ ((ofCapacity capacity).pushAll items).waiting i.key :=
        List.mem_filter.mpr ⟨hi, decide_eq_true rfl⟩
      rw [hwaiting i.key, hnone] at hmem
      cases hmem
  have hall : items.filter (·.key = k) = items := by simpa using hkey
  have hlist : ((ofCapacity capacity).pushAll items).waiting k =
      ((ofCapacity capacity).pushAll items).toList := by simpa [waiting] using hheld
  rw [← hlist, hwaiting k, hall]
  rfl

end Replication

theorem Slot.Tale.face_foldl_receive {k : Key} {p o o' : Slot} {items : List Item}
    {deliveries : List (Millis × Item)} (h : Tale k o (items.map Item.plain) o') (hp : p.Sound k)
    (hascending : items.Pairwise (·.dirtyAt ≤ ·.dirtyAt))
    (hfits : ∀ q, p.kept = some q → Fits q.1.dirtyAt items)
    (hdeliveries : deliveries.map Prod.snd = items) (now : Millis) :
    ((Pending.enqueueAll items []).foldl (fun p i => p.receive now i) p).face =
      (p.receiveEach deliveries).face := by
  have hbatch : ((Pending.enqueueAll items []).map fun i => (now, i.plain)).map Prod.snd =
      Pending.enqueueAll (items.map Item.plain) [] := by
    rw [List.map_map]
    exact (Pending.enqueueAll_plain items []).symm
  have hplain : (deliveries.map fun d => (d.1, d.2.plain)).map Prod.snd = items.map Item.plain := by
    rw [← hdeliveries, List.map_map, List.map_map]
    rfl
  have hface := h.face_coalesced hp (List.pairwise_map.mpr hascending)
    (fun q hq => (hfits q hq).plain) hplain hbatch
  rw [receiveEach_plain] at hface
  simpa only [receiveEach, List.foldl_map, receive_plain] using hface

namespace Registry

variable {peer origin : Registry} {app id : String} {items : List Item}
  {deliveries : List (Millis × Item)}

/-- The record of an instance, times and kind of its last change apart, with the duration of its
lease, and the imposed status. -/
def shown (r : Registry) (app id : String) : Option (Instance × UInt64) × Option Status :=
  ((r.lease? app id).map fun l => (l.holder.substance, l.duration), r.override? app id)

theorem Sound.shown_eq_face (hr : peer.Sound) :
    peer.shown app id = (peer.slot (keyOf app id)).face := by
  rw [shown, hr.lease?_eq_slot_lease, Slot.face, Slot.kept, Option.map_map]
  rfl

/-- Told of every item, or only of what has been coalesced, a peer ends up with the same instance,
the same record, times and kind of its last change apart, and the same imposed status. -/
theorem Reachable.receiveAll_coalesced (hpeer : peer.Reachable) (horigin : origin.Reachable)
    {calls : List (Millis × Command)} (hcalls : ∀ call ∈ calls, call.2.origin = .client)
    (hitems : items = (origin.emitted calls).filter (·.key = keyOf app id))
    (horderly : Orderly items)
    (hfits : ∀ l ∈ peer.lease? app id, Fits l.holder.dirtyAt items)
    (hdeliveries : deliveries.map Prod.snd = items) {capacity most : Nat}
    (hroom : ((Queue.ofCapacity capacity).pushAll items).dropped = 0)
    (hmost : ((Queue.ofCapacity capacity).pushAll items).length ≤ most) (now : Millis) :
    let drained := (((Queue.ofCapacity capacity).pushAll items).drain most).1
    let batched := (peer.receiveAll now drained).registry
    let single := peer.receiveEach deliveries
    batched.shown app id = single.shown app id := by
  intro drained batched single
  have hkey : ∀ i ∈ items, i.key = keyOf app id := by
    intro i hi
    rw [hitems] at hi
    simpa using (List.mem_filter.mp hi).2
  have hdrained : drained = Pending.enqueueAll items [] := by
    rw [← Queue.toList_pushAll_ofCapacity hkey hroom]
    exact ((Queue.tidy_ofCapacity capacity).pushAll items).1.drain_of_length_le hmost
  obtain ⟨o', htale⟩ := horigin.tale (keyOf app id) hcalls fun i hi =>
    ⟨horderly.known i (hitems ▸ hi), horderly.positive i (hitems ▸ hi)⟩
  rw [← hitems] at htale
  have haddressed : ∀ i ∈ items, i.Addressed (keyOf app id) := fun i hi =>
    Item.addressed_plain_iff.mp (htale.sendable i.plain (List.mem_map_of_mem hi)).1
  have hwaiting : ∀ i ∈ drained, i.Addressed (keyOf app id) := by
    rw [hdrained]
    exact Pending.forall_enqueueAll (fun _ _ _ hi hj => hi.absorb hj) haddressed
      (List.forall_mem_nil _)
  have hall : drained.filter (·.key = keyOf app id) = drained := by
    simpa using fun i hi => (hwaiting i hi).key
  have hown : ∀ i ∈ drained, i.Addressed i.key := by
    intro i hi
    rw [(hwaiting i hi).key]
    exact hwaiting i hi
  have hcommand : ∀ d ∈ deliveries, ∀ c, d.2.command? = some c → c.key = keyOf app id :=
    fun d hd c => (Slot.forall_delivered hdeliveries haddressed d hd).command_key
  obtain ⟨hbatched, hslot⟩ := hpeer.sound.receiveAll now drained hown
  obtain ⟨hsingle, hslot'⟩ := hpeer.sound.slot_receiveEach hcommand
  rw [hbatched.shown_eq_face, hsingle.shown_eq_face, hslot, hslot', hall, hdrained]
  refine htale.face_foldl_receive (hpeer.sound _) horderly.ascending (fun q hq => ?_)
    hdeliveries now
  obtain ⟨l, hl, rfl⟩ := Option.map_eq_some_iff.mp hq
  exact hfits l (hpeer.sound.lease?_eq_slot_lease ▸ hl)

/-- A newer record of the peer gives way to a registration behind a cancellation that has taken
over an update newer than both. Of six items two are drained. -/
theorem receiveAll_coalesced_ahead :
    let x := Instance.named "WEB" "web-1" "host" 80
    let register (dirtyAt : Millis) : Command := .register .client { x with dirtyAt } none
    let calls : List (Millis × Command) := [(2, register 100), (3, .cancel .client "WEB" "web-1"),
      (4, register 200), (5, .updateStatus .client "WEB" "web-1" .outOfService (some 600)),
      (6, .deleteOverride .client "WEB" "web-1" .starting (some 700)),
      (7, .renew .client "WEB" "web-1" none)]
    let origin := start {} 1
    let peer := (origin.perform 2
      (.register .client { x with host := "elsewhere", dirtyAt := 500 } none)).registry
    let items := (origin.emitted calls).filter (·.key = keyOf "WEB" "web-1")
    let q := (Queue.ofCapacity 4).pushAll items
    let batched := (peer.receiveAll 9 (q.drain 4).1).registry
    let single := peer.receiveEach (items.map (Prod.mk 8))
    peer.Reachable ∧ origin.Reachable ∧ (∀ call ∈ calls, call.2.origin = .client) ∧
      Orderly items ∧ (∀ l ∈ peer.lease? "WEB" "web-1", Fits l.holder.dirtyAt items) ∧
      q.dropped = 0 ∧ q.length ≤ 4 ∧
      (q.drain 4).1.map (·.operation) = [.register, .deleteStatusOverride] ∧
      (batched.instance? "WEB" "web-1").map (fun y => (y.host, y.status)) =
        some ("host", .starting) ∧
      batched.shown "WEB" "web-1" = single.shown "WEB" "web-1" := by
  intro x register calls origin peer items q batched single
  have horigin : origin.Reachable := .start {} 1
  have hpeer : peer.Reachable := .perform 2 _ horigin
  have hcalls : ∀ call ∈ calls, call.2.origin = .client := by decide
  have horderly : Orderly items := by decide +kernel
  have hfits : ∀ l ∈ peer.lease? "WEB" "web-1", Fits l.holder.dirtyAt items := by decide +kernel
  have hroom : q.dropped = 0 := by decide +kernel
  have hmost : q.length ≤ 4 := by decide +kernel
  have hdeliveries : (items.map (Prod.mk (8 : Millis))).map Prod.snd = items := by
    simp [Function.comp_def]
  refine ⟨hpeer, horigin, hcalls, horderly, hfits, hroom, hmost, by decide +kernel,
    by decide +kernel, ?_⟩
  exact hpeer.receiveAll_coalesced horigin hcalls rfl horderly hfits hdeliveries hroom hmost 9

/-- What is coalesced can end up differently: when a cancellation is lost before a newer record of
the peer, when a registration takes over an update that is newer than that record, when the times
of change go back, when `unknown` is imposed, and when times of change are negative. -/
theorem coalescing_differs :
    let x := Instance.named "WEB" "web-1" "host" 80
    let register (dirtyAt : Millis) : Command := .register .client { x with dirtyAt } none
    let update (status : Status) (dirtyAt : Millis) : Command :=
      .updateStatus .client "WEB" "web-1" status (some dirtyAt)
    let empty := start {} 1
    let ahead := (empty.perform 2
      (.register .client { x with host := "elsewhere", dirtyAt := 500 } none)).registry
    let differs (peer : Registry) (commands : List Command) : Bool :=
      let items := empty.emitted (commands.map (Prod.mk 2))
      let q := (Queue.ofCapacity 8).pushAll items
      q.dropped = 0 ∧ (peer.receiveAll 3 (q.drain 8).1).registry.shown "WEB" "web-1" ≠
        (peer.receiveEach (items.map (Prod.mk 3))).shown "WEB" "web-1"
    empty.Reachable ∧ ahead.Reachable ∧
      differs ahead [register 100, .cancel .client "WEB" "web-1", register 200] ∧
      differs ahead [register 100, update .down 600] ∧
      differs empty [register 200, .updateStatus .client "WEB" "web-1" .down none] ∧
      differs empty [register 100, update .unknown 200] ∧
      differs empty [register (-3), update .down (-2),
        .register .client { x with host := "moved", dirtyAt := -1 } none] := by
  intro x register update empty ahead differs
  have hempty : empty.Reachable := .start {} 1
  refine ⟨hempty, .perform 2 _ hempty, ?_, ?_, ?_, ?_, ?_⟩
  all_goals decide +kernel

end Registry

end ServiceRegistry
