import ServiceRegistry.Proofs.Replication.Origin

/-! # Convergence of a peer

An origin tells one peer of its operations through a batching queue, and batches of any size are
shipped at any moments. As long as the queue drops nothing, the items in it lead the peer to the
origin. So once the queue is empty, the peer holds what the origin holds.
-/

namespace ServiceRegistry

set_option autoImplicit false

open Replication

namespace Registry

variable {r : Registry}

theorem Sound.slot_receive_addressed (hr : r.Sound) (now : Millis) {i : Item}
    (hi : i.Addressed i.key) (k : Key) :
    (r.receive now i).registry.slot k =
      if i.key = k then (r.slot k).receive now i else r.slot k := by
  unfold Slot.receive
  cases hc : i.command? with
  | none =>
    rw [receive_registry, hc]
    exact (ite_self _).symm
  | some c => rw [hr.slot_receive now hc, hi.command_key hc]

theorem Sound.receiveAll (hr : r.Sound) (now : Millis) (items : List Item)
    (hitems : ∀ i ∈ items, i.Addressed i.key) :
    (r.receiveAll now items).registry.Sound ∧
      ∀ k, (r.receiveAll now items).registry.slot k =
        (items.filter (·.key = k)).foldl (fun p i => p.receive now i) (r.slot k) := by
  induction items generalizing r with
  | nil => exact ⟨hr, fun _ => rfl⟩
  | cons i rest ih =>
    obtain ⟨hi, hrest⟩ := List.forall_mem_cons.mp hitems
    obtain ⟨hsound, hslot⟩ := ih (hr.receive now i) hrest
    refine ⟨hsound, fun k => (hslot k).trans ?_⟩
    rw [hr.slot_receive_addressed now hi]
    by_cases hk : i.key = k
    · rw [if_pos hk, List.filter_cons_of_pos (by simpa using hk), List.foldl_cons]
    · rw [if_neg hk, List.filter_cons_of_neg (by simpa using hk)]

end Registry

theorem Slot.Leads.addressed {k : Key} {t : Millis} {p o : Slot} {items : List Item}
    (h : Leads k t p items o) : ∀ i ∈ items, i.Addressed k := by
  induction items generalizing p with
  | nil => exact fun _ hi => nomatch hi
  | cons i rest ih => exact List.forall_mem_cons.mpr ⟨h.1, ih (h.2.2 0)⟩

/-- An origin, the queue of what it tells of, and the peer that is told. -/
structure Link where
  origin : Registry
  queue : Queue
  peer : Registry
  clock : Millis

namespace Link

def start (originSettings peerSettings : RegistrySettings) (capacity : Nat)
    (clock peerClock : Millis) : Link :=
  { origin := .start originSettings clock
    queue := .ofCapacity capacity
    peer := .start peerSettings peerClock
    clock }

def call (l : Link) (now : Millis) (c : Command) : Link :=
  let s := l.origin.perform now c
  { l with
    origin := s.registry
    queue := (shipped s.effects).foldl (fun q i => (q.push i).2) l.queue
    clock := now }

def ship (l : Link) (now : Millis) (most : Nat) : Link :=
  let (items, queue) := l.queue.drain most
  { l with queue, peer := (l.peer.receiveAll now items).registry }

/-- What can become of a link while the clock of the origin does not go back. The peer may have
a clock of its own. -/
inductive Run : Link → Prop where
  | start (originSettings peerSettings : RegistrySettings) (capacity : Nat)
    {clock : Millis} (peerClock : Millis) : 0 < clock →
    Run (.start originSettings peerSettings capacity clock peerClock)
  | call {l : Link} {now : Millis} {c : Command} : Run l → l.clock ≤ now → c.Plain →
    Run (l.call now c)
  | ship {l : Link} (now : Millis) (most : Nat) : Run l → Run (l.ship now most)

/-- The items in the queue lead the peer to the origin. -/
structure OnCourse (l : Link) : Prop where
  origin : l.origin.Sound
  peer : l.peer.Sound
  clock : 0 < l.clock
  own : ∀ k, (l.origin.slot k).Own l.clock
  within : ∀ k, (l.peer.slot k).Within l.clock
  leads : ∀ k, (l.peer.slot k).Leads k l.clock (l.queue.toList.filter (·.key = k)) (l.origin.slot k)

variable {l : Link} {now : Millis} {c : Command}

theorem onCourse_start (originSettings peerSettings : RegistrySettings) (capacity : Nat)
    {clock : Millis} (peerClock : Millis) (hclock : 0 < clock) :
    (start originSettings peerSettings capacity clock peerClock).OnCourse where
  origin _ := .empty _
  peer _ := .empty _
  clock := hclock
  own _ _ _ h := nomatch h
  within _ _ h := nomatch h
  leads _ := ⟨rfl, fun _ h => nomatch h⟩

/-- A call queues nothing and leaves its slot as peers see it, or it places one item. -/
theorem queue_call {t : Millis} (hr : l.origin.Sound) (htidy : l.queue.Tidy)
    (hreports : Slot.Reports t now c (l.origin.slot c.key) ((l.origin.slot c.key).move now c))
    (hdropped : (l.call now c).queue.dropped = 0) :
    (l.call now c).queue.toList = l.queue.toList ∧
        ((l.origin.slot c.key).move now c).slot.kept = (l.origin.slot c.key).kept ∧
        ((l.origin.slot c.key).move now c).slot.override = (l.origin.slot c.key).override ∨
      ∃ i, (l.call now c).queue.toList = Pending.place i l.queue.toList ∧ i.Addressed c.key ∧
        Slot.Tells t (l.origin.slot c.key) ((l.origin.slot c.key).move now c).slot i := by
  have hacts := Registry.perform_acts hr.filed now c
  simp only [Link.call, hacts.effects] at hdropped ⊢
  cases hreports with
  | silent hshipped hkept hoverride =>
    rw [hshipped]
    exact .inl ⟨rfl, hkept, hoverride⟩
  | item i hshipped hi htells =>
    rw [hshipped] at hdropped ⊢
    obtain ⟨hle, hplace⟩ := htidy.dropped_push i
    have hbefore : l.queue.dropped = 0 := Nat.eq_zero_of_le_zero (hdropped ▸ hle)
    exact .inr ⟨i, hplace (hdropped.trans hbefore.symm), hi, htells⟩

theorem OnCourse.call (h : l.OnCourse) (htidy : l.queue.Tidy) (hnow : l.clock ≤ now)
    (hc : c.Plain) (hdropped : (l.call now c).queue.dropped = 0) : (l.call now c).OnCourse := by
  have hacts := Registry.perform_acts h.origin.filed now c
  have hpos : 0 < now := Int64.lt_of_lt_of_le h.clock hnow
  obtain ⟨hown, hreports⟩ := (h.own c.key).move (h.origin c.key) hc hnow hpos
  have hqueue := queue_call h.origin htidy hreports hdropped
  refine
    { origin := h.origin.perform now c
      peer := h.peer
      clock := hpos
      own := fun k => ?own
      within := fun k => (h.within k).mono hnow
      leads := fun k => ?leads }
  case own =>
    rw [show (l.call now c).origin.slot k = _ from hacts.slot k]
    split
    · exact hown
    · exact (h.own k).mono hnow
  case leads =>
    rw [show (l.call now c).origin.slot k = _ from hacts.slot k]
    by_cases hk : c.key = k
    · subst hk
      rw [if_pos rfl]
      rcases hqueue with ⟨hqueue, hkept, hoverride⟩ | ⟨i, hqueue, hi, htells⟩
      · rw [hqueue]
        exact ((h.leads c.key).mono hnow).congr hkept hoverride
      · rw [hqueue, Pending.filter_place, if_pos hi.key]
        exact (h.leads c.key).enqueue (h.peer c.key) (h.within c.key) htells hi hown hnow
    · rw [if_neg hk]
      rcases hqueue with ⟨hqueue, -⟩ | ⟨i, hqueue, hi, -⟩
      · rw [hqueue]
        exact (h.leads k).mono hnow
      · rw [hqueue, Pending.filter_place, if_neg (hi.key ▸ hk)]
        exact (h.leads k).mono hnow

theorem OnCourse.ship (h : l.OnCourse) (htidy : l.queue.Tidy) (now : Millis) (most : Nat) :
    (l.ship now most).OnCourse := by
  obtain ⟨-, hitems, hpending⟩ := htidy.drain most
  have hrest : (l.queue.drain most).2.toList = l.queue.toList.drop most :=
    congrArg Pending.items hpending
  have hshipped : (l.queue.drain most).1 = l.queue.toList.take most := hitems
  have haddressed : ∀ i ∈ l.queue.toList, i.Addressed i.key := by
    intro i hi
    exact (h.leads i.key).addressed i (List.mem_filter.mpr ⟨hi, by simp⟩)
  obtain ⟨hpeer, hslot⟩ := h.peer.receiveAll now (l.queue.toList.take most)
    fun i hi => haddressed i (List.mem_of_mem_take hi)
  have hreceived (k : Key) :
      (((l.ship now most).peer.slot k).Leads k l.clock
          ((l.queue.toList.drop most).filter (·.key = k)) (l.origin.slot k)) ∧
        ((l.ship now most).peer.slot k).Within l.clock := by
    have hleads := h.leads k
    rw [← List.take_append_drop most l.queue.toList, List.filter_append] at hleads
    obtain ⟨hleads, -, hwithin⟩ := hleads.receive (h.peer k) (h.within k) now
    simp only [Link.ship, hshipped, hslot]
    exact ⟨hleads, hwithin⟩
  refine
    { origin := h.origin
      peer := ?_
      clock := h.clock
      own := h.own
      within := fun k => (hreceived k).2
      leads := fun k => ?_ }
  · simp only [Link.ship, hshipped]
    exact hpeer
  · rw [show (l.ship now most).queue.toList = _ from hrest]
    exact (hreceived k).1

theorem Run.tidy (h : l.Run) : l.queue.Tidy := by
  induction h with
  | start => exact Queue.tidy_ofCapacity _
  | call _ _ _ ih => exact (ih.pushAll _).1
  | ship now most _ ih => exact (ih.drain most).1

theorem Run.onCourse (h : l.Run) (hdropped : l.queue.dropped = 0) : l.OnCourse := by
  induction h with
  | start originSettings peerSettings capacity peerClock hclock =>
    exact onCourse_start originSettings peerSettings capacity peerClock hclock
  | @call l now c hrun hnow hc ih =>
    have hle := (hrun.tidy.pushAll (shipped (l.origin.perform now c).effects)).2
    have hbefore : l.queue.dropped = 0 :=
      Nat.eq_zero_of_le_zero (Nat.le_trans hle (Nat.le_of_eq hdropped))
    exact (ih hbefore).call hrun.tidy hnow hc hdropped
  | ship now most hrun ih =>
    obtain ⟨-, -, hpending⟩ := hrun.tidy.drain most
    exact (ih ((congrArg Pending.dropped hpending).symm.trans hdropped)).ship hrun.tidy now most

/-- With an empty queue that never dropped an item, the peer has the instances that the origin
has. Their records agree but for the times and kinds of their changes, and so do the durations of
their leases and the imposed statuses. -/
theorem Run.peer_eq_origin (h : l.Run) (hdropped : l.queue.dropped = 0)
    (hempty : l.queue.isEmpty = true) (app id : String) :
    (l.peer.lease? app id).map (fun x => (x.holder.substance, x.duration)) =
        (l.origin.lease? app id).map (fun x => (x.holder.substance, x.duration)) ∧
      l.peer.override? app id = l.origin.override? app id := by
  have hcourse := h.onCourse hdropped
  have hleads := hcourse.leads (Registry.keyOf app id)
  rw [h.tidy.toList_eq_nil hempty] at hleads
  have hface := hleads.face
  simp only [Slot.face, Slot.kept, Option.map_map] at hface
  rw [Registry.lease?, Registry.lease?, hcourse.peer.held?_eq_stored?,
    hcourse.origin.held?_eq_stored?]
  exact ⟨congrArg Prod.fst hface, congrArg Prod.snd hface⟩

/-- A status is imposed and released again behind a registration that waits. The shipments part
the registration from the release. -/
theorem peer_eq_origin_of_release :
    let register := Command.register .client (.named "WEB" "web-1" "host" 80) none
    let l := ((((start {} {} 8 1 1).call 1 register).ship 2 8).call 3
      (.updateStatus .client "WEB" "web-1" .outOfService none)).ship 4 8
    let l' := (((l.call 5 register).call 6 (.deleteOverride .client "WEB" "web-1" .up none)).ship
      7 1).ship 8 1
    l'.Run ∧ l'.queue.dropped = 0 ∧ l'.queue.isEmpty = true ∧
      l.peer.override? "WEB" "web-1" = some .outOfService ∧
      (l'.peer.lease? "WEB" "web-1").map (fun x => (x.holder.substance, x.duration)) =
        (l'.origin.lease? "WEB" "web-1").map (fun x => (x.holder.substance, x.duration)) ∧
      l'.peer.override? "WEB" "web-1" = l'.origin.override? "WEB" "web-1" := by
  intro register l l'
  have hregister : register.Plain := .register none rfl nofun
  have hl : l.Run := by
    refine .ship 4 8 (.call ?_ (by decide +kernel) (.updateStatus "WEB" "web-1" nofun))
    exact .ship 2 8 (.call (.start {} {} 8 1 (by decide)) (by decide) hregister)
  have hl' : l'.Run := by
    refine .ship 8 1 (.ship 7 1 (.call ?_ (by decide +kernel) (.deleteOverride "WEB" "web-1" .up)))
    exact .call hl (by decide +kernel) hregister
  have hdropped : l'.queue.dropped = 0 := by decide +kernel
  have hempty : l'.queue.isEmpty = true := by decide +kernel
  refine ⟨hl', hdropped, hempty, ?_, ?_⟩
  · decide +kernel
  · exact Run.peer_eq_origin hl' hdropped hempty "WEB" "web-1"

end Link

end ServiceRegistry
