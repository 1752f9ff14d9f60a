import ServiceRegistry.Proofs.Replication.Sequence

/-! # What waits after a sequence

How the items about one instance merge while they wait, and what a peer makes of the result when
they only change the status: `Alike.face_enqueued`. A registration or a cancellation takes the
place of the last item before it, and the release of an override waits behind a registration.
-/

namespace ServiceRegistry

set_option autoImplicit false

open Replication

namespace Replication

theorem Item.absorb_operation {pending incoming merged : Item}
    (h : pending.absorb incoming = some merged) :
    merged.operation = pending.operation ∨ merged.operation = incoming.operation := by
  unfold Item.absorb at h
  split at h <;> cases h <;> simp

namespace Pending

variable {items before after pending : List Item} {i j x : Item}

theorem enqueueAll_append (items rest pending : List Item) :
    enqueueAll (items ++ rest) pending = enqueueAll rest (enqueueAll items pending) :=
  List.foldl_append

theorem enqueueAll_behind (items before : List Item) (h : pending ≠ []) :
    enqueueAll items (before ++ pending) = before ++ enqueueAll items pending := by
  induction items generalizing pending with
  | nil => rfl
  | cons i rest ih =>
    have hstep : enqueueAll (i :: rest) (before ++ pending) =
        enqueueAll rest (before ++ enqueue i pending) :=
      congrArg (enqueueAll rest) (enqueue_append i before h)
    exact hstep.trans (ih (enqueue_ne_nil i pending))

theorem enqueueAll_plain (items pending : List Item) :
    enqueueAll (items.map Item.plain) (pending.map Item.plain) =
      (enqueueAll items pending).map Item.plain := by
  induction items generalizing pending with
  | nil => rfl
  | cons i rest ih =>
    have hstep := congrArg (enqueueAll (rest.map Item.plain)) (enqueue_plain i pending)
    exact hstep.trans (ih (enqueue i pending))

theorem forall_enqueue {P : Item → Prop} (hpending : ∀ j ∈ pending, P j) (hi : P i)
    (habsorb : ∀ j ∈ pending, ∀ merged, j.absorb i = some merged → P merged) :
    ∀ j ∈ enqueue i pending, P j := by
  rcases List.eq_nil_or_concat pending with rfl | ⟨before, j, rfl⟩
  · exact List.forall_mem_singleton.mpr hi
  · rw [List.concat_eq_append] at hpending habsorb ⊢
    obtain ⟨hbefore, hj⟩ := List.forall_mem_append.mp hpending
    rw [enqueue_concat, enqueue]
    refine List.forall_mem_append.mpr ⟨hbefore, ?_⟩
    cases h : j.absorb i with
    | some merged => exact List.forall_mem_singleton.mpr (habsorb j (by simp) merged h)
    | none => exact List.forall_mem_append.mpr ⟨hj, List.forall_mem_singleton.mpr hi⟩

theorem forall_enqueueAll {P : Item → Prop}
    (habsorb : ∀ i j merged, P i → P j → i.absorb j = some merged → P merged)
    (hitems : ∀ i ∈ items, P i) (hpending : ∀ j ∈ pending, P j) :
    ∀ j ∈ enqueueAll items pending, P j := by
  induction items generalizing pending with
  | nil => exact hpending
  | cons i rest ih =>
    obtain ⟨hi, hrest⟩ := List.forall_mem_cons.mp hitems
    exact ih hrest
      (forall_enqueue hpending hi fun j hj merged => habsorb j i merged (hpending j hj) hi)

theorem enqueueAll_replaced (hi : i.Resets) (before after pending : List Item) :
    enqueueAll (before ++ i :: after) pending =
      (enqueueAll before pending).dropLast ++ enqueueAll after [i] := by
  have hsplit : enqueueAll (before ++ i :: after) pending =
      enqueueAll after (enqueue i (enqueueAll before pending)) := enqueueAll_append ..
  rw [hsplit, enqueue_replaces hi, enqueueAll_behind _ _ (by simp)]

/-- Nothing that follows a release of the override is taken over by a registration before it. -/
theorem enqueueAll_released (hi : i.operation = .register) {rest : List Item}
    (hrest : ∀ j ∈ rest.head?, j.operation = .deleteStatusOverride) :
    enqueueAll rest [i] = i :: enqueueAll rest [] := by
  cases rest with
  | nil => rfl
  | cons j rest =>
    have hwaits : enqueue j [i] = [i] ++ [j] := by
      rw [enqueue, Slot.absorb_register_release hi (hrest j rfl)]
      rfl
    have hsplit : enqueueAll (j :: rest) [i] = enqueueAll rest ([i] ++ [j]) :=
      congrArg (enqueueAll rest) hwaits
    exact hsplit.trans (enqueueAll_behind rest [i] (by simp))

theorem enqueue_status (hj : ¬ j.Resets) :
    enqueue i [j] =
      [if i.operation = .heartbeat ∧ j.operation ≠ .heartbeat then { j with time := i.time }
        else i] := by
  by_cases hbeat : j.operation = .heartbeat
  · rw [enqueue, Slot.absorb_eq_incoming (.inr (.inr (.inl hbeat))), if_neg fun h => h.2 hbeat]
  · have hstatus : j.operation = .statusUpdate ∨ j.operation = .deleteStatusOverride := by
      cases hop : j.operation <;> simp_all [Item.Resets]
    rw [enqueue, Slot.absorb_status hstatus]
    by_cases hi : i.operation = .heartbeat
    · rw [if_pos hi, if_pos ⟨hi, hbeat⟩]
    · rw [if_neg hi, if_neg fun h => hi h.1]

theorem enqueueAll_status (hj : ¬ j.Resets) (hitems : ∀ i ∈ items, ¬ i.Resets) :
    ∃ j', enqueueAll items [j] = [j'] ∧ ¬ j'.Resets := by
  induction items generalizing j with
  | nil => exact ⟨j, rfl, hj⟩
  | cons i rest ih =>
    obtain ⟨hi, hrest⟩ := List.forall_mem_cons.mp hitems
    have hstep := congrArg (enqueueAll rest) (enqueue_status (i := i) hj)
    split at hstep
    · obtain ⟨j', hj'⟩ := ih (j := { j with time := i.time }) hj hrest
      exact ⟨j', hstep.trans hj'.1, hj'.2⟩
    · obtain ⟨j', hj'⟩ := ih hi hrest
      exact ⟨j', hstep.trans hj'.1, hj'.2⟩

theorem enqueueAll_heartbeats (hx : ¬ x.Resets) (hbeat : x.operation ≠ .heartbeat)
    (hitems : ∀ i ∈ items, i.operation = .heartbeat) :
    ∃ time, enqueueAll items [x] = [{ x with time }] := by
  induction items generalizing x with
  | nil => exact ⟨x.time, rfl⟩
  | cons i rest ih =>
    obtain ⟨hi, hrest⟩ := List.forall_mem_cons.mp hitems
    have hstep := congrArg (enqueueAll rest) (enqueue_status (i := i) hx)
    rw [if_pos ⟨hi, hbeat⟩] at hstep
    obtain ⟨time, htime⟩ := ih (x := { x with time := i.time }) hx hbeat hrest
    exact ⟨time, hstep.trans htime⟩

theorem enqueueAll_change (hbefore : ∀ i ∈ before, ¬ i.Resets) (hx : ¬ x.Resets)
    (hbeat : x.operation ≠ .heartbeat) (hafter : ∀ i ∈ after, i.operation = .heartbeat) :
    ∃ time, enqueueAll (before ++ x :: after) [] = [{ x with time }] := by
  have halone : enqueueAll (before ++ x :: after) [] = enqueueAll after [x] := by
    cases before with
    | nil => rfl
    | cons i rest =>
      obtain ⟨hi, hrest⟩ := List.forall_mem_cons.mp hbefore
      obtain ⟨j, hwaits, hj⟩ := enqueueAll_status hi hrest
      have hsplit : enqueueAll (i :: rest ++ x :: after) [] =
          enqueueAll after (enqueue x (enqueueAll rest [i])) := enqueueAll_append ..
      rw [hsplit, hwaits, enqueue_status hj, if_neg fun h => hbeat h.1]
  rw [halone]
  exact enqueueAll_heartbeats hx hbeat hafter

end Pending

end Replication

namespace Slot

variable {k : Key} {t : Millis} {s s' p o : Slot} {i : Item} {items : List Item}
  {deliveries batch : List (Millis × Item)}

/-- Two slots look the same, and to changes from some time on they are both deaf or neither. -/
structure Alike (t : Millis) (s s' : Slot) : Prop where
  face : s'.face = s.face
  deaf : ∀ t', t ≤ t' → (s'.Deaf t' ↔ s.Deaf t')

theorem alike_of_view (h : s'.view = s.view) : Alike t s s' where
  face := face_of_view h
  deaf _ _ := ⟨fun hdeaf => hdeaf.of_view h.symm, fun hdeaf => hdeaf.of_view h⟩

theorem Follows.deaf_iff (h : p.Follows o) (ho : o.Within t) : p.Deaf t ↔ o.kept = none := by
  have hbase := base_eq_of_face h.face
  cases hkept : o.kept with
  | none =>
    have hempty : p.kept = none := by
      rw [← base_eq_none_iff, hbase, base_eq_none_iff]
      exact hkept
    exact ⟨fun _ => rfl, fun _ q hq => nomatch hempty.symm.trans hq⟩
  | some q =>
    have hheard : ¬ p.Deaf t := by
      refine not_deaf_iff.mpr ⟨(h.within q hkept).mono (ho q hkept), ?_⟩
      rw [hbase, Ne, base_eq_none_iff, hkept]
      nofun
    exact ⟨fun hdeaf => absurd hdeaf hheard, nofun⟩

theorem Follows.alike (h : s.Follows o) (h' : s'.Follows o) (ho : o.Within t) : Alike t s s' where
  face := h'.face.trans h.face.symm
  deaf _ ht := (h'.deaf_iff (ho.mono ht)).trans (h.deaf_iff (ho.mono ht)).symm

theorem Alike.face_receive_change {status : Status} (h : Alike t s s') (hs : s.Sound k)
    (hs' : s'.Sound k) (hi : Changes i status) (ht : t ≤ i.dirtyAt) (now : Millis) :
    (s'.receive now i).face = (s.receive now i).face := by
  have hsendable := hi.sendable (Int64.le_refl _)
  have hboth := h.deaf _ ht
  by_cases hdeaf : s.Deaf i.dirtyAt
  · rw [face_of_view (hs.view_receive_deaf hsendable hi.not_resets hdeaf now),
      face_of_view (hs'.view_receive_deaf hsendable hi.not_resets (hboth.mpr hdeaf) now), h.face]
  · rw [hs.face_receive_change hi hdeaf, hs'.face_receive_change hi fun h => hdeaf (hboth.mp h),
      base_eq_of_face h.face]

theorem Changes.of_sendable (hi : i.Sendable t) (hother : ¬ i.Resets)
    (hbeat : i.operation ≠ .heartbeat) : ∃ status, Changes i status := by
  cases hi with
  | register hop => exact absurd (.inl hop) hother
  | cancel hop => exact absurd (.inr hop) hother
  | heartbeat hop => exact absurd hop hbeat
  | status hop hstatus hpos => exact ⟨_, hop, hstatus, hpos⟩

/-- Slots that look alike still do when one receives a sequence without registrations and
cancellations, and the other what waits after it. -/
theorem Alike.face_enqueued (h : Alike t s s') (hs : s.Sound k) (hs' : s'.Sound k)
    (hitems : ∀ i ∈ items, i.Addressed k ∧ i.Sendable i.dirtyAt ∧ ¬ i.Resets)
    (hlater : ∀ i ∈ items, t ≤ i.dirtyAt) (hascending : items.Pairwise (·.dirtyAt ≤ ·.dirtyAt))
    (hdeliveries : deliveries.map Prod.snd = items)
    (hbatch : batch.map Prod.snd = Pending.enqueueAll items []) :
    (s'.receiveEach batch).face = (s.receiveEach deliveries).face := by
  rcases Pending.split_last (fun i : Item => i.operation ≠ .heartbeat) items with
    hbeats | ⟨before, x, after, rfl, hx, hafter⟩
  · have hbeats : ∀ i ∈ items, i.Addressed k ∧ i.operation = .heartbeat :=
      fun i hi => ⟨(hitems i hi).1, by simpa using hbeats i hi⟩
    have hmerged : ∀ i ∈ Pending.enqueueAll items [], i.Addressed k ∧ i.operation = .heartbeat := by
      refine Pending.forall_enqueueAll (fun i j merged hi hj habsorb => ?_) hbeats
        (List.forall_mem_nil _)
      have hop := Item.absorb_operation habsorb
      rw [hi.2, hj.2, or_self] at hop
      exact ⟨hi.1.absorb hj.1 habsorb, hop⟩
    rw [face_of_view (hs.view_receiveEach_heartbeats (forall_delivered hdeliveries hbeats)),
      face_of_view (hs'.view_receiveEach_heartbeats (forall_delivered hbatch hmerged)), h.face]
  · obtain ⟨hbefore, hrest⟩ := List.forall_mem_append.mp hitems
    obtain ⟨⟨haddressed, hsendable, hother⟩, hend⟩ := List.forall_mem_cons.mp hrest
    obtain ⟨status, hchange⟩ := Changes.of_sendable hsendable hother hx
    have hearlier : ∀ i ∈ before, i.Addressed k ∧ i.Sendable x.dirtyAt ∧ ¬ i.Resets := by
      intro i hi
      obtain ⟨haddressed, hsendable, hother⟩ := hbefore i hi
      have hle := (List.pairwise_append.mp hascending).2.2 i hi x List.mem_cons_self
      exact ⟨haddressed, hsendable.mono hle, hother⟩
    have hbeats : ∀ i ∈ after, i.Addressed k ∧ i.operation = .heartbeat :=
      fun i hi => ⟨(hend i hi).1, by simpa using hafter i hi⟩
    obtain ⟨time, hwaits⟩ :=
      Pending.enqueueAll_change (fun i hi => (hbefore i hi).2.2) hother hx
        fun i hi => (hbeats i hi).2
    have hbatch : batch.map Prod.snd = [] ++ { x with time } :: [] := hbatch.trans hwaits
    obtain ⟨first, now, last, rfl, hfirst, hlast⟩ := delivered_split hbatch
    cases List.map_eq_nil_iff.mp hfirst
    cases List.map_eq_nil_iff.mp hlast
    rw [hs.face_receiveEach_change hchange haddressed hearlier hbeats hdeliveries now]
    exact h.face_receive_change hs hs' hchange (hlater x (by simp)) now

end Slot

end ServiceRegistry
