import ServiceRegistry.Proofs.Replication.Emission
import ServiceRegistry.Proofs.Replication.Enqueued

/-! # Tales at a peer

What a peer makes of the items that an origin tells of, one by one or merged. Told of every item, it
follows the origin from a cancellation on, or from a registration that finds no newer record. Told
of what waits, it follows the origin behind a registration unless its record is newer than all that
the registration took over.
-/

namespace ServiceRegistry

set_option autoImplicit false

open Replication

namespace Slot

variable {k : Key} {t : Millis} {p o o₁ o' : Slot} {b i : Item} {items before after : List Item}
  {deliveries batch : List (Millis × Item)}

theorem Tale.sendable (h : Tale k o items o') :
    ∀ i ∈ items, i.Addressed k ∧ i.Sendable i.dirtyAt := by
  induction h with
  | nil => exact List.forall_mem_nil _
  | cons htold _ ih =>
    refine List.forall_mem_cons.mpr ⟨⟨htold.addressed, ?_⟩, ih⟩
    exact (htold.tells _ (Int64.le_refl _)).sendable htold.own

theorem Tale.sendable_enqueueAll (h : Tale k o items o') (ht : ∀ i ∈ items, i.dirtyAt ≤ t)
    {pending : List Item} (hpending : ∀ j ∈ pending, j.Addressed k ∧ j.Sendable t) :
    ∀ j ∈ Pending.enqueueAll items pending, j.Addressed k ∧ j.Sendable t := by
  induction h generalizing pending with
  | nil => exact hpending
  | cons htold _ ih =>
    obtain ⟨hi, hrest⟩ := List.forall_mem_cons.mp ht
    have htells := htold.tells _ (Int64.le_refl _)
    have hown := htold.own.mono hi
    refine ih hrest (Pending.forall_enqueue hpending ⟨htold.addressed, htells.sendable hown⟩ ?_)
    intro j hj merged habsorb
    obtain ⟨haddressed, hsendable⟩ := hpending j hj
    exact ⟨haddressed.absorb htold.addressed habsorb,
      htells.sendable_absorbed hown hsendable habsorb⟩

theorem Tale.follows (h : Tale k o items o') (hfollows : p.Follows o) (hp : p.Sound k)
    (hw : p.Within t) (hlater : ∀ i ∈ items, t ≤ i.dirtyAt)
    (hascending : items.Pairwise (·.dirtyAt ≤ ·.dirtyAt))
    (hdeliveries : deliveries.map Prod.snd = items) :
    (p.receiveEach deliveries).Follows o' := by
  induction h generalizing p t deliveries with
  | nil =>
    cases List.map_eq_nil_iff.mp hdeliveries
    exact hfollows
  | @cons o o₁ o' i items htold _ ih =>
    obtain ⟨d, rest, rfl, rfl, hrest⟩ := List.map_eq_cons_iff.mp hdeliveries
    obtain ⟨hle, hsorted⟩ := List.pairwise_cons.mp hascending
    have hle' := hlater _ List.mem_cons_self
    have hbase := base_eq_of_face hfollows.face
    have hnext :=
      (htold.tells _ hle').follows htold.own hp hw (.inl hbase) (.inl hfollows) d.1
    have hsendable := (htold.tells _ hle').sendable htold.own
    have hwithin := (hw.mono hle').receive hp hsendable d.1
    have hend := ih hnext (hp.receive htold.addressed d.1) hwithin hle hsorted hrest
    exact hend

def Renders (i : Item) (o : Slot) : Prop :=
  i.operation = .register ∧ ∃ x d, o.kept = some (x, d) ∧ i.record = some x ∧ i.lease = some d

theorem Renders.absorb (h : Renders b o) (htold : Told k o o' i) (hother : ¬ i.Resets)
    (hkeeps : i.operation ≠ .deleteStatusOverride) :
    ∃ b', b.absorb i = some b' ∧ Renders b' o' ∧ b'.lease = b.lease := by
  obtain ⟨hop, x, d, hkept, hrecord, hlease⟩ := h
  have hmerges (hiop : i.operation = .heartbeat ∨ i.operation = .statusUpdate) :
      ∃ b', b.absorb i = some b' := by
    cases habsorb : b.absorb i with
    | some b' => exact ⟨b', rfl⟩
    | none => rcases hiop with hiop | hiop <;> simp [Item.absorb, hop, hiop] at habsorb
  cases htold.tells _ (Int64.le_refl _) with
  | registers _ _ hiop => exact absurd (.inl hiop) hother
  | cancels _ hiop => exact absurd (.inr hiop) hother
  | beats hikept hikept' _ hiop hirecord =>
    obtain ⟨b', habsorb⟩ := hmerges (.inl hiop)
    obtain ⟨hop', hrecord', hlease'⟩ := absorb_register hop (.inl hiop) hirecord habsorb
    cases hkept.symm.trans hikept
    exact ⟨b', habsorb, ⟨hop', _, _, hikept'.trans hikept, hrecord', hlease'.trans hlease⟩, hlease'⟩
  | sets hikept hbase _ hiop hirecord =>
    have hiop := (hiop.resolve_right fun h => hkeeps h.1).1
    obtain ⟨b', habsorb⟩ := hmerges (.inr hiop)
    obtain ⟨hop', hrecord', hlease'⟩ := absorb_register hop (.inr hiop) hirecord habsorb
    rw [base, base, hikept, hkept] at hbase
    cases congrArg (Option.map Prod.snd) hbase
    exact ⟨b', habsorb, ⟨hop', _, _, hikept, hrecord', hlease'.trans hlease⟩, hlease'⟩

theorem Told.renders (h : Told k o o' b) (hop : b.operation = .register) : Renders b o' :=
  ⟨hop, (h.tells _ (Int64.le_refl _)).kept_of_register hop⟩

theorem Tale.renders_enqueueAll (h : Tale k o items o') (hb : Renders b o)
    (hitems : ∀ i ∈ items, ¬ i.Resets ∧ i.operation ≠ .deleteStatusOverride) :
    ∃ b', Pending.enqueueAll items [b] = [b'] ∧ Renders b' o' ∧ b'.lease = b.lease := by
  induction h generalizing b with
  | nil => exact ⟨b, rfl, hb, rfl⟩
  | @cons o o₁ o' i items htold _ ih =>
    obtain ⟨⟨hother, hkeeps⟩, hrest⟩ := List.forall_mem_cons.mp hitems
    obtain ⟨b₁, habsorb, hb₁, hlease₁⟩ := hb.absorb htold hother hkeeps
    obtain ⟨b', hwaits, hb', hlease'⟩ := ih hb₁ hrest
    have hstep : Pending.enqueueAll (i :: items) [b] = Pending.enqueueAll items [b₁] := by
      rw [Pending.enqueueAll, List.foldl_cons, Pending.enqueue, habsorb]
      rfl
    exact ⟨b', hstep.trans hwaits, hb', hlease'.trans hlease₁⟩

/-- A registration takes over what comes behind it, up to a release of the override. -/
theorem Tale.renders_register (h : Tale k o (b :: items) o') (hop : b.operation = .register)
    (hitems : ∀ i ∈ items, ¬ i.Resets ∧ i.operation ≠ .deleteStatusOverride) :
    ∃ b', Pending.enqueueAll items [b] = [b'] ∧ Renders b' o' ∧ b'.lease = b.lease := by
  cases h with
  | cons htold hrest => exact hrest.renders_enqueueAll (htold.renders hop) hitems

theorem Tale.concat (h : Tale k o (items ++ [i]) o') :
    ∃ o₁, Tale k o items o₁ ∧ Told k o₁ o' i := by
  obtain ⟨o₁, hitems, hlast⟩ := h.append
  cases hlast with
  | cons htold hnil =>
    cases hnil
    exact ⟨o₁, hitems, htold⟩

theorem Tale.exists_last (h : Tale k o (i :: items) o')
    (hascending : (i :: items).Pairwise (·.dirtyAt ≤ ·.dirtyAt)) :
    ∃ j ∈ i :: items, (∀ j' ∈ i :: items, j'.dirtyAt ≤ j.dirtyAt) ∧ o'.Own j.dirtyAt ∧
      ∀ q, o'.kept = some q → q.1.dirtyAt = j.dirtyAt := by
  generalize hitems : i :: items = all at h hascending ⊢
  rcases List.eq_nil_or_concat all with rfl | ⟨init, j, rfl⟩
  · cases hitems
  rw [List.concat_eq_append] at h hascending ⊢
  obtain ⟨o₁, -, htold⟩ := h.concat
  refine ⟨j, by simp, fun j' hj' => ?_, htold.own, htold.time⟩
  rcases List.mem_append.mp hj' with hj' | hj'
  · exact (List.pairwise_append.mp hascending).2.2 j' hj' j List.mem_cons_self
  · cases List.mem_singleton.mp hj'
    exact Int64.le_refl _

theorem Told.follows_reset (h : Told k o o' i) (hp : p.Sound k)
    (hi : i.operation = .cancel ∨ i.operation = .register ∧ p.Within i.dirtyAt) (now : Millis) :
    (p.receive now i).Follows o' ∧ (p.receive now i).Within i.dirtyAt := by
  have htells := h.tells _ (Int64.le_refl _)
  rcases hi with hop | ⟨hop, hw⟩
  · rw [hp.receive_cancel hop now, htells.eq_of_cancel hop]
    exact ⟨⟨rfl, fun _ hq => nomatch hq⟩, fun _ hq => nomatch hq⟩
  · have hbeat : i.operation ≠ .heartbeat := fun h => nomatch hop.symm.trans h
    exact ⟨htells.follows h.own hp hw (.inr (.inl hop)) (.inr hbeat) now,
      hw.receive hp (htells.sendable h.own) now⟩

/-- Told of every item, a peer agrees with the origin from a cancellation on, and from a
registration on that is not older than the record of the peer. -/
theorem Tale.follows_reset (h : Tale k o (before ++ i :: after) o') (hp : p.Sound k)
    (hi : i.operation = .cancel ∨ i.operation = .register ∧ p.Within i.dirtyAt)
    (hascending : (before ++ i :: after).Pairwise (·.dirtyAt ≤ ·.dirtyAt))
    (hdeliveries : deliveries.map Prod.snd = before ++ i :: after) :
    (p.receiveEach deliveries).Follows o' := by
  obtain ⟨first, now, last, rfl, hfirst, hlast⟩ := delivered_split hdeliveries
  obtain ⟨-, hsorted, hearlier⟩ := List.pairwise_append.mp hascending
  obtain ⟨hlater, hsorted⟩ := List.pairwise_cons.mp hsorted
  obtain ⟨o₁, hbefore, hrest⟩ := h.append
  have hitems : ∀ j ∈ before, j.Addressed k ∧ j.Sendable i.dirtyAt := by
    intro j hj
    obtain ⟨haddressed, hsendable⟩ := hbefore.sendable j hj
    exact ⟨haddressed, hsendable.mono (hearlier j hj i List.mem_cons_self)⟩
  have hsound : (p.receiveEach first).Sound k :=
    hp.receiveEach fun d hd => (forall_delivered hfirst hitems d hd).1
  have hi : i.operation = .cancel ∨
      i.operation = .register ∧ (p.receiveEach first).Within i.dirtyAt :=
    hi.imp_right fun ⟨hop, hw⟩ => ⟨hop, hw.receiveEach hp (forall_delivered hfirst hitems)⟩
  cases hrest with
  | cons htold hafter =>
    obtain ⟨hfollows, hwithin⟩ := htold.follows_reset hsound hi now
    have hend := hafter.follows hfollows (hsound.receive htold.addressed now) hwithin hlater
      hsorted hlast
    rw [receiveEach_append]
    exact hend

theorem Tale.follows_registered (h : Tale k o (before ++ b :: after) o') (hp : p.Sound k)
    (hop : b.operation = .register)
    (hreset : p.Within b.dirtyAt ∨ ∃ c ∈ before, c.operation = .cancel)
    (hascending : (before ++ b :: after).Pairwise (·.dirtyAt ≤ ·.dirtyAt))
    (hdeliveries : deliveries.map Prod.snd = before ++ b :: after) :
    (p.receiveEach deliveries).Follows o' := by
  rcases hreset with hw | ⟨c, hc, hcancel⟩
  · exact h.follows_reset hp (.inr ⟨hop, hw⟩) hascending hdeliveries
  · obtain ⟨first, last, rfl⟩ := List.append_of_mem hc
    simp only [List.append_assoc, List.cons_append] at h hascending hdeliveries
    exact h.follows_reset hp (.inl hcancel) hascending hdeliveries

section Registered

variable (h : Tale k o (before ++ b :: after) o') (hp : p.Sound k) (hop : b.operation = .register)
  (hafter : ∀ i ∈ after, ¬ i.Resets ∧ i.operation ≠ .deleteStatusOverride)
  (ht : ∀ i ∈ before ++ b :: after, i.dirtyAt ≤ t)
  (hbatch : batch.map Prod.snd = Pending.enqueueAll (before ++ b :: after) [])
include h hp hop hafter ht hbatch

/-- Told only of what waits, a peer agrees with the origin behind a registration unless its record
is newer than all that the registration took over. -/
theorem Tale.follows_coalesced (hw : p.Within t) (ho : o'.Own t)
    (htime : ∀ q, o'.kept = some q → q.1.dirtyAt = t) : (p.receiveEach batch).Follows o' := by
  obtain ⟨_, -, hrest⟩ := h.append
  obtain ⟨b', hwaits, ⟨hop', x, d, hkept, hrecord, hlease⟩, -⟩ := hrest.renders_register hop hafter
  have hwaiting := h.sendable_enqueueAll ht (List.forall_mem_nil _)
  rw [Pending.enqueueAll_replaced (.inl hop), hwaits] at hbatch hwaiting
  obtain ⟨first, now, last, rfl, hfirst, hnone⟩ := delivered_split hbatch
  cases List.map_eq_nil_iff.mp hnone
  have hitems := forall_delivered hfirst (List.forall_mem_append.mp hwaiting).1
  have hsound := hp.receiveEach fun d hd => (hitems d hd).1
  have hwithin : (p.receiveEach first).Within x.dirtyAt := by
    rw [htime _ hkept]
    exact hw.receiveEach hp hitems
  rw [receiveEach_append]
  exact ho.follows_register hkept hsound hwithin hop' hrecord hlease now

/-- A record that is newer than a sequence without cancellations ends up the same whether its peer
is told of every item or only of what waits. -/
theorem Tale.view_coalesced {y : Instance} (hretains : p.Retains y) (hy : t < y.dirtyAt)
    (hcancel : ∀ i ∈ before, i.operation ≠ .cancel)
    (hdeliveries : deliveries.map Prod.snd = before ++ b :: after) :
    (p.receiveEach batch).view = (p.receiveEach deliveries).view := by
  have hitems : ∀ i ∈ before ++ b :: after, i.Addressed k ∧ i.Sendable t := fun i hi =>
    ⟨(h.sendable i hi).1, (h.sendable i hi).2.mono (ht i hi)⟩
  obtain ⟨_, -, hrest⟩ := h.append
  obtain ⟨b', hwaits, ⟨hop', x, d, -, -, hlease⟩, hsame⟩ := hrest.renders_register hop hafter
  have hkeeps : ∀ j ∈ Pending.enqueueAll before [], j.operation ≠ .cancel := by
    refine Pending.forall_enqueueAll (fun i j merged hi hj habsorb => ?_) hcancel
      (List.forall_mem_nil _)
    rcases Item.absorb_operation habsorb with hmerged | hmerged <;> rw [hmerged] <;> assumption
  have hwaiting := h.sendable_enqueueAll ht (List.forall_mem_nil _)
  rw [Pending.enqueueAll_replaced (.inl hop), hwaits] at hbatch hwaiting
  rw [hp.view_receiveEach_retained hretains hy hwaiting
      (fun j hj => hkeeps j (List.dropLast_subset _ hj)) hop' hlease (List.forall_mem_nil _) hbatch,
    hp.view_receiveEach_retained hretains hy hitems hcancel hop (hsame ▸ hlease)
      (fun j hj => (hafter j hj).1) hdeliveries]

end Registered

/-- A registration settles a peer's slot alike for one that is told of every item and for one that
is told only of what waits, provided that its record fits. -/
theorem Tale.alike_registered (h : Tale k o (before ++ b :: after) o') (hp : p.Sound k)
    (hop : b.operation = .register)
    (hafter : ∀ i ∈ after, ¬ i.Resets ∧ i.operation ≠ .deleteStatusOverride)
    (hascending : (before ++ b :: after).Pairwise (·.dirtyAt ≤ ·.dirtyAt))
    (hfits : ∀ q, p.kept = some q → q.1.dirtyAt ≤ b.dirtyAt ∨
      ((∃ i ∈ after, q.1.dirtyAt ≤ i.dirtyAt) ↔ ∃ i ∈ before, i.operation = .cancel))
    (hdeliveries : deliveries.map Prod.snd = before ++ b :: after)
    (hbatch : batch.map Prod.snd = Pending.enqueueAll (before ++ b :: after) []) :
    ∃ i ∈ b :: after, Alike i.dirtyAt (p.receiveEach deliveries) (p.receiveEach batch) := by
  obtain ⟨-, hsorted, hearlier⟩ := List.pairwise_append.mp hascending
  obtain ⟨_, -, hrest⟩ := h.append
  obtain ⟨i, hi, hmax, hown, htime⟩ := hrest.exists_last hsorted
  have hbound : ∀ j ∈ before ++ b :: after, j.dirtyAt ≤ i.dirtyAt := by
    intro j hj
    rcases List.mem_append.mp hj with hj | hj
    · exact hearlier j hj i hi
    · exact hmax j hj
  refine ⟨i, hi, ?_⟩
  by_cases hw : p.Within i.dirtyAt
  · have hcoalesced := h.follows_coalesced hp hop hafter hbound hbatch hw hown htime
    have hreset : p.Within b.dirtyAt ∨ ∃ c ∈ before, c.operation = .cancel := by
      by_cases hcancel : ∃ c ∈ before, c.operation = .cancel
      · exact .inr hcancel
      · refine .inl fun q hq => ?_
        rcases hfits q hq with hle | hiff
        · exact hle
        · rcases List.mem_cons.mp hi with rfl | hi
          · exact hw q hq
          · exact absurd (hiff.mp ⟨i, hi, hw q hq⟩) hcancel
    have hfollows := h.follows_registered hp hop hreset hascending hdeliveries
    exact hfollows.alike hcoalesced hown.within
  · simp only [Within, Classical.not_forall, Int64.not_le] at hw
    obtain ⟨q, hq, hnewer⟩ := hw
    have hbehind : ∀ j ∈ b :: after, ¬ q.1.dirtyAt ≤ j.dirtyAt := fun j hj hle =>
      Int64.lt_irrefl (Int64.lt_of_lt_of_le hnewer (Int64.le_trans hle (hmax j hj)))
    have hcancel : ∀ c ∈ before, c.operation ≠ .cancel := by
      intro c hc hcop
      rcases hfits q hq with hle | hiff
      · exact hbehind b List.mem_cons_self hle
      · obtain ⟨j, hj, hle⟩ := hiff.mpr ⟨c, hc, hcop⟩
        exact hbehind j (List.mem_cons_of_mem b hj) hle
    have hretains : p.Retains q.1 := ⟨q.1, q.2, hq, rfl⟩
    exact alike_of_view
      (h.view_coalesced hp hop hafter hbound hbatch hretains hnewer hcancel hdeliveries)

end Slot

end ServiceRegistry
