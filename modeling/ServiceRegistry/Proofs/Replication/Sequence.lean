import ServiceRegistry.Proofs.Registry.Stale
import ServiceRegistry.Proofs.Replication.Plain

/-! # Sequences of items at a peer

What items of growing times make of a peer's slot. Of changes of the status the last one decides,
unless the peer's record is newer than all of them. A record that is newer than a sequence without
cancellations outlasts it; all that a registration does to it is to drop an unknown override.
-/

namespace ServiceRegistry

set_option autoImplicit false

open Replication

namespace Replication.Item

/-- Registrations and cancellations do not depend on what they find, times of change aside. -/
def Resets (i : Item) : Prop := i.operation = .register ∨ i.operation = .cancel

instance (i : Item) : Decidable i.Resets := inferInstanceAs (Decidable (_ ∨ _))

end Replication.Item

namespace Slot

variable {k : Key} {s s' : Slot} {i : Item} {t now : Millis} {deliveries : List (Millis × Item)}

abbrev View : Type := Option (Instance × UInt64) × Option Status

def view (s : Slot) : View :=
  (s.kept.map fun p => (p.1.content, p.2), s.override)

theorem view_congr (hkept : s'.kept = s.kept) (hoverride : s'.override = s.override) :
    s'.view = s.view := by
  rw [view, view, hkept, hoverride]

theorem face_of_view (h : s'.view = s.view) : s'.face = s.face := by
  have hkept := congrArg (fun v => v.1.map fun p : Instance × UInt64 =>
    ({ p.1 with dirtyAt := 0 }, p.2)) h
  simp only [view, Option.map_map] at hkept
  have hoverride : s'.override = s.override := congrArg Prod.snd h
  exact Prod.ext hkept hoverride

theorem receiveEach_append (s : Slot) (before after : List (Millis × Item)) :
    s.receiveEach (before ++ after) = (s.receiveEach before).receiveEach after :=
  List.foldl_append

theorem Sound.receiveEach (hs : s.Sound k) (haddressed : ∀ d ∈ deliveries, d.2.Addressed k) :
    (s.receiveEach deliveries).Sound k := by
  induction deliveries generalizing s with
  | nil => exact hs
  | cons d rest ih =>
    obtain ⟨hd, hrest⟩ := List.forall_mem_cons.mp haddressed
    exact ih (hs.receive hd d.1) hrest

theorem Within.receiveEach (hw : s.Within t) (hs : s.Sound k)
    (hitems : ∀ d ∈ deliveries, d.2.Addressed k ∧ d.2.Sendable t) :
    (s.receiveEach deliveries).Within t := by
  induction deliveries generalizing s with
  | nil => exact hw
  | cons d rest ih =>
    obtain ⟨⟨hd, hsendable⟩, hrest⟩ := List.forall_mem_cons.mp hitems
    exact ih (hw.receive hs hsendable d.1) (hs.receive hd d.1) hrest

theorem forall_delivered {P : Item → Prop} {items : List Item}
    (h : deliveries.map Prod.snd = items) (hitems : ∀ i ∈ items, P i) :
    ∀ d ∈ deliveries, P d.2 := by
  subst h
  exact List.forall_mem_map.mp hitems

theorem delivered_split {before after : List Item}
    (h : deliveries.map Prod.snd = before ++ i :: after) :
    ∃ first time last, deliveries = first ++ (time, i) :: last ∧ first.map Prod.snd = before ∧
      last.map Prod.snd = after := by
  obtain ⟨first, rest, hsplit, hfirst, hrest⟩ := List.map_eq_append_iff.mp h
  obtain ⟨d, last, rfl, rfl, hlast⟩ := List.map_eq_cons_iff.mp hrest
  exact ⟨first, d.1, last, hsplit, hfirst, hlast⟩

theorem Sound.view_receiveEach (hs : s.Sound k)
    (hkeeps : ∀ d ∈ deliveries, d.2.Addressed k ∧
      ∀ s', Sound k s' → s'.view = s.view → (s'.receive d.1 d.2).view = s'.view) :
    (s.receiveEach deliveries).view = s.view := by
  -- the induction is over slots that show what `s` shows
  have hrun (s' : Slot) (hs' : s'.Sound k) (hsame : s'.view = s.view) :
      (s'.receiveEach deliveries).view = s.view := by
    induction deliveries generalizing s' with
    | nil => exact hsame
    | cons d rest ih =>
      obtain ⟨⟨hd, hkeep⟩, hrest⟩ := List.forall_mem_cons.mp hkeeps
      exact ih hrest _ (hs'.receive hd d.1) ((hkeep s' hs' hsame).trans hsame)
  exact hrun s hs rfl

/-- The slot has no record, or one that changed after some time. -/
def Deaf (t : Millis) (s : Slot) : Prop := ∀ p, s.kept = some p → t < p.1.dirtyAt

theorem Deaf.of_view (h : s.Deaf t) (hview : s'.view = s.view) : s'.Deaf t := by
  intro p hp
  have hsome : s.view.1 = some (p.1.content, p.2) := by
    rw [← hview, view, hp]
    rfl
  obtain ⟨q, hq, heq⟩ := Option.map_eq_some_iff.mp hsome
  have hdirty : q.1.dirtyAt = p.1.dirtyAt := congrArg (fun p => p.1.dirtyAt) heq
  rw [← hdirty]
  exact h q hq

theorem base_eq_none_iff : s.base = none ↔ s.kept = none := Option.map_eq_none_iff

theorem not_deaf_iff : ¬ s.Deaf t ↔ s.Within t ∧ s.base ≠ none := by
  rw [Ne, base_eq_none_iff]
  constructor
  · intro h
    simp only [Deaf, Classical.not_forall, Int64.not_lt] at h
    obtain ⟨p, hp, hle⟩ := h
    refine ⟨fun q hq => ?_, fun hnone => nomatch hp.symm.trans hnone⟩
    cases hp.symm.trans hq
    exact hle
  · rintro ⟨hw, hsome⟩ hdeaf
    obtain ⟨p, hp⟩ := Option.ne_none_iff_exists'.mp hsome
    exact Int64.not_lt.mpr (hw p hp) (hdeaf p hp)

theorem Sound.view_receive_heartbeat (hs : s.Sound k) (hop : i.operation = .heartbeat)
    (now : Millis) : (s.receive now i).view = s.view := by
  obtain ⟨hkept, hoverride⟩ := hs.receive_heartbeat hop now
  exact view_congr hkept hoverride

theorem Sound.view_receiveEach_heartbeats (hs : s.Sound k)
    (hbeats : ∀ d ∈ deliveries, d.2.Addressed k ∧ d.2.operation = .heartbeat) :
    (s.receiveEach deliveries).view = s.view := by
  refine hs.view_receiveEach fun d hd => ?_
  obtain ⟨hd, hop⟩ := hbeats d hd
  exact ⟨hd, fun s' hs' _ => hs'.view_receive_heartbeat hop d.1⟩

theorem Sound.view_receive_deaf (hs : s.Sound k) (hi : i.Sendable t) (hother : ¬ i.Resets)
    (hdeaf : s.Deaf t) (now : Millis) : (s.receive now i).view = s.view := by
  cases hi with
  | register hop => exact absurd (.inl hop) hother
  | cancel hop => exact absurd (.inr hop) hother
  | heartbeat hop => exact hs.view_receive_heartbeat hop now
  | status hop hstatus hpos hle =>
    obtain ⟨-, change, -, hreceive⟩ := receive_status hop hstatus hpos
    rw [hreceive]
    cases hl : s.lease with
    | none =>
      simp only [Slot.changeStatus, hs.held_eq_lease, hl]
    | some l =>
      have hstale := Int64.lt_of_le_of_lt hle (hdeaf _ (kept_of_lease hl))
      rw [hs.changeStatus_stale hl hstale]

theorem Sound.base_receive (hs : s.Sound k) (hi : i.Sendable t) (hother : ¬ i.Resets)
    (now : Millis) : (s.receive now i).base = s.base := by
  cases hi with
  | register hop => exact absurd (.inl hop) hother
  | cancel hop => exact absurd (.inr hop) hother
  | heartbeat hop => exact congrArg (Option.map _) (hs.receive_heartbeat hop now).1
  | status hop hstatus hpos hle =>
    obtain ⟨-, change, hputs, hreceive⟩ := receive_status hop hstatus hpos
    rw [hreceive]
    exact (hs.base_changeStatus hputs _ now).1

theorem Sound.base_receiveEach (hs : s.Sound k)
    (hitems : ∀ d ∈ deliveries, d.2.Addressed k ∧ d.2.Sendable t ∧ ¬ d.2.Resets) :
    (s.receiveEach deliveries).base = s.base := by
  induction deliveries generalizing s with
  | nil => rfl
  | cons d rest ih =>
    obtain ⟨⟨hd, hsendable, hother⟩, hrest⟩ := List.forall_mem_cons.mp hitems
    exact (ih (hs.receive hd d.1) hrest).trans (hs.base_receive hsendable hother d.1)

def turned (status : Status) (override : Option Status) (b : Option (Instance × UInt64)) :
    Option (Instance × UInt64) × Option Status :=
  (b.map fun p => ({ p.1 with status, overridden := override }, p.2), override)

theorem Turned.face_eq {status : Status} {override : Option Status}
    (h : Turned s s' t status override) : s'.face = turned status override s.base := by
  rw [← h.base, face, turned, Slot.base, h.imposes]
  cases hkept : s'.kept with
  | none => rfl
  | some p =>
    obtain ⟨hstatus, hoverridden⟩ := h.shows p hkept
    simp only [Option.map_some, ← hstatus, ← hoverridden]
    rfl

/-- An item that changes the status, as the origin sent it or merged with heartbeats. -/
structure Changes (i : Item) (status : Status) : Prop where
  operation : i.operation = .statusUpdate ∧ status ≠ .unknown ∨
    i.operation = .deleteStatusOverride
  status : i.status = some status
  positive : 0 < i.dirtyAt

theorem Changes.sendable {status : Status} (h : Changes i status) (ht : i.dirtyAt ≤ t) :
    i.Sendable t := .status h.operation h.status h.positive ht

theorem Changes.not_resets {status : Status} (h : Changes i status) : ¬ i.Resets := by
  rcases h.operation with ⟨hop, -⟩ | hop <;> simp [Item.Resets, hop]

theorem Sound.face_receive_change {status : Status} (hs : s.Sound k) (hi : Changes i status)
    (hheard : ¬ s.Deaf i.dirtyAt) (now : Millis) :
    (s.receive now i).face =
      turned status (if i.operation = .statusUpdate then some status else none) s.base := by
  obtain ⟨hknown, change, hputs, hreceive⟩ :=
    receive_status hi.operation hi.status hi.positive
  obtain ⟨hwithin, hsome⟩ := not_deaf_iff.mp hheard
  rw [Ne, base_eq_none_iff] at hsome
  obtain ⟨p, hp⟩ := Option.ne_none_iff_exists'.mp hsome
  obtain ⟨l, hl, -⟩ := Option.map_eq_some_iff.mp hp
  have hnewer : (some i.dirtyAt).any (· < l.holder.dirtyAt) = false := by
    simpa using hwithin _ (kept_of_lease hl)
  rw [hreceive]
  exact (hs.turned_changeStatus hputs hknown hl hnewer now).face_eq

/-- Of changes with growing times, heartbeats among them, the last one decides. -/
theorem Sound.face_receiveEach_change {status : Status} (hs : s.Sound k) (hi : Changes i status)
    (haddressed : i.Addressed k) {before after : List Item}
    (hbefore : ∀ j ∈ before, j.Addressed k ∧ j.Sendable i.dirtyAt ∧ ¬ j.Resets)
    (hafter : ∀ j ∈ after, j.Addressed k ∧ j.operation = .heartbeat)
    (hdeliveries : deliveries.map Prod.snd = before ++ i :: after) (now : Millis) :
    (s.receiveEach deliveries).face = (s.receive now i).face := by
  obtain ⟨first, time, last, rfl, hfirst, hlast⟩ := delivered_split hdeliveries
  have hitems := forall_delivered hfirst hbefore
  have hsound := hs.receiveEach fun d hd => (hitems d hd).1
  have hsplit : s.receiveEach (first ++ (time, i) :: last) =
      ((s.receiveEach first).receive time i).receiveEach last := receiveEach_append ..
  have hbeats := (hsound.receive haddressed time).view_receiveEach_heartbeats
    (forall_delivered hlast hafter)
  rw [hsplit, face_of_view hbeats]
  by_cases hdeaf : s.Deaf i.dirtyAt
  · have hview : (s.receiveEach first).view = s.view := by
      refine hs.view_receiveEach fun d hd => ?_
      obtain ⟨hd, hsendable, hother⟩ := hitems d hd
      exact ⟨hd, fun s' hs' hsame =>
        hs'.view_receive_deaf hsendable hother (hdeaf.of_view hsame) d.1⟩
    have hsendable := hi.sendable (Int64.le_refl _)
    rw [face_of_view (hsound.view_receive_deaf hsendable hi.not_resets (hdeaf.of_view hview) time),
      face_of_view (hs.view_receive_deaf hsendable hi.not_resets hdeaf now), face_of_view hview]
  · have hbase := hs.base_receiveEach hitems
    have hheard : ¬ (s.receiveEach first).Deaf i.dirtyAt := by
      obtain ⟨hwithin, hsome⟩ := not_deaf_iff.mp hdeaf
      refine not_deaf_iff.mpr ⟨hwithin.receiveEach hs fun d hd => ?_, hbase ▸ hsome⟩
      exact ⟨(hitems d hd).1, (hitems d hd).2.1⟩
    rw [hsound.face_receive_change hi hheard, hs.face_receive_change hi hdeaf, hbase]

variable {y : Instance} {d : UInt64}

def Retains (y : Instance) (s : Slot) : Prop :=
  ∃ z d, s.kept = some (z, d) ∧ z.plain.content = y.plain.content

theorem Retains.of_view (h : s.Retains y) (hview : s'.view = s.view) : s'.Retains y := by
  obtain ⟨z, d, hkept, hsame⟩ := h
  have hsome : s'.view.1 = some (z.content, d) := by
    rw [hview, view, hkept]
    rfl
  obtain ⟨⟨z', d'⟩, hkept', heq⟩ := Option.map_eq_some_iff.mp hsome
  have hcontent : z'.content = z.content := congrArg Prod.fst heq
  exact ⟨z', d', hkept', (congrArg Instance.plain hcontent).trans hsame⟩

theorem Retains.deaf (h : s.Retains y) (ht : t < y.dirtyAt) : s.Deaf t := by
  obtain ⟨z, d, hkept, hsame⟩ := h
  intro p hp
  cases hkept.symm.trans hp
  have hdirty : z.plain.content.dirtyAt = y.plain.content.dirtyAt := by rw [hsame]
  exact Int64.lt_of_lt_of_le ht (Int64.le_of_eq hdirty.symm)

theorem Sound.view_receive_retained (hs : s.Sound k) (h : s.Retains y) (hi : i.Sendable t)
    (ht : t < y.dirtyAt) (hop : i.operation = .register) (hlease : i.lease = some d)
    (now : Millis) : (s.receive now i).view = (some (y.plain.content, d), y.plain.overridden) := by
  have hdeaf := h.deaf ht
  obtain ⟨z, e, hkept, hsame⟩ := h
  obtain ⟨l, hl, hlz⟩ := Option.map_eq_some_iff.mp hkept
  cases hlz
  cases hi with
  | heartbeat hop' | cancel hop' => cases hop.symm.trans hop'
  | status hop' => rcases hop' with ⟨hop', -⟩ | hop' <;> cases hop.symm.trans hop'
  | @register x d' _ hrecord hlease' hx hd hle =>
    cases hlease.symm.trans hlease'
    have hchosen : s.chosen x = l.holder := by
      rw [chosen, hs.held_eq_lease, hl]
      exact if_pos (Int64.lt_of_le_of_lt hle (hdeaf _ hkept))
    have hsettle := settle_peer_of_agrees (hs.tended hl).agrees
    rw [receive_register_eq hop hrecord hlease hx hd, view, kept_enroll, Option.map_some,
      content_enrolled, hchosen, hsettle]
    refine Prod.ext (congrArg (fun c => some (c, d)) hsame) ?_
    have hoverride : (s.enroll now .peer x d).slot.override =
        (settle s.override .peer (s.chosen x)).1 := rfl
    rw [hoverride, hchosen, hsettle]
    exact congrArg Instance.overridden hsame

theorem Retains.receive (h : s.Retains y) (hs : s.Sound k) (hi : i.Sendable t)
    (ht : t < y.dirtyAt) (hcancel : i.operation ≠ .cancel) (now : Millis) :
    (s.receive now i).Retains y := by
  by_cases hop : i.operation = .register
  · obtain ⟨d, hlease⟩ : ∃ d, i.lease = some d := by
      cases hi with
      | register _ _ hlease => exact ⟨_, hlease⟩
      | heartbeat hop' | cancel hop' => cases hop.symm.trans hop'
      | status hop' => rcases hop' with ⟨hop', -⟩ | hop' <;> cases hop.symm.trans hop'
    have hview := hs.view_receive_retained h hi ht hop hlease now
    obtain ⟨⟨z, e⟩, hkept, heq⟩ := Option.map_eq_some_iff.mp (congrArg Prod.fst hview)
    have hcontent : z.content = y.plain.content := congrArg Prod.fst heq
    refine ⟨z, e, hkept, (congrArg Instance.plain hcontent).trans ?_⟩
    exact congrArg Instance.content y.plain_plain
  · have hother : ¬ i.Resets := fun h => h.elim hop hcancel
    exact h.of_view (hs.view_receive_deaf hi hother (h.deaf ht) now)

theorem Retains.receiveEach (h : s.Retains y) (hs : s.Sound k) (ht : t < y.dirtyAt)
    (hitems : ∀ d ∈ deliveries, d.2.Addressed k ∧ d.2.Sendable t ∧ d.2.operation ≠ .cancel) :
    (s.receiveEach deliveries).Retains y := by
  induction deliveries generalizing s with
  | nil => exact h
  | cons d rest ih =>
    obtain ⟨⟨hd, hsendable, hcancel⟩, hrest⟩ := List.forall_mem_cons.mp hitems
    exact ih (h.receive hs hsendable ht hcancel d.1) (hs.receive hd d.1) hrest

/-- Of older items without a cancellation, the last registration tells in the lease. -/
theorem Sound.view_receiveEach_retained (hs : s.Sound k) (h : s.Retains y) (ht : t < y.dirtyAt)
    {before after : List Item} (hitems : ∀ j ∈ before ++ i :: after, j.Addressed k ∧ j.Sendable t)
    (hbefore : ∀ j ∈ before, j.operation ≠ .cancel) (hop : i.operation = .register)
    (hlease : i.lease = some d) (hafter : ∀ j ∈ after, ¬ j.Resets)
    (hdeliveries : deliveries.map Prod.snd = before ++ i :: after) :
    (s.receiveEach deliveries).view = (some (y.plain.content, d), y.plain.overridden) := by
  obtain ⟨hearlier, hlater⟩ := List.forall_mem_append.mp hitems
  obtain ⟨⟨haddressed, hsendable⟩, hlater⟩ := List.forall_mem_cons.mp hlater
  obtain ⟨first, now, last, rfl, hfirst, hlast⟩ := delivered_split hdeliveries
  have hearlier : ∀ j ∈ before, j.Addressed k ∧ j.Sendable t ∧ j.operation ≠ .cancel :=
    fun j hj => ⟨(hearlier j hj).1, (hearlier j hj).2, hbefore j hj⟩
  have hlater : ∀ j ∈ after, j.Addressed k ∧ j.Sendable t ∧ ¬ j.Resets :=
    fun j hj => ⟨(hlater j hj).1, (hlater j hj).2, hafter j hj⟩
  have hfirst' := forall_delivered hfirst hearlier
  have hsound := hs.receiveEach fun d hd => (hfirst' d hd).1
  have hretains := h.receiveEach hs ht hfirst'
  have hview := hsound.view_receive_retained hretains hsendable ht hop hlease now
  have hregister : i.operation ≠ .cancel := fun h => nomatch hop.symm.trans h
  have hsplit : s.receiveEach (first ++ (now, i) :: last) =
      ((s.receiveEach first).receive now i).receiveEach last := receiveEach_append ..
  have hdeaf := (hretains.receive hsound hsendable ht hregister now).deaf ht
  rw [hsplit, ← hview]
  refine (hsound.receive haddressed now).view_receiveEach fun d hd => ?_
  obtain ⟨hd, hsendable, hother⟩ := forall_delivered hlast hlater d hd
  exact ⟨hd, fun s' hs' hsame =>
    hs'.view_receive_deaf hsendable hother (hdeaf.of_view hsame) d.1⟩

end Slot

end ServiceRegistry
