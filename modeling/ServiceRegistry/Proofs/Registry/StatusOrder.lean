import Mathlib.Data.List.Nodup
import ServiceRegistry.Proofs.Registry.Receipt

/-! # Updates of a status in any order

Peers' updates of one status, all newer than the record, are received in some order. An update
that finds its status in place is dropped together with its time, and then an older one counts
again. `receive_updates_iff` says for which updates every order ends with the latest status.
-/

namespace ServiceRegistry

set_option autoImplicit false

open Replication

def Instance.Bears (s : Status) (x : Instance) : Prop := x.status = s ∧ x.overridden = some s

instance (s : Status) (x : Instance) : Decidable (x.Bears s) :=
  inferInstanceAs (Decidable (_ ∧ _))

namespace Replication.Item

/-- An item that imposes a status on the instance of a key, with a time of change. -/
structure Update (k : Key) (i : Item) : Prop where
  operation : i.operation = .statusUpdate
  key : Registry.keyOf i.app i.id = k
  status : i.status ≠ none
  positive : 0 < i.dirtyAt

theorem Update.command_key {k : Key} {i : Item} (h : i.Update k) {c : Command}
    (hc : i.command? = some c) : c.key = k := by
  simp only [command?, h.operation, Option.map_eq_some_iff] at hc
  obtain ⟨s, -, rfl⟩ := hc
  exact h.key

/-- Updates of a record that end with one status in whatever order: those of that status are
later than all others and, if the record bears it already, there are no others. -/
structure Settles (s : Status) (x : Instance) (override : Option Status) (items : List Item) :
    Prop where
  apart : ∀ i ∈ items, i.status = some s → ∀ j ∈ items, j.status ≠ some s → j.dirtyAt < i.dirtyAt
  borne : x.Bears s → override = some s ∧ ∀ i ∈ items, i.status = some s

end Replication.Item

namespace Slot

variable {k : Key} {slot : Slot} {l : Lease Instance} {now : Millis} {i j : Item}
  {items : List Item} {s status : Status}

/-- An update is dropped, being stale or in place, or sets its status and its time. -/
inductive Updates (slot : Slot) (l : Lease Instance) (i : Item) (status : Status) (after : Slot) :
    Prop where
  | stale : i.dirtyAt < l.holder.dirtyAt → after = slot → Updates slot l i status after
  | inPlace : l.holder.Bears status → after = slot → Updates slot l i status after
  | sets {l' : Lease Instance} : l.holder.dirtyAt ≤ i.dirtyAt → ¬ l.holder.Bears status →
    after.lease = some l' → after.override = some status → l'.holder.Bears status →
    l'.holder.dirtyAt = i.dirtyAt → Updates slot l i status after

theorem Sound.updates_receive (hs : slot.Sound k) (hl : slot.lease = some l) (hi : i.Update k)
    (hstatus : i.status = some status) (now : Millis) :
    Updates slot l i status (slot.receive now i) := by
  have hreceive : slot.receive now i =
      (slot.changeStatus now (some i.dirtyAt) (impose status)).slot := by
    simp only [receive, Item.command?, hi.operation, hstatus, Option.map_some, Slot.move,
      Registry.positive_of_pos hi.positive]
  rw [hreceive]
  simp only [Slot.changeStatus, hs.held_eq_lease, hl]
  by_cases hstale : i.dirtyAt < l.holder.dirtyAt
  · rw [if_pos (by simpa using hstale)]
    exact .stale hstale rfl
  rw [if_neg (by simpa using hstale)]
  by_cases hplace : l.holder.Bears status
  · rw [show impose status slot.override l.holder = none from if_pos hplace]
    exact .inPlace hplace rfl
  · rw [show impose status slot.override l.holder = some _ from if_neg hplace]
    have hholder := holder_relabel l now
      (stamp now (some i.dirtyAt) { l.holder with overridden := some status, status })
    refine .sets (Int64.not_lt.mp hstale) hplace rfl rfl ?_ ?_
    · rw [hholder]
      exact ⟨rfl, rfl⟩
    · rw [hholder]
      rfl

theorem Sound.receive_update (hs : slot.Sound k) (hi : i.Update k) (now : Millis) :
    (slot.receive now i).Sound k := by
  unfold Slot.receive
  split
  · rename_i c hc
    have hkey := hi.command_key hc
    subst hkey
    exact hs.move now
  · exact hs

/-- The record does not bear the status, and every update of that status is newer. -/
def Awaits (s : Status) (items : List Item) (slot : Slot) : Prop :=
  ∃ l, slot.lease = some l ∧ ¬ l.holder.Bears s ∧
    ∀ i ∈ items, i.status = some s → l.holder.dirtyAt < i.dirtyAt

/-- The record bears the status, and every other update is older. -/
def Rests (s : Status) (items : List Item) (slot : Slot) : Prop :=
  ∃ l, slot.lease = some l ∧ l.holder.Bears s ∧ slot.override = some s ∧
    ∀ i ∈ items, i.status ≠ some s → i.dirtyAt < l.holder.dirtyAt

theorem Rests.receive (h : slot.Rests s items) (hs : slot.Sound k) (hmem : i ∈ items)
    (hi : i.Update k) (now : Millis) : (slot.receive now i).Rests s items := by
  obtain ⟨l, hl, hbears, hoverride, hothers⟩ := h
  obtain ⟨status, hstatus⟩ := Option.ne_none_iff_exists'.mp hi.status
  rcases hs.updates_receive hl hi hstatus now with
    ⟨-, hsame⟩ | ⟨-, hsame⟩ | ⟨hfresh, hplace, -, -, -, -⟩
  · rw [hsame]
    exact ⟨l, hl, hbears, hoverride, hothers⟩
  · rw [hsame]
    exact ⟨l, hl, hbears, hoverride, hothers⟩
  · have hother : i.status ≠ some s := by
      intro h
      cases hstatus.symm.trans h
      exact hplace hbears
    exact absurd (hothers i hmem hother) (Int64.not_lt.mpr hfresh)

theorem Awaits.receive (h : slot.Awaits s items) (hs : slot.Sound k)
    (hapart : ∀ i ∈ items, i.status = some s → ∀ j ∈ items, j.status ≠ some s →
      j.dirtyAt < i.dirtyAt)
    (hmem : i ∈ items) (hi : i.Update k) (now : Millis) :
    (i.status = some s ∧ (slot.receive now i).Rests s items) ∨
      (i.status ≠ some s ∧ (slot.receive now i).Awaits s items) := by
  obtain ⟨l, hl, hbears, hnewer⟩ := h
  obtain ⟨status, hstatus⟩ := Option.ne_none_iff_exists'.mp hi.status
  have hupdates := hs.updates_receive hl hi hstatus now
  by_cases hsame : i.status = some s
  · cases hstatus.symm.trans hsame
    refine .inl ⟨hsame, ?_⟩
    rcases hupdates with ⟨hstale, -⟩ | ⟨hplace, -⟩ | ⟨-, -, hl', hoverride, hbears', hdirty⟩
    · exact absurd (hnewer i hmem hsame) (Int64.lt_asymm hstale)
    · exact absurd hplace hbears
    · refine ⟨_, hl', hbears', hoverride, ?_⟩
      rw [hdirty]
      exact hapart i hmem hsame
  · refine .inr ⟨hsame, ?_⟩
    rcases hupdates with ⟨-, hsame'⟩ | ⟨-, hsame'⟩ | ⟨-, -, hl', -, hbears', hdirty⟩
    · rw [hsame']
      exact ⟨l, hl, hbears, hnewer⟩
    · rw [hsame']
      exact ⟨l, hl, hbears, hnewer⟩
    · refine ⟨_, hl', ?_, ?_⟩
      · rintro ⟨hs', -⟩
        exact hsame (hstatus.trans (congrArg some (hbears'.1.symm.trans hs')))
      · intro j hj hj'
        rw [hdirty]
        exact hapart j hj hj' i hmem hsame

variable {deliveries : List (Millis × Item)}

theorem Rests.receiveEach (h : slot.Rests s items) (hs : slot.Sound k)
    (hitems : ∀ i ∈ items, i.Update k) (hmem : ∀ d ∈ deliveries, d.2 ∈ items) :
    (slot.receiveEach deliveries).Rests s items := by
  induction deliveries generalizing slot with
  | nil => exact h
  | cons d rest ih =>
    obtain ⟨hd, hrest⟩ := List.forall_mem_cons.mp hmem
    have hi := hitems d.2 hd
    exact ih (h.receive hs hd hi d.1) (hs.receive_update hi d.1) hrest

theorem Awaits.receiveEach (h : slot.Awaits s items) (hs : slot.Sound k)
    (hapart : ∀ i ∈ items, i.status = some s → ∀ j ∈ items, j.status ≠ some s →
      j.dirtyAt < i.dirtyAt)
    (hitems : ∀ i ∈ items, i.Update k) (hmem : ∀ d ∈ deliveries, d.2 ∈ items)
    (hsome : ∃ d ∈ deliveries, d.2.status = some s) :
    (slot.receiveEach deliveries).Rests s items := by
  induction deliveries generalizing slot with
  | nil =>
    obtain ⟨d, hd, -⟩ := hsome
    cases hd
  | cons d rest ih =>
    obtain ⟨hd, hrest⟩ := List.forall_mem_cons.mp hmem
    have hi := hitems d.2 hd
    have hsound := hs.receive_update hi d.1
    rcases h.receive hs hapart hd hi d.1 with ⟨-, hrests⟩ | ⟨hne, hawaits⟩
    · exact hrests.receiveEach hsound hitems hrest
    · obtain ⟨d', hd', hstatus⟩ := hsome
      rcases List.mem_cons.mp hd' with rfl | hd'
      · exact absurd hstatus hne
      · exact ih hawaits hsound hrest ⟨d', hd', hstatus⟩

theorem Sound.receiveEach_inPlace (hs : slot.Sound k) (hl : slot.lease = some l)
    (hbears : l.holder.Bears s) {order : List Item}
    (horder : ∀ i ∈ order, i.Update k ∧ i.status = some s) :
    slot.receiveEach (order.map (Prod.mk now)) = slot := by
  induction order with
  | nil => rfl
  | cons i rest ih =>
    obtain ⟨⟨hi, hstatus⟩, hrest⟩ := List.forall_mem_cons.mp horder
    have hsame : slot.receive now i = slot := by
      rcases hs.updates_receive hl hi hstatus now with
        ⟨-, hsame⟩ | ⟨-, hsame⟩ | ⟨-, hplace, -, -, -, -⟩
      · exact hsame
      · exact hsame
      · exact absurd hbears hplace
    rw [Slot.receiveEach, List.map_cons, List.foldl_cons, hsame]
    exact ih hrest

theorem Sound.receiveEach_others (hs : slot.Sound k) (hl : slot.lease = some l)
    (hbears : ¬ l.holder.Bears s) {order : List Item}
    (horder : ∀ i ∈ order, i.Update k ∧ i.status ≠ some s) :
    ∃ l', (slot.receiveEach (order.map (Prod.mk now))).lease = some l' ∧
      ¬ l'.holder.Bears s := by
  induction order generalizing slot l with
  | nil => exact ⟨l, hl, hbears⟩
  | cons i rest ih =>
    obtain ⟨⟨hi, hne⟩, hrest⟩ := List.forall_mem_cons.mp horder
    obtain ⟨status, hstatus⟩ := Option.ne_none_iff_exists'.mp hi.status
    have hsound := hs.receive_update hi now
    rcases hs.updates_receive hl hi hstatus now with
      ⟨-, hsame⟩ | ⟨-, hsame⟩ | ⟨-, -, hl', -, hbears', -⟩
    · have hl' : (slot.receive now i).lease = some l := by rw [hsame, hl]
      exact ih hsound hl' hbears hrest
    · have hl' : (slot.receive now i).lease = some l := by rw [hsame, hl]
      exact ih hsound hl' hbears hrest
    · refine ih hsound hl' ?_ hrest
      rintro ⟨hs', -⟩
      exact hne (hstatus.trans (congrArg some (hbears'.1.symm.trans hs')))

def Bears (s : Status) (slot : Slot) : Prop :=
  ∃ l, slot.lease = some l ∧ l.holder.Bears s ∧ slot.override = some s

/-- A record that bears the status loses it to a newer update, whatever else comes first of the
status itself and afterwards of others. -/
theorem Sound.not_bears_of_overtaken (hs : slot.Sound k) (hl : slot.lease = some l)
    (hbears : l.holder.Bears s) {before after : List Item}
    (hbefore : ∀ i ∈ before, i.Update k ∧ i.status = some s) (hj : j.Update k)
    (hstatus : j.status ≠ some s) (hnewer : l.holder.dirtyAt < j.dirtyAt)
    (hafter : ∀ i ∈ after, i.Update k ∧ i.status ≠ some s) :
    ¬ (slot.receiveEach ((before ++ j :: after).map (Prod.mk now))).Bears s := by
  have hsplit : slot.receiveEach ((before ++ j :: after).map (Prod.mk now)) =
      (slot.receive now j).receiveEach (after.map (Prod.mk now)) := by
    have hsame : (before.map (Prod.mk now)).foldl (fun s d => s.receive d.1 d.2) slot = slot :=
      hs.receiveEach_inPlace hl hbears hbefore
    rw [Slot.receiveEach, List.map_append, List.foldl_append, hsame]
    rfl
  obtain ⟨status, hs'⟩ := Option.ne_none_iff_exists'.mp hj.status
  have hother : status ≠ s := fun h => hstatus (hs'.trans (congrArg some h))
  have hlost : ∃ l', (slot.receive now j).lease = some l' ∧ ¬ l'.holder.Bears s := by
    rcases hs.updates_receive hl hj hs' now with
      ⟨hstale, -⟩ | ⟨hplace, -⟩ | ⟨-, -, hl', -, hbears', -⟩
    · exact absurd hnewer (Int64.lt_asymm hstale)
    · exact absurd (hplace.1.symm.trans hbears.1) hother
    · exact ⟨_, hl', fun h => hother (hbears'.1.symm.trans h.1)⟩
  obtain ⟨l', hl', hnot⟩ := hlost
  obtain ⟨l'', hl'', hnot'⟩ := (hs.receive_update hj now).receiveEach_others hl' hnot hafter
  rw [hsplit]
  rintro ⟨m, hm, hbears', -⟩
  cases hl''.symm.trans hm
  exact hnot' hbears'

theorem Sound.rests_receiveEach (hs : slot.Sound k) (hl : slot.lease = some l)
    (hitems : ∀ i ∈ items, i.Update k) (hnewer : ∀ i ∈ items, l.holder.dirtyAt < i.dirtyAt)
    (h : Item.Settles s l.holder slot.override items) (hsome : ∃ i ∈ items, i.status = some s)
    (hperm : (deliveries.map Prod.snd).Perm items) :
    (slot.receiveEach deliveries).Rests s items := by
  have hmem : ∀ d ∈ deliveries, d.2 ∈ items := fun d hd =>
    hperm.mem_iff.mp (List.mem_map_of_mem hd)
  by_cases hbears : l.holder.Bears s
  · obtain ⟨hoverride, hall⟩ := h.borne hbears
    have hrests : slot.Rests s items :=
      ⟨l, hl, hbears, hoverride, fun i hi hne => absurd (hall i hi) hne⟩
    exact hrests.receiveEach hs hitems hmem
  · have hawaits : slot.Awaits s items := ⟨l, hl, hbears, fun i hi _ => hnewer i hi⟩
    obtain ⟨i, hi, hstatus⟩ := hsome
    obtain ⟨d, hd, rfl⟩ := List.mem_map.mp (hperm.mem_iff.mpr hi)
    exact hawaits.receiveEach hs h.apart hitems hmem ⟨d, hd, hstatus⟩

theorem Sound.bears_receive (hs : slot.Sound k) (hl : slot.lease = some l) (hi : i.Update k)
    (hstatus : i.status = some s) (hnewer : l.holder.dirtyAt < i.dirtyAt)
    (hearlier : i.dirtyAt < j.dirtyAt) (now : Millis) :
    ∃ l', (slot.receive now i).lease = some l' ∧ l'.holder.Bears s ∧
      l'.holder.dirtyAt < j.dirtyAt := by
  rcases hs.updates_receive hl hi hstatus now with
    ⟨hstale, -⟩ | ⟨hplace, hsame⟩ | ⟨-, -, hl', -, hbears, hdirty⟩
  · exact absurd hnewer (Int64.lt_asymm hstale)
  · rw [hsame]
    exact ⟨l, hl, hplace, Int64.lt_trans hnewer hearlier⟩
  · refine ⟨_, hl', hbears, ?_⟩
    rw [hdirty]
    exact hearlier

theorem Rests.bears (h : slot.Rests s items) : slot.Bears s := by
  obtain ⟨l, hl, hbears, hoverride, -⟩ := h
  exact ⟨l, hl, hbears, hoverride⟩

def imposing (s : Status) (items : List Item) : List Item := items.filter (·.status = some s)

def changing (s : Status) (items : List Item) : List Item := items.filter (¬ ·.status = some s)

theorem mem_imposing : i ∈ imposing s items ↔ i ∈ items ∧ i.status = some s := by simp [imposing]

theorem mem_changing : i ∈ changing s items ↔ i ∈ items ∧ i.status ≠ some s := by simp [changing]

theorem updates_imposing (hitems : ∀ i ∈ items, i.Update k) :
    ∀ i ∈ imposing s items, i.Update k ∧ i.status = some s := by
  intro i hi
  obtain ⟨hmem, hstatus⟩ := mem_imposing.mp hi
  exact ⟨hitems i hmem, hstatus⟩

theorem updates_changing (hitems : ∀ i ∈ items, i.Update k) :
    ∀ i ∈ changing s items, i.Update k ∧ i.status ≠ some s := by
  intro i hi
  obtain ⟨hmem, hstatus⟩ := mem_changing.mp hi
  exact ⟨hitems i hmem, hstatus⟩

theorem perm_overtaking (hj : j ∈ items) (hjs : j.status ≠ some s) :
    (imposing s items ++ j :: (changing s items).erase j).Perm items := by
  have hsplit : (imposing s items ++ changing s items).Perm items := by
    simpa [imposing, changing] using List.filter_append_perm (·.status = some s) items
  have hrest := List.perm_cons_erase (mem_changing.mpr ⟨hj, hjs⟩)
  exact (hrest.symm.append_left _).trans hsplit

section AllOrders

variable (hs : slot.Sound k) (hl : slot.lease = some l) (hitems : ∀ i ∈ items, i.Update k)
  (hnewer : ∀ i ∈ items, l.holder.dirtyAt < i.dirtyAt)
  (hall : ∀ order : List Item, order.Perm items →
    (slot.receiveEach (order.map (Prod.mk now))).Bears s)
include hs hl hitems hnewer hall

theorem Sound.apart_of_bears (hdistinct : (items.map (·.dirtyAt)).Nodup) (hi : i ∈ items)
    (his : i.status = some s) (hj : j ∈ items) (hjs : j.status ≠ some s) :
    j.dirtyAt < i.dirtyAt := by
  by_contra hearlier
  have hearlier : i.dirtyAt < j.dirtyAt := by
    refine Int64.lt_of_le_of_ne (Int64.not_lt.mp hearlier) fun h => ?_
    cases List.inj_on_of_nodup_map hdistinct hi hj h
    exact hjs his
  obtain ⟨l', hl', hbears, hlater⟩ :=
    hs.bears_receive hl (hitems i hi) his (hnewer i hi) hearlier now
  have hfirst := List.perm_cons_erase (mem_imposing.mpr ⟨hi, his⟩)
  have hlast := hall _ ((hfirst.symm.append_right _).trans (perm_overtaking hj hjs))
  exact (hs.receive_update (hitems i hi) now).not_bears_of_overtaken hl' hbears
    (fun m hm => updates_imposing hitems m (List.mem_of_mem_erase hm)) (hitems j hj) hjs hlater
    (fun m hm => updates_changing hitems m (List.mem_of_mem_erase hm)) hlast

theorem Sound.borne_of_bears (hbears : l.holder.Bears s) :
    slot.override = some s ∧ ∀ i ∈ items, i.status = some s := by
  have hshown : ∀ i ∈ items, i.status = some s := by
    intro j hj
    by_contra hjs
    exact hs.not_bears_of_overtaken hl hbears (updates_imposing hitems) (hitems j hj) hjs
      (hnewer j hj) (fun m hm => updates_changing hitems m (List.mem_of_mem_erase hm))
      (hall _ (perm_overtaking hj hjs))
  refine ⟨?_, hshown⟩
  have hsame : slot.receiveEach (items.map (Prod.mk now)) = slot :=
    hs.receiveEach_inPlace hl hbears fun i hi => ⟨hitems i hi, hshown i hi⟩
  obtain ⟨-, -, -, hoverride⟩ := hall items (.refl _)
  rwa [hsame] at hoverride

end AllOrders

end Slot

namespace Registry

variable {r : Registry} {app id : String} {l : Lease Instance} {items : List Item} {s : Status}

def Bears (r : Registry) (app id : String) (s : Status) : Prop :=
  (∃ x ∈ r.instance? app id, x.Bears s) ∧ r.override? app id = some s

instance : Decidable (r.Bears app id s) := inferInstanceAs (Decidable (_ ∧ _))

theorem Sound.bears_iff (hr : r.Sound) :
    r.Bears app id s ↔ (r.slot (keyOf app id)).Bears s := by
  simp only [Bears, Slot.Bears, instance?, hr.lease?_eq_slot_lease, Option.mem_def,
    Option.map_eq_some_iff]
  constructor
  · rintro ⟨⟨_, ⟨l, hl, rfl⟩, hbears⟩, hoverride⟩
    exact ⟨l, hl, hbears, hoverride⟩
  · rintro ⟨l, hl, hbears, hoverride⟩
    exact ⟨⟨_, ⟨l, hl, rfl⟩, hbears⟩, hoverride⟩

/-- Newer updates of a record at different times end with the status of the latest in every
order of delivery exactly if they settle it. -/
theorem receive_updates_iff (hr : r.Reachable) (hheld : r.lease? app id = some l)
    (hitems : ∀ i ∈ items, i.Update (keyOf app id) ∧ l.holder.dirtyAt < i.dirtyAt)
    (hdistinct : (items.map (·.dirtyAt)).Nodup) (hsome : ∃ i ∈ items, i.status = some s) :
    (∀ deliveries : List (Millis × Item), (deliveries.map Prod.snd).Perm items →
      (r.receiveEach deliveries).Bears app id s) ↔
    Item.Settles s l.holder (r.override? app id) items := by
  have hslot : (r.slot (keyOf app id)).lease = some l := hr.sound.lease?_eq_slot_lease ▸ hheld
  have hs := hr.sound (keyOf app id)
  have hupdate := fun i hi => (hitems i hi).1
  have hnewer := fun i hi => (hitems i hi).2
  have hview (deliveries : List (Millis × Item)) (hperm : (deliveries.map Prod.snd).Perm items) :
      (r.receiveEach deliveries).Bears app id s ↔
        ((r.slot (keyOf app id)).receiveEach deliveries).Bears s := by
    have hkey : ∀ d ∈ deliveries, ∀ c, d.2.command? = some c → c.key = keyOf app id :=
      fun d hd c hc => (hupdate d.2 (hperm.mem_iff.mp (List.mem_map_of_mem hd))).command_key hc
    obtain ⟨hsound, hafter⟩ := hr.sound.slot_receiveEach hkey
    rw [hsound.bears_iff, hafter]
  constructor
  · intro hall
    have horders (order : List Item) (hperm : order.Perm items) :
        ((r.slot (keyOf app id)).receiveEach (order.map (Prod.mk (0 : Millis)))).Bears s := by
      have hperm' : ((order.map (Prod.mk (0 : Millis))).map Prod.snd).Perm items := by
        simpa [Function.comp_def] using hperm
      exact (hview _ hperm').mp (hall _ hperm')
    constructor
    · intro i hi his j hj hjs
      exact hs.apart_of_bears hslot hupdate hnewer horders hdistinct hi his hj hjs
    · intro hbears
      exact hs.borne_of_bears hslot hupdate hnewer horders hbears
  · intro h deliveries hperm
    rw [hview deliveries hperm]
    exact (hs.rests_receiveEach hslot hupdate hnewer h hsome hperm).bears

/-- An instance out of rotation is told of `down` at 300 and of `starting` at 200. In this order it
ends with `starting`: the first update finds its status in place and leaves no time behind. Told
of `down` alone, it bears it. -/
theorem receive_updates_disordered :
    let x := { Instance.named "WEB" "web-1" "host" 80 with
      overridden := some .down, dirtyAt := 100 }
    let r := ((Registry.start {} 1).perform 2 (.register .client x none)).registry
    let update (status : Status) (dirtyAt : Millis) :=
      Item.of .statusUpdate { x with status, dirtyAt } 3
    r.Reachable ∧ ∃ l, r.lease? "WEB" "web-1" = some l ∧ l.holder.dirtyAt = 100 ∧
      (¬ ∀ deliveries : List (Millis × Item),
        (deliveries.map Prod.snd).Perm [update .down 300, update .starting 200] →
        (r.receiveEach deliveries).Bears "WEB" "web-1" .down) ∧
      (r.receiveEach [(4, update .down 300), (5, update .starting 200)]).Bears "WEB" "web-1"
        .starting ∧
      (r.receiveEach [(4, update .down 300)]).Bears "WEB" "web-1" .down := by
  intro x r update
  have hr : r.Reachable := .perform 2 _ (.start {} 1)
  have hheld : r.lease? "WEB" "web-1" = some
      { Lease.grant { x with status := .down, lastChange := some .added, updatedAt := 2 } 90 2 with
        upSince := 0 } := by decide +kernel
  have hupdate (status : Status) (dirtyAt : Millis) (hpositive : 0 < dirtyAt) :
      (update status dirtyAt).Update (keyOf "WEB" "web-1") :=
    ⟨rfl, rfl, by simp [update, Item.of], hpositive⟩
  refine ⟨hr, _, hheld, rfl, ?_, ?_, ?_⟩
  · have hitems : ∀ i ∈ [update .down 300, update .starting 200],
        i.Update (keyOf "WEB" "web-1") ∧ (100 : Millis) < i.dirtyAt := by
      simp [hupdate]
      decide
    rw [receive_updates_iff hr hheld hitems (by simp; decide) ⟨_, List.mem_cons_self, rfl⟩]
    intro h
    have hshown := (h.borne ⟨rfl, rfl⟩).2 (update .starting 200) (by simp)
    exact nomatch hshown
  · decide +kernel
  · have hitems : ∀ i ∈ [update .down 300],
        i.Update (keyOf "WEB" "web-1") ∧ (100 : Millis) < i.dirtyAt := by
      simp [hupdate]
      decide
    have hiff := receive_updates_iff hr hheld hitems (by simp) ⟨_, List.mem_cons_self, rfl⟩
    refine hiff.mpr ⟨?_, ?_⟩ [(4, update .down 300)] (.refl _)
    · intro _ _ _ j hj hjs
      cases List.mem_singleton.mp hj
      exact absurd rfl hjs
    · intro _
      exact ⟨by decide +kernel, by simp [update, Item.of]⟩

end Registry

end ServiceRegistry
