import Mathlib.Data.List.Nodup
import ServiceRegistry.Proofs.Replication.Sequence

/-! # Registrations from peers

Of two records for one instance a registration keeps the newer one, and it imposes what that record
shows. So of registrations that come in any order, and more than once, the newest record stays. What
a run of registrations leaves is what a single one would: `Slot.Live.view_receiveEach`.
-/

namespace ServiceRegistry

set_option autoImplicit false

open Replication

namespace Registry

theorem newer_newer (x y z : Instance) : newer (newer x y) z = newer x (newer y z) := by
  unfold newer
  by_cases hxy : y.dirtyAt < x.dirtyAt <;> by_cases hyz : z.dirtyAt < y.dirtyAt
  · rw [if_pos hxy, if_pos hyz, if_pos hxy, if_pos (Int64.lt_trans hyz hxy)]
  · rw [if_pos hxy, if_neg hyz]
  · rw [if_neg hxy, if_pos hyz, if_neg hxy]
  · have hxz : ¬ z.dirtyAt < x.dirtyAt :=
      Int64.not_lt.mpr (Int64.le_trans (Int64.not_lt.mp hxy) (Int64.not_lt.mp hyz))
    rw [if_neg hxy, if_neg hyz, if_neg hxz]

theorem newer_self (x : Instance) : newer x x = x := ite_self x

theorem newer_eq_or (x y : Instance) : newer x y = x ∨ newer x y = y := by
  unfold newer
  split
  · exact .inl rfl
  · exact .inr rfl

theorem le_newer (x y : Instance) :
    x.dirtyAt ≤ (newer x y).dirtyAt ∧ y.dirtyAt ≤ (newer x y).dirtyAt := by
  unfold newer
  split
  · rename_i h
    exact ⟨Int64.le_refl _, Int64.le_of_lt h⟩
  · rename_i h
    exact ⟨Int64.not_lt.mp h, Int64.le_refl _⟩

end Registry

namespace Instance

/-- A record of a peer, once it is filed: an override `unknown` is dropped, and the status is the
one that another override imposes. -/
def received (x : Instance) : Instance :=
  { x.content with
    status := (Registry.imposed x).getD x.status
    overridden := Registry.imposed x }

theorem imposed_received (x : Instance) : Registry.imposed x.received = Registry.imposed x := by
  simp [Registry.imposed, received, Option.filter_filter]

theorem received_content (x : Instance) : x.content.received = x.received := rfl

theorem received_received (x : Instance) : x.received.received = x.received := by
  rw [received, imposed_received]
  cases himposed : Registry.imposed x <;> simp [received, content, himposed]

theorem received_newer {x x' y y' : Instance} (hx : x.received = x'.received)
    (hy : y.received = y'.received) :
    (Registry.newer x y).received = (Registry.newer x' y').received := by
  have hdirty : x.received.dirtyAt = x'.received.dirtyAt := by rw [hx]
  have hdirty' : y.received.dirtyAt = y'.received.dirtyAt := by rw [hy]
  change x.dirtyAt = x'.dirtyAt at hdirty
  change y.dirtyAt = y'.dirtyAt at hdirty'
  unfold Registry.newer
  rw [hdirty, hdirty']
  split
  · exact hx
  · exact hy

end Instance

/-- Two registrations in one: the newer record, under the lease of the later registration. -/
def Registry.superpose : Option (Instance × UInt64) → Option (Instance × UInt64) →
    Option (Instance × UInt64)
  | none, w => w
  | w, none => w
  | some (x, _), some (y, d) => some (newer x y, d)

theorem Registry.superpose_eq_none {w w' : Option (Instance × UInt64)} :
    superpose w w' = none ↔ w = none ∧ w' = none := by
  cases w <;> cases w' <;> simp [superpose]

theorem Registry.superpose_self (w : Option (Instance × UInt64)) : superpose w w = w := by
  cases w with
  | none => rfl
  | some p => exact congrArg (fun x => some (x, p.2)) (newer_self p.1)

namespace Slot

namespace View

def chosen (v : View) (incoming : Instance) : Instance :=
  match v.1 with
  | some (y, _) => Registry.newer y incoming
  | none => incoming

def enlist (v : View) : Option (Instance × UInt64) → View
  | none => v
  | some (x, d) => (some ((v.chosen x).received, d), Registry.imposed (v.chosen x))

theorem enlist_enlist (v : View) (w w' : Option (Instance × UInt64)) :
    (v.enlist w).enlist w' = v.enlist (Registry.superpose w w') := by
  cases w with
  | none => rfl
  | some p =>
    cases w' with
    | none => rfl
    | some p' =>
      obtain ⟨x, d⟩ := p
      obtain ⟨y, e⟩ := p'
      have hnewer : v.chosen (Registry.newer x y) = Registry.newer (v.chosen x) y := by
        unfold chosen
        split
        · exact (Registry.newer_newer ..).symm
        · rfl
      have hreceived : (Registry.newer (v.chosen x).received y).received =
          (Registry.newer (v.chosen x) y).received :=
        Instance.received_newer (v.chosen x).received_received rfl
      have himposed := congrArg Registry.imposed hreceived
      rw [Instance.imposed_received, Instance.imposed_received] at himposed
      simp only [enlist, Registry.superpose, hnewer]
      exact Prod.ext (congrArg (fun z => some (z, e)) hreceived) himposed

theorem enlist_twice (v : View) (w : Option (Instance × UInt64)) :
    (v.enlist w).enlist w = v.enlist w := by
  rw [enlist_enlist, Registry.superpose_self]

end View

variable {k : Key} {s : Slot} {x : Instance} {d : UInt64} {now : Millis}

theorem settle_peer (override : Option Status) (x : Instance) :
    (settle override .peer x).1 = Registry.imposed x ∧
      (settle override .peer x).2.content = x.received := by
  cases himposed : Registry.imposed x with
  | none => simp [settle, himposed, Instance.received, Instance.content]
  | some status =>
    have hoverridden := overridden_of_imposed himposed
    simp [settle, himposed, Instance.received, Instance.content, hoverridden]

def Live (s : Slot) : Prop := s.held = s.lease

theorem Sound.live (hs : s.Sound k) : s.Live := hs.held_eq_lease

theorem live_enroll (s : Slot) (now : Millis) (origin : Origin) (x : Instance) (d : UInt64) :
    (s.enroll now origin x d).slot.Live := by
  have hlive := leaseFor_isEvicted (s.enrolled now origin x).2.2 d now
    ((s.held.map (·.upSince)).getD 0)
  rw [Live, held]
  exact Option.filter_some_pos (congrArg (!·) hlive)

theorem Live.received_chosen (hs : s.Live) (x : Instance) :
    (s.chosen x).received = (s.view.chosen x).received := by
  rw [Slot.chosen, hs]
  cases hl : s.lease with
  | none => simp only [View.chosen, view, kept, hl, Option.map_none]
  | some l =>
    simp only [View.chosen, view, kept, hl, Option.map_some]
    exact Instance.received_newer l.holder.received_content.symm rfl

theorem Live.view_enroll (hs : s.Live) (now : Millis) (x : Instance) (d : UInt64) :
    (s.enroll now .peer x d).slot.view = s.view.enlist (some (x, d)) := by
  obtain ⟨himposed, hcontent⟩ := settle_peer s.override (s.chosen x)
  have hchosen := congrArg Registry.imposed (hs.received_chosen x)
  rw [Instance.imposed_received, Instance.imposed_received] at hchosen
  rw [view, kept_enroll, Option.map_some, content_enrolled, hcontent, hs.received_chosen]
  exact congrArg (Prod.mk _) (himposed.trans hchosen)

def enlist (s : Slot) (now : Millis) : Option (Instance × UInt64) → Slot
  | none => s
  | some (x, d) => (s.enroll now .peer x d).slot

theorem Live.enlist (hs : s.Live) (now : Millis) (w : Option (Instance × UInt64)) :
    (s.enlist now w).Live := by
  cases w with
  | none => exact hs
  | some p => exact live_enroll ..

theorem Live.view_enlist (hs : s.Live) (now : Millis) (w : Option (Instance × UInt64)) :
    (s.enlist now w).view = s.view.enlist w := by
  cases w with
  | none => rfl
  | some p => exact hs.view_enroll now p.1 p.2

theorem accept_of_dated (hdirty : x.dirtyAt ≠ 0) (now now' : Millis) (duration : Option UInt64) :
    accept now x duration = accept now' x duration := by
  simp only [accept, hdirty, if_false]

end Slot

namespace Replication.Item

def registrant? (i : Item) : Option (Instance × UInt64) :=
  i.record.bind fun x => (Slot.accept 0 x i.lease).toOption

/-- A registration that says when its record changed. -/
structure Registration (i : Item) : Prop where
  operation : i.operation = .register
  dated : ∀ x, i.record = some x → x.dirtyAt ≠ 0

theorem Registration.receive {i : Item} (h : i.Registration) (s : Slot) (now : Millis) :
    s.receive now i = s.enlist now i.registrant? := by
  rw [Slot.receive, command?, h.operation, registrant?]
  cases hrecord : i.record with
  | none => rfl
  | some x =>
    simp only [Option.map_some, Slot.move, Option.bind_some]
    rw [Slot.accept_of_dated (h.dated x hrecord) now 0]
    cases Slot.accept 0 x i.lease with
    | error e => rfl
    | ok p => rfl

/-- The one registration that a sequence of them comes to. -/
def standIn : List Item → Option (Instance × UInt64)
  | [] => none
  | i :: rest => Registry.superpose i.registrant? (standIn rest)

variable {items : List Item} {x : Instance} {d : UInt64}

theorem standIn_eq_none (h : standIn items = none) : ∀ i ∈ items, i.registrant? = none := by
  induction items with
  | nil =>
    intro j hj
    cases hj
  | cons i rest ih =>
    obtain ⟨hi, hrest⟩ := Registry.superpose_eq_none.mp h
    exact List.forall_mem_cons.mpr ⟨hi, ih hrest⟩

theorem standIn_eq_some (h : standIn items = some (x, d)) :
    (∃ i ∈ items, ∃ e, i.registrant? = some (x, e)) ∧
      ∀ i ∈ items, ∀ y e, i.registrant? = some (y, e) → y.dirtyAt ≤ x.dirtyAt := by
  induction items generalizing x d with
  | nil => cases h
  | cons i rest ih =>
    rw [standIn] at h
    cases hi : i.registrant? with
    | none =>
      rw [hi] at h
      obtain ⟨⟨j, hj, e, hx⟩, hmost⟩ := ih h
      refine ⟨⟨j, List.mem_cons_of_mem i hj, e, hx⟩, List.forall_mem_cons.mpr ⟨?_, hmost⟩⟩
      intro y e hy
      cases hi.symm.trans hy
    | some p =>
      obtain ⟨y, f⟩ := p
      cases hrest : standIn rest with
      | none =>
        rw [hi, hrest] at h
        cases h
        refine ⟨⟨i, List.mem_cons_self, d, hi⟩, List.forall_mem_cons.mpr ⟨?_, ?_⟩⟩
        · intro z e hz
          cases hi.symm.trans hz
          exact Int64.le_refl _
        · intro j hj z e hz
          cases (standIn_eq_none hrest j hj).symm.trans hz
      | some q =>
        obtain ⟨z, g⟩ := q
        rw [hi, hrest] at h
        cases h
        obtain ⟨⟨j, hj, e, hz⟩, hmost⟩ := ih hrest
        obtain ⟨hyle, hzle⟩ := Registry.le_newer y z
        refine ⟨?_, List.forall_mem_cons.mpr ⟨?_, ?_⟩⟩
        · rcases Registry.newer_eq_or y z with heq | heq <;> rw [heq]
          · exact ⟨i, List.mem_cons_self, f, hi⟩
          · exact ⟨j, List.mem_cons_of_mem i hj, e, hz⟩
        · intro w e hw
          cases hi.symm.trans hw
          exact hyle
        · intro j hj w e hw
          exact Int64.le_trans (hmost j hj w e hw) hzle

end Replication.Item

namespace Slot

/-- What a sequence of registrations leaves, one registration leaves too. -/
theorem Live.view_receiveEach {s : Slot} (hs : s.Live) {deliveries : List (Millis × Item)}
    (hitems : ∀ d ∈ deliveries, d.2.Registration) :
    (s.receiveEach deliveries).view =
      s.view.enlist (Item.standIn (deliveries.map Prod.snd)) := by
  induction deliveries generalizing s with
  | nil => rfl
  | cons d rest ih =>
    obtain ⟨hd, hrest⟩ := List.forall_mem_cons.mp hitems
    have hfirst : s.receiveEach (d :: rest) =
        (s.enlist d.1 d.2.registrant?).receiveEach rest := by
      rw [← hd.receive s d.1]
      rfl
    rw [hfirst, ih (hs.enlist d.1 _) hrest, hs.view_enlist, View.enlist_enlist]
    rfl

end Slot

namespace Replication.Item

/-- The item registers a record of an instance that a registry lets in. -/
structure Registers (i : Item) (k : Key) (x : Instance) : Prop where
  operation : i.operation = .register
  record : i.record = some x
  key : Registry.keyOf x.app x.id = k
  admissible : x.Admissible
  lease : checkLease x.id (Registry.grantedDuration i.lease x) = .ok ()
  positive : 0 < x.dirtyAt

variable {i : Item} {k : Key} {x : Instance}

theorem Registers.registration (h : i.Registers k x) : i.Registration where
  operation := h.operation
  dated y hy := by
    cases h.record.symm.trans hy
    exact (Int64.ne_of_lt h.positive).symm

theorem Registers.registrant? (h : i.Registers k x) :
    i.registrant? = some ({ x with app := Text.upper x.app },
      Registry.grantedDuration i.lease x) := by
  have hdirty : x.dirtyAt ≠ 0 := (Int64.ne_of_lt h.positive).symm
  have haccept : Slot.accept 0 x i.lease = .ok ({ x with app := Text.upper x.app },
      Registry.grantedDuration i.lease x) := by
    refine Slot.accept_eq_ok_iff.mpr ⟨h.admissible, rfl, h.lease, ?_⟩
    rw [if_neg hdirty]
  rw [Item.registrant?, h.record, Option.bind_some, haccept]
  rfl

theorem Registers.command_key (h : i.Registers k x) {c : Command} (hc : i.command? = some c) :
    c.key = k := by
  rw [command?, h.operation, h.record] at hc
  cases hc
  exact h.key

end Replication.Item

namespace Slot

/-- Registrations leave what the registration of a record leaves that none of them is newer than. -/
theorem Live.view_receiveEach_newest {s : Slot} (hs : s.Live) {k : Key}
    {deliveries : List (Millis × Item)} {items : List Item} (hne : items ≠ [])
    (hall : ∀ i, i ∈ deliveries.map Prod.snd ↔ i ∈ items)
    (hitems : ∀ i ∈ items, ∃ x, i.Registers k x) :
    ∃ i ∈ items, ∃ x d, i.Registers k x ∧
      (∀ j ∈ items, ∀ y, j.Registers k y → y.dirtyAt ≤ x.dirtyAt) ∧
      (s.receiveEach deliveries).view =
        s.view.enlist (some ({ x with app := Text.upper x.app }, d)) := by
  have hregistrations : ∀ d ∈ deliveries, d.2.Registration := by
    intro d hd
    obtain ⟨x, hx⟩ := hitems d.2 ((hall d.2).mp (List.mem_map_of_mem hd))
    exact hx.registration
  have hview := hs.view_receiveEach hregistrations
  cases hstand : Item.standIn (deliveries.map Prod.snd) with
  | none =>
    obtain ⟨i, rest, rfl⟩ := List.ne_nil_iff_exists_cons.mp hne
    obtain ⟨x, hx⟩ := hitems i List.mem_cons_self
    have hnone := Item.standIn_eq_none hstand i ((hall i).mpr List.mem_cons_self)
    cases hnone.symm.trans hx.registrant?
  | some p =>
    obtain ⟨z, d⟩ := p
    obtain ⟨⟨i, hi, e, hz⟩, hmost⟩ := Item.standIn_eq_some hstand
    obtain ⟨x, hx⟩ := hitems i ((hall i).mp hi)
    cases hz.symm.trans hx.registrant?
    refine ⟨i, (hall i).mp hi, x, d, hx, fun j hj y hy => ?_, ?_⟩
    · exact hmost j ((hall j).mpr hj) { y with app := Text.upper y.app } _ hy.registrant?
    · rw [hview, hstand]

end Slot

namespace Registry

variable {r : Registry} {app id : String} {items : List Item}

theorem Sound.view_slot (hr : r.Sound) (app id : String) :
    (r.slot (keyOf app id)).view =
      ((r.lease? app id).map fun l => (l.holder.content, l.duration), r.override? app id) := by
  rw [hr.lease?_eq_slot_lease, Slot.view, Slot.kept, Option.map_map]
  rfl

theorem Reachable.receiveEach (hr : r.Reachable) (deliveries : List (Millis × Item)) :
    (r.receiveEach deliveries).Reachable := by
  induction deliveries generalizing r with
  | nil => exact hr
  | cons d rest ih => exact ih (hr.receive d.1 d.2)

theorem Sound.receiveEach_of_view (hr : r.Sound) {deliveries : List (Millis × Item)}
    (hkey : ∀ d ∈ deliveries, ∀ c, d.2.command? = some c → c.key = keyOf app id) {x : Instance}
    {d : UInt64} {o : Option Status}
    (hview : ((r.slot (keyOf app id)).receiveEach deliveries).view = (some (x, d), o)) :
    ((r.receiveEach deliveries).lease? app id).map (·.holder.content) = some x ∧
      (r.receiveEach deliveries).override? app id = o := by
  obtain ⟨hsound, hslot⟩ := hr.slot_receiveEach hkey
  rw [← hslot, hsound.view_slot] at hview
  obtain ⟨l, hl, hpair⟩ := Option.map_eq_some_iff.mp (congrArg Prod.fst hview)
  refine ⟨?_, congrArg Prod.snd hview⟩
  rw [hl, Option.map_some]
  exact congrArg (fun p => some p.1) hpair

/-- Registrations of one instance merge to the record that changed last, in whatever order and
however often they come. -/
theorem Reachable.receive_registrations (hr : r.Reachable) (hne : items ≠ [])
    (hitems : ∀ i ∈ items, ∃ x, i.Registers (keyOf app id) x)
    (hdistinct : (items.map fun i => i.record.map (·.dirtyAt)).Nodup)
    {deliveries deliveries' : List (Millis × Item)}
    (hall : ∀ i, i ∈ deliveries.map Prod.snd ↔ i ∈ items)
    (hall' : ∀ i, i ∈ deliveries'.map Prod.snd ↔ i ∈ items) :
    let s := r.receiveEach deliveries
    let s' := r.receiveEach deliveries'
    ∃ x, (s.lease? app id).map (·.holder.content) = some x ∧
      (s'.lease? app id).map (·.holder.content) = some x ∧
      s.override? app id = x.overridden ∧ s'.override? app id = x.overridden ∧
      (r.lease? app id = none → ∃ i ∈ items, ∃ y, i.record = some y ∧
        (∀ j ∈ items, ∀ z, j.record = some z → z.dirtyAt ≤ y.dirtyAt) ∧
        x = ({ y with app := Text.upper y.app } : Instance).received) := by
  intro s s'
  have hkeys {deliveries : List (Millis × Item)}
      (hall : ∀ i, i ∈ deliveries.map Prod.snd ↔ i ∈ items) :
      ∀ d ∈ deliveries, ∀ c, d.2.command? = some c → c.key = keyOf app id := by
    intro d hd c hc
    obtain ⟨x, hx⟩ := hitems d.2 ((hall d.2).mp (List.mem_map_of_mem hd))
    exact hx.command_key hc
  have hlive := (hr.sound (keyOf app id)).live
  obtain ⟨i, hi, y, d, hy, hmost, hview⟩ := hlive.view_receiveEach_newest hne hall hitems
  obtain ⟨j, hj, z, e, hz, hmost', hview'⟩ := hlive.view_receiveEach_newest hne hall' hitems
  have hdirty : z.dirtyAt = y.dirtyAt := Int64.le_antisymm (hmost j hj z hz) (hmost' i hi y hy)
  have hsame : j = i := by
    refine List.inj_on_of_nodup_map hdistinct hj hi ?_
    rw [hy.record, hz.record, Option.map_some, Option.map_some, hdirty]
  subst hsame
  cases hy.record.symm.trans hz.record
  obtain ⟨hlease, hoverride⟩ := hr.sound.receiveEach_of_view (hkeys hall) hview
  obtain ⟨hlease', hoverride'⟩ := hr.sound.receiveEach_of_view (hkeys hall') hview'
  refine ⟨_, hlease, hlease', hoverride, hoverride', fun hnone => ?_⟩
  refine ⟨j, hj, y, hy.record, fun j' hj' z hz => ?_, ?_⟩
  · obtain ⟨z', hz'⟩ := hitems j' hj'
    cases hz.symm.trans hz'.record
    exact hmost j' hj' z hz'
  · rw [hr.sound.view_slot, hnone]
    rfl

/-- Two registrations in both orders, one of them twice. -/
theorem receive_registrations_twice :
    let x : Instance := { Instance.named "WEB" "web-1" "host" 80 with dirtyAt := 100 }
    let y : Instance := { Instance.named "WEB" "web-1" "moved" 80 with
      overridden := some .down, dirtyAt := 200 }
    let i := Item.of .register x 1
    let j := Item.of .register y 2
    let r := Registry.start {} 0
    let s := r.receiveEach [(3, j), (4, i), (5, j)]
    let s' := r.receiveEach [(3, i), (4, j)]
    r.lease? "WEB" "web-1" = none ∧
      ∃ z, (s.lease? "WEB" "web-1").map (·.holder.content) = some z ∧
        (s'.lease? "WEB" "web-1").map (·.holder.content) = some z ∧
        s.override? "WEB" "web-1" = z.overridden ∧ s'.override? "WEB" "web-1" = z.overridden ∧
        (r.lease? "WEB" "web-1" = none → ∃ i' ∈ [i, j], ∃ y', i'.record = some y' ∧
          (∀ j' ∈ [i, j], ∀ z', j'.record = some z' → z'.dirtyAt ≤ y'.dirtyAt) ∧
          z = ({ y' with app := Text.upper y'.app } : Instance).received) := by
  intro x y i j r s s'
  have hi : i.Registers (keyOf "WEB" "web-1") x :=
    ⟨rfl, rfl, by decide +kernel, by decide +kernel, by decide +kernel, by decide⟩
  have hj : j.Registers (keyOf "WEB" "web-1") y :=
    ⟨rfl, rfl, by decide +kernel, by decide +kernel, by decide +kernel, by decide⟩
  have hitems : ∀ i' ∈ [i, j], ∃ x, i'.Registers (keyOf "WEB" "web-1") x :=
    List.forall_mem_cons.mpr ⟨⟨x, hi⟩, List.forall_mem_singleton.mpr ⟨y, hj⟩⟩
  have hdistinct : ([i, j].map fun i' => i'.record.map (·.dirtyAt)).Nodup := by decide
  refine ⟨by decide +kernel, ?_⟩
  refine Reachable.receive_registrations (.start {} 0) (List.cons_ne_nil i [j]) hitems hdistinct
    (fun i' => ?_) fun i' => ?_
  · simp only [List.map_cons, List.map_nil, List.mem_cons, List.not_mem_nil, or_false]
    tauto
  · simp

/-- The record that stays is not always the one that was sent: an override takes its status over,
and the name of the application is put in upper case. -/
theorem receive_registration_changed :
    let x : Instance := { Instance.named "WEB" "web-1" "host" 80 with
      overridden := some .down, dirtyAt := 100 }
    let y : Instance := { Instance.named "web" "web-1" "host" 80 with dirtyAt := 100 }
    let i := Item.of .register x 1
    let j := Item.of .register y 1
    let r := Registry.start {} 0
    i.Registers (keyOf "WEB" "web-1") x ∧ j.Registers (keyOf "WEB" "web-1") y ∧
      r.lease? "WEB" "web-1" = none ∧
      ((r.receiveEach [(2, i)]).lease? "WEB" "web-1").map (·.holder.content) ≠
        some x.plain.content ∧
      ((r.receiveEach [(2, j)]).lease? "WEB" "web-1").map (·.holder.content) ≠
        some y.plain.content := by
  intro x y i j r
  have hi : i.Registers (keyOf "WEB" "web-1") x :=
    ⟨rfl, rfl, by decide +kernel, by decide +kernel, by decide +kernel, by decide⟩
  have hupper : Text.upper y.app = "WEB" := by decide +kernel
  have hadmissible : y.Admissible := by
    rw [Instance.Admissible, hupper]
    decide +kernel
  have hkey : keyOf y.app y.id = keyOf "WEB" "web-1" := by
    have hsame : "WEB" = Text.upper "WEB" := by decide +kernel
    exact Prod.ext (hupper.trans hsame) rfl
  have hj : j.Registers (keyOf "WEB" "web-1") y :=
    ⟨rfl, rfl, hkey, hadmissible, by decide +kernel, by decide⟩
  refine ⟨hi, hj, by decide +kernel, by decide +kernel, fun hsame => ?_⟩
  have hr : (r.receiveEach [(2, j)]).Reachable := (Reachable.start {} 0).receiveEach _
  obtain ⟨l, hl, hcontent⟩ := Option.map_eq_some_iff.mp hsame
  rw [hr.sound.lease?_eq_slot_lease] at hl
  have hfiled : l.holder.app = Text.upper "WEB" :=
    congrArg Prod.fst ((hr.sound _).tended hl).filed
  have hsent : l.holder.app = "web" := congrArg Instance.app hcontent
  exact absurd (hsent.symm.trans hfiled) (by decide +kernel)

end Registry

end ServiceRegistry
