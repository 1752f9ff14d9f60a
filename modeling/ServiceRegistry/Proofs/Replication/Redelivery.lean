import ServiceRegistry.Proofs.Replication.Convergence
import ServiceRegistry.Proofs.Replication.Emission
import ServiceRegistry.Proofs.Replication.Enqueued
import ServiceRegistry.Proofs.Replication.Registrations

/-! # Redelivery

A batch that is applied once more changes nothing. A queue holds registrations of an instance and at
most one other item behind them: `Queue.Fed.lined`. So the second pass meets what the first one
left, and each comparison of times ends as it should: `Item.effects_twice`.
-/

namespace ServiceRegistry

set_option autoImplicit false

open Replication

namespace Slot

variable {k : Key} {s : Slot} {t : Millis} {change : StatusChange} {status : Status}
  {override : Option Status}

namespace View

def alter (v : View) (t : Millis) (change : StatusChange) : View :=
  match v.1 with
  | none => v
  | some (x, d) =>
    if t < x.dirtyAt then v
    else match change v.2 x with
      | none => v
      | some (override, changed) => (some ({ changed with dirtyAt := t }, d), override)

def altered (t : Millis) (status : Status) (override : Option Status) (x : Instance) (d : UInt64) :
    View :=
  (some ({ x with status, overridden := override, dirtyAt := t }, d), override)

theorem alter_eq_or (h : Puts change status override) (v : View) (t : Millis) :
    v.alter t change = v ∨ ∃ x d, v.1 = some (x, d) ∧ x.dirtyAt ≤ t ∧
      v.alter t change = altered t status override x d := by
  unfold alter
  split
  · exact .inl rfl
  · rename_i x d hx
    split
    · exact .inl rfl
    · rename_i hle
      cases hp : change v.2 x with
      | none => exact .inl rfl
      | some p =>
        cases h.changed _ _ _ hp
        exact .inr ⟨x, d, hx, Int64.not_lt.mp hle, rfl⟩

theorem alter_of_time (h : Puts change status override) {x : Instance} (hx : x.dirtyAt = t)
    (d : UInt64) : alter (some (x, d), x.overridden) t change = altered t status override x d := by
  have hle : ¬ t < x.dirtyAt := hx ▸ Int64.lt_irrefl
  simp only [alter, if_neg hle]
  cases hp : change x.overridden x with
  | none =>
    obtain ⟨rfl, rfl⟩ := h.inPlace _ x hp
    simp only [altered, ← hx]
  | some p =>
    cases h.changed _ _ _ hp
    rfl

theorem alter_twice (h : Puts change status override) (v : View) (t : Millis) :
    (v.alter t change).alter t change = v.alter t change := by
  rcases alter_eq_or h v t with hsame | ⟨x, d, -, -, haltered⟩
  · rw [hsame, hsame]
  · rw [haltered]
    exact alter_of_time h rfl d

theorem chosen_eq_or (v : View) (x : Instance) :
    v.chosen x = x ∨ x.dirtyAt < (v.chosen x).dirtyAt := by
  unfold chosen
  split
  · unfold Registry.newer
    split
    · rename_i hlt
      exact .inr hlt
    · exact .inl rfl
  · exact .inl rfl

theorem alter_enlist_alter_enlist (h : Puts change status override) (v : View) (t : Millis)
    (w : Option (Instance × UInt64)) :
    (((v.enlist w).alter t change).enlist w).alter t change = (v.enlist w).alter t change := by
  cases w with
  | none => exact alter_twice h v t
  | some p =>
    obtain ⟨x, d⟩ := p
    rcases alter_eq_or h (v.enlist (some (x, d))) t with hsame | ⟨y, e, hy, hle, haltered⟩
    · rw [hsame, enlist_twice, hsame]
    cases hy
    rw [haltered]
    have hor := chosen_eq_or v x
    have hview : v.enlist (some (x, d)) = (some ((v.chosen x).received, d),
        Registry.imposed (v.chosen x)) := rfl
    rw [hview] at haltered
    generalize v.chosen x = z at haltered hle hor
    have hchosen : chosen (altered t status override z.received d) x =
        if x.dirtyAt < t then
          { z.received with status, overridden := override, dirtyAt := t }
        else x := rfl
    simp only [enlist, hchosen]
    by_cases hlt : x.dirtyAt < t
    · rw [if_pos hlt]
      exact alter_of_time h rfl d
    · have hsame : z = x :=
        hor.resolve_right fun hnewer => hlt (Int64.lt_of_lt_of_le hnewer hle)
      rw [if_neg hlt, ← hsame]
      exact haltered

end View

theorem Sound.view_changeStatus (hs : s.Sound k) (h : Puts change status override) (now : Millis) :
    (s.changeStatus now (some t) change).slot.view = s.view.alter t change := by
  rw [Slot.changeStatus, hs.held_eq_lease]
  cases hl : s.lease with
  | none => simp only [View.alter, view, kept, hl, Option.map_none]
  | some l =>
    have hview : s.view = (some (l.holder.content, l.duration), s.override) := by
      rw [view, kept_of_lease hl]
      rfl
    have hdirty : l.holder.content.dirtyAt = l.holder.dirtyAt := rfl
    simp only [View.alter, hview, hdirty, Option.any_some, decide_eq_true_eq]
    split
    · exact hview
    cases hp : change s.override l.holder with
    | none =>
      rw [(h.content ..).mp hp]
      exact hview
    | some p =>
      cases hc : change s.override l.holder.content with
      | none => cases hp.symm.trans ((h.content ..).mpr hc)
      | some q =>
        cases h.changed _ _ _ hp
        cases h.changed _ _ _ hc
        simp only [view, kept_relabel]
        rfl

end Slot

namespace Replication.Item

def effect (i : Item) (v : Slot.View) : Slot.View :=
  match i.operation with
  | .register => v.enlist i.registrant?
  | .heartbeat => v
  | .cancel => (none, none)
  | .statusUpdate =>
    match i.status with
    | some s => v.alter i.dirtyAt (Slot.impose s)
    | none => v
  | .deleteStatusOverride => v.alter i.dirtyAt (Slot.release (i.status.getD .unknown))

structure Dated (i : Item) : Prop where
  positive : 0 < i.dirtyAt
  record : ∀ x, i.record = some x → 0 < x.dirtyAt

theorem Dated.registration {i : Item} (h : i.Dated) (hop : i.operation = .register) :
    i.Registration where
  operation := hop
  dated x hx := (Int64.ne_of_lt (h.record x hx)).symm

end Replication.Item

namespace Slot

variable {k : Key} {s : Slot} {i : Item} {items : List Item}

theorem Sound.view_receive (hs : s.Sound k) (hi : i.Dated) (now : Millis) :
    (s.receive now i).view = i.effect s.view := by
  have hdirty := Registry.positive_of_pos hi.positive
  cases hop : i.operation with
  | register =>
    rw [(hi.registration hop).receive, hs.live.view_enlist]
    simp only [Item.effect, hop]
  | heartbeat =>
    rw [hs.view_receive_heartbeat hop]
    simp only [Item.effect, hop]
  | cancel =>
    rw [hs.receive_cancel hop]
    simp only [Item.effect, hop]
    rfl
  | statusUpdate =>
    simp only [Slot.receive, Item.command?, Item.effect, hop]
    cases i.status with
    | none => rfl
    | some status =>
      simp only [Option.map_some, hdirty]
      exact hs.view_changeStatus (puts_impose status) now
  | deleteStatusOverride =>
    simp only [Slot.receive, Item.command?, Item.effect, hop, hdirty]
    exact hs.view_changeStatus (puts_release _) now

end Slot

namespace Replication.Item

variable {items : List Item} {i : Item}

def effects (items : List Item) (v : Slot.View) : Slot.View :=
  items.foldl (fun v i => i.effect v) v

theorem effects_concat (items : List Item) (i : Item) (v : Slot.View) :
    effects (items ++ [i]) v = i.effect (effects items v) :=
  List.foldl_append

theorem effects_registrations (hitems : ∀ i ∈ items, i.operation = .register) (v : Slot.View) :
    effects items v = v.enlist (standIn items) := by
  induction items generalizing v with
  | nil => rfl
  | cons i rest ih =>
    obtain ⟨hi, hrest⟩ := List.forall_mem_cons.mp hitems
    have hfirst : i.effect v = v.enlist i.registrant? := by simp only [effect, hi]
    have hstep : effects (i :: rest) v = effects rest (i.effect v) := rfl
    rw [hstep, ih hrest, hfirst, Slot.View.enlist_enlist]
    rfl

/-- Registrations and one item of any kind behind them do the same twice as once. -/
theorem effects_twice (hitems : ∀ i ∈ items.dropLast, i.operation = .register) (v : Slot.View) :
    effects items (effects items v) = effects items v := by
  rcases List.eq_nil_or_concat items with rfl | ⟨before, i, rfl⟩
  · rfl
  rw [List.concat_eq_append] at hitems ⊢
  rw [List.dropLast_concat] at hitems
  by_cases hop : i.operation = .register
  · have hall : ∀ j ∈ before ++ [i], j.operation = .register :=
      List.forall_mem_append.mpr ⟨hitems, List.forall_mem_singleton.mpr hop⟩
    rw [effects_registrations hall, effects_registrations hall]
    exact Slot.View.enlist_twice ..
  -- The second pass meets what the last item left, not what the registrations left.
  simp only [effects_concat, effects_registrations hitems]
  cases hop' : i.operation with
  | register => exact absurd hop' hop
  | heartbeat =>
    simp only [effect, hop']
    exact Slot.View.enlist_twice ..
  | cancel => simp only [effect, hop']
  | statusUpdate =>
    simp only [effect, hop']
    cases i.status with
    | none => exact Slot.View.enlist_twice ..
    | some status =>
      exact Slot.View.alter_enlist_alter_enlist (Slot.puts_impose status) v i.dirtyAt _
  | deleteStatusOverride =>
    simp only [effect, hop']
    exact Slot.View.alter_enlist_alter_enlist (Slot.puts_release _) v i.dirtyAt _

end Replication.Item

theorem Slot.Sound.view_foldl_receive {k : Key} {s : Slot} (hs : s.Sound k) (now : Millis)
    {items : List Item} (hitems : ∀ i ∈ items, i.Addressed k ∧ i.Dated) :
    (items.foldl (fun s i => s.receive now i) s).view = Item.effects items s.view := by
  induction items generalizing s with
  | nil => rfl
  | cons i rest ih =>
    obtain ⟨⟨hi, hdated⟩, hrest⟩ := List.forall_mem_cons.mp hitems
    have hstep : Item.effects (i :: rest) s.view = Item.effects rest (i.effect s.view) := rfl
    rw [List.foldl_cons, ih (hs.receive hi now) hrest, hs.view_receive hdated, hstep]

theorem mem_dropLast_of_segment {α : Type} {l l' : List α} {a : α} (h : l <:+: l')
    (ha : a ∈ l.dropLast) : a ∈ l'.dropLast := by
  obtain ⟨before, after, rfl⟩ := h
  cases after with
  | nil =>
    have hne : l ≠ [] := List.ne_nil_of_mem ((List.dropLast_sublist l).subset ha)
    rw [List.append_nil, List.dropLast_append_of_ne_nil hne]
    exact List.mem_append_right _ ha
  | cons b after =>
    rw [List.dropLast_append_of_ne_nil (List.cons_ne_nil b after)]
    exact List.mem_append_left _ (List.mem_append_right _ ((List.dropLast_sublist l).subset ha))

namespace Replication

/-- An item under the key of its record, with times of change. -/
structure Item.Stamped (i : Item) : Prop extends i.Dated where
  addressed : i.Addressed i.key

theorem Item.Stamped.absorb {pending incoming merged : Item} (h : pending.Stamped)
    (h' : incoming.Stamped) (hkey : pending.key = incoming.key)
    (habsorb : pending.absorb incoming = some merged) : merged.Stamped := by
  have hsame := Item.key_absorb hkey habsorb
  have hpending : pending.Addressed incoming.key := hkey ▸ h.addressed
  refine ⟨?_, hsame ▸ hpending.absorb h'.addressed habsorb⟩
  unfold Item.absorb at habsorb
  split at habsorb <;> cases habsorb
  case h_2 | h_3 =>
    refine ⟨?_, fun x hx => ?_⟩
    · show 0 < if pending.dirtyAt < incoming.dirtyAt then incoming.dirtyAt else pending.dirtyAt
      split
      · exact h'.positive
      · exact h.positive
    · rcases Option.or_eq_some_iff.mp hx with hx | ⟨-, hx⟩
      · exact h'.record x hx
      · exact h.record x hx
  case h_4 | h_5 => exact ⟨h.positive, h.record⟩
  case h_6 => exact ⟨h'.positive, h'.record⟩

namespace Pending

variable {items rest : List Item} {i : Item}

/-- Of the items of each instance all but the last are registrations. -/
def Lined (items : List Item) : Prop :=
  ∀ k, ∀ i ∈ (items.filter (·.key = k)).dropLast, i.operation = .register

theorem Lined.segment (h : Lined items) (hrest : rest <:+: items) : Lined rest :=
  fun k i hi => h k i (mem_dropLast_of_segment (hrest.filter _) hi)

theorem dropLast_enqueue (h : ∀ j ∈ items.dropLast, j.operation = .register) (i : Item) :
    ∀ j ∈ (enqueue i items).dropLast, j.operation = .register := by
  rcases List.eq_nil_or_concat items with rfl | ⟨before, j, rfl⟩
  · exact fun j hj => nomatch hj
  rw [List.concat_eq_append] at h ⊢
  rw [List.dropLast_concat] at h
  rw [enqueue_concat, enqueue]
  cases habsorb : j.absorb i with
  | some merged =>
    simp only
    rw [List.dropLast_concat]
    exact h
  | none =>
    have hj : j.operation = .register := (Item.absorb_eq_none_iff.mp habsorb).1
    have hsplit : before ++ [j, i] = (before ++ [j]) ++ [i] := by simp
    simp only
    rw [hsplit, List.dropLast_concat]
    exact List.forall_mem_append.mpr ⟨h, List.forall_mem_singleton.mpr hj⟩

theorem Lined.place (h : Lined items) (i : Item) : Lined (place i items) := by
  intro k
  rw [filter_place]
  split
  · exact dropLast_enqueue (h k) i
  · exact h k

theorem stamped_place (h : ∀ j ∈ items, j.Stamped) (hi : i.Stamped) :
    ∀ j ∈ place i items, j.Stamped := by
  intro j hj
  have hmine : j ∈ (place i items).filter (·.key = j.key) :=
    List.mem_filter.mpr ⟨hj, by simp⟩
  rw [filter_place] at hmine
  split at hmine
  · rename_i hkey
    refine forall_enqueue (fun j' hj' => ?_) hi (fun j' hj' merged habsorb => ?_) j hmine
    · exact h j' (List.mem_filter.mp hj').1
    · obtain ⟨hj', hsame⟩ := List.mem_filter.mp hj'
      exact (h j' hj').absorb hi ((of_decide_eq_true hsame).trans hkey.symm) habsorb
  · exact h j (List.mem_filter.mp hmine).1

end Pending

/-- An item with a time of change that a registry tells its peers of, or a heartbeat among such
that is sent again as a registration. -/
inductive Item.Emitted : Item → Prop where
  | told {r : Registry} {now : Millis} {c : Command} {i : Item} : r.Reachable →
    i ∈ shipped (r.perform now c).effects → 0 < i.dirtyAt → Emitted i
  | again {i : Item} : Emitted i → i.operation = .heartbeat →
    Emitted { i with operation := .register }

end Replication

namespace Slot

theorem item_of_shipped {m : Move} {now : Millis} {c : Command} {version : Nat} {i : Item}
    (hi : i ∈ shipped (m.effects now c version)) :
    c.origin = .client ∧ ∃ operation x d, i = { Item.of operation x now with lease := some d } ∧
      ((∃ kind, m.change = some (kind, x, d)) ∨ m.slot.kept = some (x, d)) := by
  have hshipments {operation : Operation} {x : Instance} {d : UInt64}
      (h : i ∈ shipped (Registry.shipments c.origin operation x d now)) :
      c.origin = .client ∧ i = { Item.of operation x now with lease := some d } := by
    rw [shipped_shipments] at h
    cases horigin : c.origin with
    | peer =>
      rw [horigin] at h
      cases h
    | client =>
      rw [horigin] at h
      exact ⟨rfl, List.mem_singleton.mp h⟩
  cases hchange : m.change with
  | some p =>
    rw [Registry.shipped_effects_of_change hchange] at hi
    obtain ⟨horigin, hitem⟩ := hshipments hi
    exact ⟨horigin, _, _, _, hitem, .inl ⟨p.1, rfl⟩⟩
  | none =>
    unfold Move.effects at hi
    rw [hchange] at hi
    simp only at hi
    split at hi
    · rename_i l _ hheld
      obtain ⟨horigin, hitem⟩ := hshipments hi
      have hlease : m.slot.lease = some l := Option.eq_some_of_filter_eq_some hheld
      exact ⟨horigin, _, _, _, hitem, .inr (kept_of_lease hlease)⟩
    · cases hi

end Slot

namespace Registry

variable {r : Registry} {now : Millis} {c : Command} {i : Item}

theorem Reachable.addressed_of_shipped (hr : r.Reachable)
    (hi : i ∈ shipped (r.perform now c).effects) : i.Addressed i.key := by
  have hacts := perform_acts hr.sound.filed now c
  rw [hacts.effects] at hi
  obtain ⟨horigin, -⟩ := Slot.item_of_shipped hi
  cases (hr.sound c.key).utters horigin now with
  | silent hshipped =>
    rw [hshipped] at hi
    cases hi
  | item j hshipped hj =>
    rw [hshipped] at hi
    cases List.mem_singleton.mp hi
    exact hj.key.symm ▸ hj

theorem Reachable.stamped_of_shipped (hr : r.Reachable)
    (hi : i ∈ shipped (r.perform now c).effects) (hpos : 0 < i.dirtyAt) : i.Stamped := by
  have haddressed := hr.addressed_of_shipped hi
  rw [(perform_acts hr.sound.filed now c).effects] at hi
  obtain ⟨-, operation, x, d, rfl, -⟩ := Slot.item_of_shipped hi
  refine ⟨⟨hpos, fun y hy => ?_⟩, haddressed⟩
  cases hy
  exact hpos

end Registry

namespace Replication

theorem Item.Stamped.again {i : Item} (h : i.Stamped) :
    ({ i with operation := .register } : Item).Stamped :=
  ⟨⟨h.positive, h.record⟩, h.addressed.key, h.addressed.upper, h.addressed.record⟩

theorem Item.Emitted.stamped {i : Item} (h : i.Emitted) : i.Stamped := by
  induction h with
  | told hr hi hpos => exact hr.stamped_of_shipped hi hpos
  | again _ _ ih => exact ih.again

namespace Queue

inductive Fed : Queue → Prop where
  | start (capacity : Nat) : Fed (.ofCapacity capacity)
  | push {q : Queue} {i : Item} : Fed q → i.Emitted → Fed (q.push i).2
  | drain {q : Queue} (most : Nat) : Fed q → Fed (q.drain most).2

theorem Fed.tidy {q : Queue} (h : q.Fed) : q.Tidy := by
  induction h with
  | start capacity => exact tidy_ofCapacity capacity
  | push _ _ ih => exact (ih.push _).1
  | drain most _ ih => exact (ih.drain most).1

theorem Fed.lined {q : Queue} (h : q.Fed) : Pending.Lined q.toList := by
  induction h with
  | start capacity => exact fun k i hi => nomatch hi
  | push h _ ih => exact (ih.place _).segment (h.tidy.toList_push _)
  | drain most h ih => exact ih.segment (h.tidy.toList_drain most).2

theorem Fed.stamped {q : Queue} (h : q.Fed) : ∀ i ∈ q.toList, i.Stamped := by
  induction h with
  | start capacity => exact fun i hi => nomatch hi
  | push h hi ih =>
    intro j hj
    exact Pending.stamped_place ih hi.stamped j ((h.tidy.toList_push _).subset hj)
  | drain most h ih => exact fun j hj => ih j ((h.tidy.toList_drain most).2.subset hj)

end Queue

end Replication

namespace Registry

variable {r : Registry}

theorem Sound.view_receiveAll (hr : r.Sound) (now : Millis) {items : List Item}
    (hitems : ∀ i ∈ items, i.Stamped) (k : Key) :
    ((r.receiveAll now items).registry.slot k).view =
      Item.effects (items.filter (·.key = k)) (r.slot k).view := by
  rw [(hr.receiveAll now items fun i hi => (hitems i hi).addressed).2 k]
  refine (hr k).view_foldl_receive now fun i hi => ?_
  obtain ⟨hmem, hkey⟩ := List.mem_filter.mp hi
  exact ⟨of_decide_eq_true hkey ▸ (hitems i hmem).addressed, (hitems i hmem).toDated⟩

/-- Applied once more, at any time, a batch from a queue changes no record, no duration of a lease
and no imposed status. -/
theorem Reachable.receiveAll_again (hr : r.Reachable) {q : Queue} (hq : q.Fed) (most : Nat)
    (now later : Millis) (app id : String) :
    let items := (q.drain most).1
    let once := (r.receiveAll now items).registry
    let again := (once.receiveAll later items).registry
    (again.lease? app id).map (fun l => (l.holder.content, l.duration)) =
        (once.lease? app id).map (fun l => (l.holder.content, l.duration)) ∧
      again.override? app id = once.override? app id := by
  intro items once again
  have hbatch : items <:+: q.toList := (hq.tidy.toList_drain most).1
  have hstamped : ∀ i ∈ items, i.Stamped := fun i hi => hq.stamped i (hbatch.subset hi)
  have haddressed : ∀ i ∈ items, i.Addressed i.key := fun i hi => (hstamped i hi).addressed
  have honce : once.Sound := (hr.sound.receiveAll now items haddressed).1
  have hagain : again.Sound := (honce.receiveAll later items haddressed).1
  have hview : (again.slot (keyOf app id)).view = (once.slot (keyOf app id)).view := by
    rw [honce.view_receiveAll later hstamped, hr.sound.view_receiveAll now hstamped]
    exact Item.effects_twice (hq.lined.segment hbatch _) _
  rw [hagain.view_slot, honce.view_slot] at hview
  exact ⟨congrArg Prod.fst hview, congrArg Prod.snd hview⟩

/-- A registration and the release of an override behind it, shipped twice to a new peer. -/
theorem receiveAll_release_again :
    let x : Instance := { Instance.named "WEB" "web-1" "host" 80 with
      dirtyAt := 2, updatedAt := 2, lastChange := some .added }
    let y : Instance := { x with
      status := .down, dirtyAt := 3, updatedAt := 3, lastChange := some .modified }
    let q := (((Queue.ofCapacity 8).push (Item.of .register x 2)).2.push
      (Item.of .deleteStatusOverride y 3)).2
    let r := Registry.start {} 0
    let items := (q.drain 8).1
    let once := (r.receiveAll 4 items).registry
    let again := (once.receiveAll 5 items).registry
    q.Fed ∧ r.Reachable ∧ items.length = 2 ∧
      (again.lease? "WEB" "web-1").map (fun l => (l.holder.content, l.duration)) =
        (once.lease? "WEB" "web-1").map (fun l => (l.holder.content, l.duration)) ∧
      again.override? "WEB" "web-1" = once.override? "WEB" "web-1" := by
  intro x y q r items once again
  let register := Command.register .client (.named "WEB" "web-1" "host" 80) none
  let release := Command.deleteOverride .client "WEB" "web-1" .down none
  have hr : r.Reachable := .start {} 0
  have ho : (r.perform 2 register).registry.Reachable := .perform 2 register hr
  have hregister : Item.of .register x 2 ∈ shipped (r.perform 2 register).effects := by
    decide +kernel
  have hrelease : Item.of .deleteStatusOverride y 3 ∈
      shipped ((r.perform 2 register).registry.perform 3 release).effects := by
    decide +kernel
  have hq : q.Fed :=
    .push (.push (.start 8) (.told hr hregister (by decide))) (.told ho hrelease (by decide))
  have hlength : items.length = 2 := by decide +kernel
  have hagain := Reachable.receiveAll_again hr hq 8 4 5 "WEB" "web-1"
  exact ⟨hq, hr, hlength, hagain⟩

end Registry

end ServiceRegistry
