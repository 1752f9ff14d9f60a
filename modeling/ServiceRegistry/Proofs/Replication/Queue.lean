import ServiceRegistry.Replication.Queue

/-! # Queues hold lists

A batching queue holds a list of items under ascending tickets. Read as the plain list of these
items, its operations are those of pending lists: `Tidy.push` and `Tidy.drain`.
-/

namespace ServiceRegistry.Replication

set_option autoImplicit false

open KeyMap (lookup)

namespace Pending

theorem split_last {α : Type} (P : α → Prop) [DecidablePred P] (l : List α) :
    (∀ a ∈ l, ¬ P a) ∨ ∃ before a after, l = before ++ a :: after ∧ P a ∧ ∀ b ∈ after, ¬ P b := by
  induction l with
  | nil => exact .inl fun _ h => nomatch h
  | cons a rest ih =>
    rcases ih with hnone | ⟨before, b, after, rfl, hb, hafter⟩
    · by_cases ha : P a
      · exact .inr ⟨[], a, rest, rfl, ha, hnone⟩
      · exact .inl (List.forall_mem_cons.mpr ⟨ha, hnone⟩)
    · exact .inr ⟨a :: before, b, after, rfl, hb, hafter⟩

theorem place_of_absent {incoming : Item} {items : List Item}
    (h : ∀ i ∈ items, i.key ≠ incoming.key) : place incoming items = items ++ [incoming] := by
  induction items with
  | nil => rfl
  | cons i rest ih =>
    obtain ⟨hi, hrest⟩ := List.forall_mem_cons.mp h
    rw [place, if_neg fun hkey => hi hkey.1, ih hrest]
    rfl

theorem place_of_split {incoming i : Item} {before after : List Item}
    (hi : i.key = incoming.key) (hafter : ∀ j ∈ after, j.key ≠ incoming.key) :
    place incoming (before ++ i :: after) =
      match i.absorb incoming with
      | some merged => before ++ merged :: after
      | none => before ++ i :: after ++ [incoming] := by
  induction before with
  | nil =>
    have hlast : ¬ after.any (·.key = incoming.key) := by simpa using hafter
    rw [List.nil_append, place, if_pos ⟨hi, hlast⟩]
    cases i.absorb incoming <;> rfl
  | cons j before ih =>
    have hmore : (before ++ i :: after).any (·.key = incoming.key) = true := by simp [hi]
    rw [List.cons_append, place, if_neg fun h => h.2 hmore, ih]
    cases i.absorb incoming <;> rfl

end Pending

theorem Item.key_absorb {pending incoming merged : Item} (hkey : pending.key = incoming.key)
    (h : pending.absorb incoming = some merged) : merged.key = incoming.key := by
  unfold Item.absorb at h
  split at h <;> cases h
  all_goals first | exact hkey | rfl

/-- Only the removal of an override waits on its own, and only behind a registration. -/
theorem Item.absorb_eq_none_iff {pending incoming : Item} :
    pending.absorb incoming = none ↔
      pending.operation = .register ∧ incoming.operation = .deleteStatusOverride := by
  unfold Item.absorb
  split <;> simp_all

section Lookup

variable {t t' : Nat} {i j : Item} {entries before after : List (Nat × Item)}

theorem lookup_append_singleton (ht : t ∉ entries.map Prod.fst) :
    lookup t' (entries ++ [(t, i)]) = if t = t' then some i else lookup t' entries := by
  induction entries with
  | nil => simp [lookup]
  | cons e rest ih =>
    simp only [List.map_cons, List.mem_cons, not_or] at ht
    simp only [List.cons_append, lookup, ih ht.2]
    by_cases he : e.1 = t'
    · simp [he, show t ≠ t' from he ▸ ht.1]
    · simp [he]

theorem lookup_replace (ht : t ∉ before.map Prod.fst) :
    lookup t' (before ++ (t, i) :: after) =
      if t = t' then some i else lookup t' (before ++ (t, j) :: after) := by
  induction before with
  | nil =>
    simp only [List.nil_append, lookup]
    split <;> rfl
  | cons e rest ih =>
    simp only [List.map_cons, List.mem_cons, not_or] at ht
    simp only [List.cons_append, lookup, ih ht.2]
    by_cases he : e.1 = t'
    · simp [he, show t ≠ t' from he ▸ ht.1]
    · simp [he]

theorem lookup_tail (ht : t ∉ entries.map Prod.fst) :
    lookup t' entries = if t = t' then none else lookup t' ((t, i) :: entries) := by
  simp only [lookup]
  split
  · rename_i h
    subst h
    induction entries with
    | nil => rfl
    | cons e rest ih =>
      simp only [List.map_cons, List.mem_cons, not_or] at ht
      rw [lookup, if_neg fun h => ht.1 h.symm, ih ht.2]
  · rfl

end Lookup

namespace Queue

def lastTicket (k : String × String) (entries : List (Nat × Item)) : Option Nat :=
  ((entries.filter (·.2.key = k)).getLast?).map Prod.fst

/-- A queue holds some items under their tickets, oldest first. -/
structure Holds (entries : List (Nat × Item)) (q : Queue) : Prop where
  line : q.line = entries.map Prod.fst
  ascending : (entries.map Prod.fst).Pairwise (· < ·)
  below : ∀ t ∈ entries.map Prod.fst, t < q.nextTicket
  slots : ∀ t, q.slots.get? t = lookup t entries
  latest : ∀ k, q.latest.get? k = lastTicket k entries

variable {q : Queue} {entries : List (Nat × Item)}

theorem holds_ofCapacity (capacity : Nat) : Holds [] (.ofCapacity capacity) :=
  ⟨rfl, .nil, nofun, fun _ => rfl, fun _ => rfl⟩

theorem Holds.distinct (h : Holds entries q) : (entries.map Prod.fst).Nodup :=
  h.ascending.imp Nat.ne_of_lt

theorem filterMap_of_forall {α β : Type} {f : α → Option β} {g : α → β} {l : List α}
    (h : ∀ a ∈ l, f a = some (g a)) : l.filterMap f = l.map g := by
  induction l with
  | nil => rfl
  | cons a rest ih =>
    obtain ⟨ha, hrest⟩ := List.forall_mem_cons.mp h
    rw [List.filterMap_cons_some ha, ih hrest, List.map_cons]

theorem nodup_of_fst {α : Type} {l : List (Nat × α)} (h : (l.map Prod.fst).Nodup) : l.Nodup :=
  List.Pairwise.of_map Prod.fst (fun _ _ hne heq => hne (congrArg Prod.fst heq)) h

theorem Holds.toList_eq (h : Holds entries q) : q.toList = entries.map Prod.snd := by
  rw [toList, h.line, List.filterMap_map]
  refine filterMap_of_forall fun e he => ?_
  exact (h.slots e.1).trans ((KeyMap.lookup_eq_some_iff h.distinct).mpr he)

theorem Holds.length_eq (h : Holds entries q) : q.length = entries.length := by
  have hperm : q.slots.entries.Perm entries := by
    refine (List.perm_ext_iff_of_nodup (nodup_of_fst q.slots.distinct)
      (nodup_of_fst h.distinct)).mpr ?_
    rintro ⟨t, i⟩
    rw [← KeyMap.get?_eq_some_iff, h.slots, KeyMap.lookup_eq_some_iff h.distinct]
  exact hperm.length_eq

theorem lastTicket_append (k : String × String) (before after : List (Nat × Item)) :
    lastTicket k (before ++ after) = (lastTicket k after).or (lastTicket k before) := by
  simp only [lastTicket, List.filter_append, List.getLast?_append, Option.map_or]

theorem lastTicket_eq_none {k : String × String} (h : ∀ e ∈ entries, e.2.key ≠ k) :
    lastTicket k entries = none := by
  have hfilter : entries.filter (·.2.key = k) = [] := by simpa using h
  rw [lastTicket, hfilter]
  rfl

theorem lastTicket_singleton (k : String × String) (t : Nat) (i : Item) :
    lastTicket k [(t, i)] = if i.key = k then some t else none := by
  by_cases h : i.key = k <;> simp [lastTicket, h]

theorem lastTicket_cons (k : String × String) (t : Nat) (i : Item) (entries : List (Nat × Item)) :
    lastTicket k ((t, i) :: entries) =
      (lastTicket k entries).or (if i.key = k then some t else none) := by
  rw [← List.singleton_append, lastTicket_append, lastTicket_singleton]

theorem lastTicket_split {k : String × String} {t : Nat} {i : Item}
    {before after : List (Nat × Item)} (hi : i.key = k) (hafter : ∀ e ∈ after, e.2.key ≠ k) :
    lastTicket k (before ++ (t, i) :: after) = some t := by
  rw [lastTicket_append, lastTicket_cons, lastTicket_eq_none hafter, if_pos hi]
  rfl

theorem Holds.append (h : Holds entries q) (i : Item) :
    Holds (entries ++ [(q.nextTicket, i)]) (q.append i) := by
  have hnew : q.nextTicket ∉ entries.map Prod.fst := fun hmem => Nat.lt_irrefl _ (h.below _ hmem)
  constructor
  · simp [Queue.append, h.line]
  · rw [List.map_append, List.pairwise_append]
    refine ⟨h.ascending, List.pairwise_singleton .., fun t ht t' ht' => ?_⟩
    rw [List.mem_singleton.mp ht']
    exact h.below t ht
  · intro t ht
    rw [List.map_append, List.mem_append] at ht
    rcases ht with ht | ht
    · exact Nat.lt_succ_of_lt (h.below t ht)
    · rw [List.mem_singleton.mp ht]
      exact Nat.lt_succ_self _
  · intro t
    rw [lookup_append_singleton hnew, ← h.slots]
    exact KeyMap.get?_insert ..
  · intro k
    rw [lastTicket_append, lastTicket_singleton, ← h.latest]
    refine (KeyMap.get?_insert ..).trans ?_
    split <;> rfl

theorem Holds.replace {before after : List (Nat × Item)} {t : Nat} {i merged : Item}
    (h : Holds (before ++ (t, i) :: after) q) (hkey : merged.key = i.key) :
    Holds (before ++ (t, merged) :: after) { q with slots := q.slots.insert t merged } := by
  have hticket : t ∉ before.map Prod.fst := by
    have hdistinct := h.distinct
    rw [List.map_append, List.nodup_append] at hdistinct
    exact fun hmem => hdistinct.2.2 t hmem t List.mem_cons_self rfl
  have htickets : (before ++ (t, merged) :: after).map Prod.fst =
      (before ++ (t, i) :: after).map Prod.fst := by
    rw [List.map_append, List.map_append]
    rfl
  constructor
  · rw [htickets]
    exact h.line
  · rw [htickets]
    exact h.ascending
  · rw [htickets]
    exact h.below
  · intro t'
    rw [lookup_replace hticket, ← h.slots]
    exact KeyMap.get?_insert ..
  · intro k
    rw [h.latest, lastTicket_append, lastTicket_append, lastTicket_cons, lastTicket_cons, hkey]

theorem Holds.place (h : Holds entries q) (incoming : Item) :
    ∃ entries', Holds entries' (q.place incoming) ∧
      entries'.map Prod.snd = Pending.place incoming (entries.map Prod.snd) := by
  have hlatest := h.latest incoming.key
  rcases Pending.split_last (fun e : Nat × Item => e.2.key = incoming.key) entries with
    hnone | ⟨before, ⟨t, i⟩, after, rfl, hi, hafter⟩
  · rw [lastTicket_eq_none hnone] at hlatest
    refine ⟨entries ++ [(q.nextTicket, incoming)], ?_, ?_⟩
    · rw [Queue.place, hlatest]
      exact h.append incoming
    · rw [List.map_append, Pending.place_of_absent]
      · rfl
      · simpa using fun i t hmem => hnone (t, i) hmem
  · have hslot : q.slots.get? t = some i := by
      rw [h.slots, KeyMap.lookup_eq_some_iff h.distinct]
      exact List.mem_append_right _ List.mem_cons_self
    have hitems : ∀ j ∈ after.map Prod.snd, j.key ≠ incoming.key := by
      simpa using fun i t hmem => hafter (t, i) hmem
    rw [lastTicket_split hi hafter] at hlatest
    rw [List.map_append, List.map_cons, Pending.place_of_split hi hitems, Queue.place, hlatest]
    simp only [hslot, Option.bind_some]
    cases habsorb : i.absorb incoming with
    | some merged =>
      refine ⟨_, h.replace ((Item.key_absorb hi habsorb).trans hi.symm), ?_⟩
      rw [List.map_append]
      rfl
    | none =>
      refine ⟨_, h.append incoming, ?_⟩
      simp

theorem mem_of_lastTicket {k : String × String} {t : Nat} (h : lastTicket k entries = some t) :
    t ∈ entries.map Prod.fst := by
  obtain ⟨e, he, rfl⟩ := Option.map_eq_some_iff.mp h
  exact List.mem_map_of_mem (List.mem_filter.mp (List.mem_of_getLast? he)).1

theorem unlink_eq (q : Queue) (t : Nat) (i : Item) :
    ∃ latest, q.unlink t i = { q with latest } ∧ ∀ k, latest.get? k =
      if i.key = k ∧ q.latest.get? k = some t then none else q.latest.get? k := by
  unfold unlink
  by_cases h : q.latest.get? i.key = some t
  · refine ⟨q.latest.erase i.key, if_pos h, fun k => ?_⟩
    rw [KeyMap.get?_erase]
    by_cases hk : i.key = k
    · subst hk
      simp [h]
    · simp [hk]
  · refine ⟨q.latest, if_neg h, fun k => ?_⟩
    rw [if_neg]
    rintro ⟨rfl, hk⟩
    exact h hk

theorem Holds.pop {t : Nat} {i : Item} (h : Holds ((t, i) :: entries) q) :
    ∃ q', q.pop = some (i, q') ∧ Holds entries q' ∧ q'.capacity = q.capacity ∧
      q'.dropped = q.dropped := by
  obtain ⟨hnew, -⟩ := List.nodup_cons.mp h.distinct
  have hslot : q.slots.get? t = some i := by
    rw [h.slots, KeyMap.lookup_eq_some_iff h.distinct]
    exact List.mem_cons_self
  obtain ⟨latest, hunlink, hlatest⟩ :=
    unlink_eq { q with line := entries.map Prod.fst, slots := q.slots.erase t } t i
  refine ⟨{ q with line := entries.map Prod.fst, slots := q.slots.erase t, latest }, ?_, ?_, rfl,
    rfl⟩
  · rw [Queue.pop, h.line]
    simp only [List.map_cons, hslot]
    rw [hunlink]
  · constructor
    · rfl
    · exact h.ascending.tail
    · exact fun t' ht' => h.below t' (List.mem_cons_of_mem t ht')
    · intro t'
      rw [lookup_tail hnew, ← h.slots]
      exact KeyMap.get?_erase ..
    · intro k
      have hk := h.latest k
      rw [lastTicket_cons] at hk
      rw [hlatest k, hk]
      cases hrest : lastTicket k entries with
      | some t' =>
        have hne : t' ≠ t := fun heq => hnew (heq ▸ mem_of_lastTicket hrest)
        simp [hne]
      | none =>
        by_cases hi : i.key = k <;> simp [hi]

theorem Holds.take (h : Holds entries q) (n : Nat) :
    (take n q).1 = (entries.take n).map Prod.snd ∧ Holds (entries.drop n) (take n q).2 ∧
      (take n q).2.capacity = q.capacity ∧ (take n q).2.dropped = q.dropped := by
  induction n generalizing q entries with
  | zero => exact ⟨rfl, h, rfl, rfl⟩
  | succ n ih =>
    cases entries with
    | nil =>
      have hpop : q.pop = none := by
        rw [Queue.pop, h.line]
        rfl
      rw [Queue.take, hpop]
      exact ⟨rfl, h, rfl, rfl⟩
    | cons e rest =>
      obtain ⟨q', hpop, hrest, hcapacity, hdropped⟩ := h.pop
      obtain ⟨hitems, hholds, hcapacity', hdropped'⟩ := ih hrest
      rw [Queue.take, hpop]
      exact ⟨congrArg (e.2 :: ·) hitems, hholds, hcapacity'.trans hcapacity,
        hdropped'.trans hdropped⟩

def Tidy (q : Queue) : Prop := ∃ entries, Holds entries q

theorem tidy_ofCapacity (capacity : Nat) : (ofCapacity capacity).Tidy :=
  ⟨[], holds_ofCapacity capacity⟩

def toPending (q : Queue) : Pending :=
  { items := q.toList, capacity := q.capacity, dropped := q.dropped }

theorem place_capacity (q : Queue) (i : Item) :
    (q.place i).capacity = q.capacity ∧ (q.place i).dropped = q.dropped := by
  unfold place
  split
  · exact ⟨rfl, rfl⟩
  · split <;> exact ⟨rfl, rfl⟩

theorem Holds.push (h : Holds entries q) (incoming : Item) {n : Nat}
    (hn : n = (Pending.place incoming q.toList).length - q.capacity) :
    (q.push incoming).1 = n ∧ (q.push incoming).2.capacity = q.capacity ∧
      (q.push incoming).2.dropped = q.dropped + n ∧
      ∃ entries', Holds entries' (q.push incoming).2 ∧
        entries'.map Prod.snd = (Pending.place incoming q.toList).drop n := by
  obtain ⟨entries', hplace, hitems⟩ := h.place incoming
  rw [← h.toList_eq] at hitems
  obtain ⟨hcapacity, hdropped⟩ := q.place_capacity incoming
  have hexcess : (q.place incoming).length - (q.place incoming).capacity = n := by
    rw [hplace.length_eq, hcapacity, hn, ← hitems, List.length_map]
  obtain ⟨hgone, hrest, hcapacity', hdropped'⟩ := hplace.take n
  have hlength : (Queue.take n (q.place incoming)).1.length = n := by
    rw [hgone, List.length_map, List.length_take]
    rw [hplace.length_eq] at hexcess
    omega
  simp only [Queue.push]
  rw [hexcess, hlength]
  refine ⟨rfl, hcapacity'.trans hcapacity, ?_, entries'.drop n, ?_, ?_⟩
  · rw [hdropped', hdropped]
  · exact ⟨hrest.line, hrest.ascending, hrest.below, hrest.slots, hrest.latest⟩
  · rw [List.map_drop, hitems]

theorem Tidy.push (h : q.Tidy) (incoming : Item) :
    (q.push incoming).2.Tidy ∧ (q.push incoming).1 = (q.toPending.push incoming).1 ∧
      (q.push incoming).2.toPending = (q.toPending.push incoming).2 := by
  obtain ⟨entries, hq⟩ := h
  obtain ⟨hgone, hcapacity, hdropped, entries', hholds, hitems⟩ := hq.push incoming rfl
  refine ⟨⟨entries', hholds⟩, hgone, ?_⟩
  rw [toPending, hholds.toList_eq, hitems, hcapacity, hdropped]
  rfl

theorem Tidy.dropped_push (h : q.Tidy) (incoming : Item) :
    q.dropped ≤ (q.push incoming).2.dropped ∧
      ((q.push incoming).2.dropped = q.dropped →
        (q.push incoming).2.toList = Pending.place incoming q.toList) := by
  obtain ⟨-, -, hpending⟩ := h.push incoming
  have hdropped : (q.push incoming).2.dropped = (q.toPending.push incoming).2.dropped :=
    congrArg Pending.dropped hpending
  have hitems : (q.push incoming).2.toList = (q.toPending.push incoming).2.items :=
    congrArg Pending.items hpending
  constructor
  · rw [hdropped]
    exact Nat.le_add_right _ _
  · intro hroom
    have hexcess : (Pending.place incoming q.toList).length - q.capacity = 0 :=
      Nat.left_eq_add.mp (hroom.symm.trans hdropped)
    rw [hitems]
    simp only [Pending.push, toPending, hexcess]
    rfl

def pushAll (q : Queue) (items : List Item) : Queue := items.foldl (fun q i => (q.push i).2) q

theorem Tidy.pushAll (h : q.Tidy) (items : List Item) :
    (q.pushAll items).Tidy ∧ q.dropped ≤ (q.pushAll items).dropped := by
  induction items generalizing q with
  | nil => exact ⟨h, Nat.le_refl _⟩
  | cons i rest ih =>
    obtain ⟨htidy, hdropped⟩ := ih (h.push i).1
    exact ⟨htidy, Nat.le_trans (h.dropped_push i).1 hdropped⟩

theorem Tidy.toList_pushAll (h : q.Tidy) {items : List Item}
    (hroom : (q.pushAll items).dropped = q.dropped) :
    (q.pushAll items).toList = items.foldl (fun l i => Pending.place i l) q.toList := by
  induction items generalizing q with
  | nil => rfl
  | cons i rest ih =>
    have htidy := (h.push i).1
    obtain ⟨hfirst, hplace⟩ := h.dropped_push i
    have hrest := (htidy.pushAll rest).2
    have hsame : (q.push i).2.dropped = q.dropped :=
      Nat.le_antisymm (hroom ▸ hrest) hfirst
    have hafter := ih htidy (hroom.trans hsame.symm)
    rw [hplace hsame] at hafter
    exact hafter

theorem Tidy.length_toList (h : q.Tidy) : q.toList.length = q.length := by
  obtain ⟨entries, hq⟩ := h
  rw [hq.length_eq, hq.toList_eq, List.length_map]

theorem Tidy.drain (h : q.Tidy) (most : Nat) :
    (q.drain most).2.Tidy ∧ (q.drain most).1 = (q.toPending.drain most).1 ∧
      (q.drain most).2.toPending = (q.toPending.drain most).2 := by
  have hmin : min most q.length = min most q.toList.length := by rw [h.length_toList]
  obtain ⟨entries, hq⟩ := h
  obtain ⟨hitems, hrest, hcapacity, hdropped⟩ := hq.take (min most q.length)
  refine ⟨⟨_, hrest⟩, ?_, ?_⟩
  · rw [Queue.drain, hitems, List.map_take, ← hq.toList_eq, hmin, ← List.take_eq_take_min]
    rfl
  · have hafter : (q.drain most).2.toList = q.toList.drop most := by
      rw [Queue.drain, hrest.toList_eq, List.map_drop, ← hq.toList_eq, hmin,
        ← List.drop_eq_drop_min]
    simp only [toPending, Pending.drain, hafter]
    simp only [Queue.drain, hcapacity, hdropped]

theorem Tidy.toList_push (h : q.Tidy) (i : Item) :
    (q.push i).2.toList <:+: Pending.place i q.toList := by
  have hitems := congrArg Pending.items (h.push i).2.2
  have hlist : (q.push i).2.toList = (q.toPending.push i).2.items := hitems
  rw [hlist]
  exact (List.drop_suffix ..).isInfix

theorem Tidy.toList_drain (h : q.Tidy) (most : Nat) :
    (q.drain most).1 <:+: q.toList ∧ (q.drain most).2.toList <:+: q.toList := by
  obtain ⟨-, hitems, hpending⟩ := h.drain most
  have hlist : (q.drain most).2.toList = q.toList.drop most := congrArg Pending.items hpending
  rw [hitems, hlist]
  exact ⟨(List.take_prefix ..).isInfix, (List.drop_suffix ..).isInfix⟩

theorem Tidy.drain_of_length_le (h : q.Tidy) {most : Nat} (hmost : q.length ≤ most) :
    (q.drain most).1 = q.toList := by
  obtain ⟨-, hitems, -⟩ := h.drain most
  rw [hitems]
  exact List.take_of_length_le (h.length_toList ▸ hmost)

theorem Tidy.toList_eq_nil (h : q.Tidy) (hempty : q.isEmpty = true) : q.toList = [] := by
  have hlength : q.length = 0 := by simpa [isEmpty] using hempty
  exact List.length_eq_zero_iff.mp (h.length_toList.trans hlength)

structure Roomy (q : Queue) : Prop where
  tidy : q.Tidy
  room : 0 < q.capacity

theorem roomy_ofCapacity (capacity : Nat) : (ofCapacity capacity).Roomy :=
  ⟨tidy_ofCapacity capacity, Nat.le_max_right ..⟩

theorem Roomy.push (h : q.Roomy) (i : Item) : (q.push i).2.Roomy := by
  obtain ⟨htidy, -, hpending⟩ := h.tidy.push i
  have hcapacity : (q.push i).2.capacity = q.capacity := congrArg Pending.capacity hpending
  exact ⟨htidy, hcapacity ▸ h.room⟩

theorem Roomy.drain (h : q.Roomy) (most : Nat) : (q.drain most).2.Roomy := by
  obtain ⟨htidy, -, hpending⟩ := h.tidy.drain most
  have hcapacity : (q.drain most).2.capacity = q.capacity := congrArg Pending.capacity hpending
  exact ⟨htidy, hcapacity ▸ h.room⟩

theorem Roomy.toList_push (h : q.Roomy) (hempty : q.toList = []) (i : Item) :
    (q.push i).2.toList = [i] := by
  obtain ⟨-, -, hpending⟩ := h.tidy.push i
  have hitems : (q.push i).2.toList = (q.toPending.push i).2.items :=
    congrArg Pending.items hpending
  have hexcess : (Pending.place i q.toList).length - q.capacity = 0 := by
    rw [hempty]
    exact Nat.sub_eq_zero_of_le h.room
  rw [hitems]
  simp only [Pending.push, toPending, hexcess]
  rw [hempty]
  rfl

end Queue

end ServiceRegistry.Replication
