/-!
# Finite maps

A finite map is a list of entries whose keys are distinct. The order of the entries carries no
meaning: lookups see the keys only.
-/

namespace ServiceRegistry

set_option autoImplicit false

structure KeyMap (κ α : Type) where
  entries : List (κ × α)
  distinct : (entries.map Prod.fst).Nodup

namespace KeyMap

variable {κ α β : Type} [DecidableEq κ]

def empty : KeyMap κ α := ⟨[], List.Pairwise.nil⟩

instance : Inhabited (KeyMap κ α) := ⟨empty⟩

def lookup (k : κ) : List (κ × α) → Option α
  | [] => none
  | (k', a) :: rest => if k' = k then some a else lookup k rest

def get? (m : KeyMap κ α) (k : κ) : Option α := lookup k m.entries

def contains (m : KeyMap κ α) (k : κ) : Bool := (m.get? k).isSome

def size (m : KeyMap κ α) : Nat := m.entries.length

def keys (m : KeyMap κ α) : List κ := m.entries.map Prod.fst

def values (m : KeyMap κ α) : List α := m.entries.map Prod.snd

def isEmpty (m : KeyMap κ α) : Bool := m.entries.isEmpty

def put (k : κ) (a : α) : List (κ × α) → List (κ × α)
  | [] => [(k, a)]
  | (k', b) :: rest => if k' = k then (k, a) :: rest else (k', b) :: put k a rest

theorem mem_keys_put {k k' : κ} {a : α} {es : List (κ × α)} :
    k' ∈ (put k a es).map Prod.fst ↔ k' = k ∨ k' ∈ es.map Prod.fst := by
  induction es with
  | nil => simp [put]
  | cons e rest ih =>
    simp only [put]
    split
    · rename_i h
      simp [h]
    · simp only [List.map_cons, List.mem_cons, ih]
      constructor
      · rintro (h | h | h) <;> simp [h]
      · rintro (h | h | h) <;> simp [h]

theorem nodup_put (k : κ) (a : α) {es : List (κ × α)} (h : (es.map Prod.fst).Nodup) :
    ((put k a es).map Prod.fst).Nodup := by
  induction es with
  | nil => simp [put]
  | cons e rest ih =>
    obtain ⟨he, hrest⟩ := List.nodup_cons.1 h
    simp only [put]
    split
    · rename_i hk
      exact List.nodup_cons.2 ⟨by simpa [hk] using he, hrest⟩
    · rename_i hk
      refine List.nodup_cons.2 ⟨fun hmem => ?_, ih hrest⟩
      rcases mem_keys_put.1 hmem with h | h
      · exact hk h
      · exact he h

def insert (m : KeyMap κ α) (k : κ) (a : α) : KeyMap κ α :=
  ⟨put k a m.entries, nodup_put k a m.distinct⟩

def filter (m : KeyMap κ α) (p : κ × α → Bool) : KeyMap κ α :=
  ⟨m.entries.filter p, (List.Sublist.map _ List.filter_sublist).nodup m.distinct⟩

def erase (m : KeyMap κ α) (k : κ) : KeyMap κ α := m.filter (·.1 ≠ k)

theorem lookup_put (k k' : κ) (a : α) (es : List (κ × α)) :
    lookup k' (put k a es) = if k = k' then some a else lookup k' es := by
  induction es with
  | nil => simp [put, lookup]
  | cons e rest ih =>
    simp only [put]
    split
    · rename_i h
      simp only [lookup, h]
      split <;> rfl
    · rename_i h
      simp only [lookup, ih]
      split
      · rename_i he
        rw [if_neg fun hk => h (he.trans hk.symm)]
      · rfl

@[simp]
theorem get?_empty (k : κ) : (empty : KeyMap κ α).get? k = none := rfl

@[simp]
theorem get?_insert (m : KeyMap κ α) (k k' : κ) (a : α) :
    (m.insert k a).get? k' = if k = k' then some a else m.get? k' :=
  lookup_put k k' a m.entries

theorem lookup_filter_ne (k k' : κ) (es : List (κ × α)) :
    lookup k' (es.filter (·.1 ≠ k)) = if k = k' then none else lookup k' es := by
  induction es with
  | nil => simp [lookup]
  | cons e rest ih =>
    by_cases he : e.1 = k
    · simp only [he, ne_eq, not_true, decide_false, Bool.false_eq_true, not_false_eq_true,
        List.filter_cons_of_neg]
      rw [ih]
      by_cases hk : k = k'
      · simp [hk]
      · simp [lookup, he, hk]
    · rw [List.filter_cons_of_pos (by simpa using he)]
      simp only [lookup, ih]
      by_cases hk : k = k'
      · subst hk
        simp [he]
      · simp [hk]

@[simp]
theorem get?_erase (m : KeyMap κ α) (k k' : κ) :
    (m.erase k).get? k' = if k = k' then none else m.get? k' :=
  lookup_filter_ne k k' m.entries

theorem lookup_eq_some_iff {k : κ} {a : α} {es : List (κ × α)} (h : (es.map Prod.fst).Nodup) :
    lookup k es = some a ↔ (k, a) ∈ es := by
  induction es with
  | nil => simp [lookup]
  | cons e rest ih =>
    obtain ⟨he, hrest⟩ := List.nodup_cons.1 h
    simp only [lookup]
    split
    · rename_i hk
      constructor
      · intro heq
        cases heq
        exact List.mem_cons.2 (.inl (by rw [← hk]))
      · intro hmem
        rcases List.mem_cons.1 hmem with hmem | hmem
        · rw [← hmem]
        · exact absurd (List.mem_map_of_mem (f := Prod.fst) hmem) (by simpa [← hk] using he)
    · rename_i hk
      rw [ih hrest, List.mem_cons]
      constructor
      · exact .inr
      · rintro (hmem | hmem)
        · exact absurd (by rw [← hmem]) hk
        · exact hmem

theorem get?_eq_some_iff (m : KeyMap κ α) (k : κ) (a : α) :
    m.get? k = some a ↔ (k, a) ∈ m.entries :=
  lookup_eq_some_iff m.distinct

theorem mem_keys (m : KeyMap κ α) (k : κ) : k ∈ m.keys ↔ (m.get? k).isSome := by
  simp only [keys, List.mem_map, Prod.exists, exists_and_right, exists_eq_right,
    ← m.get?_eq_some_iff, Option.isSome_iff_exists]

def histogram (keys : List κ) : KeyMap κ Nat :=
  keys.foldl (fun counts k => counts.insert k ((counts.get? k).getD 0 + 1)) empty

end KeyMap

end ServiceRegistry
