/-!
# Metadata

Free key and value pairs of an instance. The pairs are kept in the order of their keys, so
two collections with the same pairs are equal.
-/

namespace ServiceRegistry

set_option autoImplicit false

namespace Metadata

def insertPair (key value : String) : List (String × String) → List (String × String)
  | [] => [(key, value)]
  | (k, v) :: rest =>
    if key < k then (key, value) :: (k, v) :: rest
    else if key = k then (key, value) :: rest
    else (k, v) :: insertPair key value rest

def Ordered (pairs : List (String × String)) : Prop :=
  pairs.Pairwise fun a b => a.1 < b.1

theorem mem_insertPair {key value : String} {pairs : List (String × String)}
    {p : String × String} (h : p ∈ insertPair key value pairs) :
    p = (key, value) ∨ p ∈ pairs := by
  induction pairs with
  | nil => simpa [insertPair] using h
  | cons q rest ih =>
    simp only [insertPair] at h
    split at h
    · simpa using h
    · split at h
      · rcases List.mem_cons.1 h with h | h
        · exact .inl h
        · exact .inr (List.mem_cons_of_mem _ h)
      · rcases List.mem_cons.1 h with h | h
        · exact .inr (h ▸ List.mem_cons_self)
        · exact (ih h).imp_right (List.mem_cons_of_mem _)

theorem ordered_insertPair (key value : String) {pairs : List (String × String)}
    (h : Ordered pairs) : Ordered (insertPair key value pairs) := by
  induction pairs with
  | nil => simp [insertPair, Ordered]
  | cons q rest ih =>
    obtain ⟨hq, hrest⟩ := List.pairwise_cons.1 h
    simp only [insertPair]
    split
    · rename_i hlt
      refine List.pairwise_cons.2 ⟨fun p hp => ?_, h⟩
      rcases List.mem_cons.1 hp with rfl | hp
      · exact hlt
      · exact String.lt_trans hlt (hq p hp)
    · split
      · rename_i heq
        exact List.pairwise_cons.2 ⟨fun p hp => by simpa [heq] using hq p hp, hrest⟩
      · rename_i hlt hne
        refine List.pairwise_cons.2 ⟨fun p hp => ?_, ih hrest⟩
        rcases mem_insertPair hp with rfl | hp
        · rcases Std.lt_trichotomy q.1 key with h | h | h
          · exact h
          · exact absurd h.symm hne
          · exact absurd h hlt
        · exact hq p hp

end Metadata

structure Metadata where
  pairs : List (String × String)
  ordered : Metadata.Ordered pairs
  deriving DecidableEq, Repr

namespace Metadata

def empty : Metadata := ⟨[], List.Pairwise.nil⟩

instance : Inhabited Metadata := ⟨empty⟩

def insert (m : Metadata) (key value : String) : Metadata :=
  ⟨insertPair key value m.pairs, ordered_insertPair key value m.ordered⟩

def ofList (pairs : List (String × String)) : Metadata :=
  pairs.foldl (fun m (key, value) => m.insert key value) empty

end Metadata

end ServiceRegistry
