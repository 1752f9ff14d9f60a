import Mathlib.Data.List.Count
import Mathlib.Data.List.Induction
import Mathlib.Data.List.Perm.Basic
import ServiceRegistry.Proofs.Catalog.Canonical

/-! # Histograms

The hash code of some records spells how many of them there are of each effective status. Such a
text can be read in one way only: names differ before they end, and a number ends where the next
separator stands. So two lists of records share their hash code exactly if every status is as
frequent in the one as in the other, in whatever order and applications the records come.
-/

namespace ServiceRegistry

set_option autoImplicit false

namespace KeyMap

variable {κ : Type} [DecidableEq κ]

theorem histogram_concat (keys : List κ) (k : κ) :
    histogram (keys ++ [k]) =
      (histogram keys).insert k (((histogram keys).get? k).getD 0 + 1) := List.foldl_append

theorem get?_histogram (keys : List κ) (k : κ) :
    (histogram keys).get? k = if k ∈ keys then some (keys.count k) else none := by
  induction keys using List.reverseRecOn with
  | nil => rfl
  | append_singleton keys k' ih =>
    have hnumber : ((histogram keys).get? k).getD 0 = keys.count k := by
      rw [ih]
      split
      · rfl
      · exact (List.count_eq_zero_of_not_mem ‹_›).symm
    rw [histogram_concat, get?_insert]
    by_cases hk : k' = k
    · simp [hk, hnumber]
    · simp [hk, Ne.symm hk, ih]

theorem mem_histogram {keys : List κ} {k : κ} {n : Nat} :
    (k, n) ∈ (histogram keys).entries ↔ n = keys.count k ∧ 0 < n := by
  rw [← get?_eq_some_iff, get?_histogram]
  split
  · rename_i hk
    have hpos := List.count_pos_iff.mpr hk
    constructor
    · rintro ⟨rfl⟩
      exact ⟨rfl, hpos⟩
    · rintro ⟨rfl, -⟩
      rfl
  · rename_i hk
    have hzero := List.count_eq_zero_of_not_mem hk
    exact ⟨nofun, fun ⟨hn, hpos⟩ => by omega⟩

end KeyMap

namespace Status

/-- Names contain separators, but none goes on where another ends. -/
theorem eq_of_name_append {s t : Status} {xs ys : List Char}
    (h : s.name.toList ++ '_' :: xs = t.name.toList ++ '_' :: ys) : s = t := by
  cases s <;> cases t <;> simp [name] at h ⊢

theorem name_injective : Function.Injective name := fun s t h =>
  eq_of_name_append (show s.name.toList ++ ['_'] = t.name.toList ++ ['_'] by rw [h])

end Status

def spelled (e : Status × Nat) : String := e.1.name ++ "_" ++ toString e.2 ++ "_"

theorem toList_spelled (e : Status × Nat) :
    (spelled e).toList = e.1.name.toList ++ '_' :: (Nat.toDigits 10 e.2 ++ ['_']) := by
  simp [spelled, Nat.toString_eq_repr]

theorem append_cons_cancel {α : Type} [DecidableEq α] {a : α} {ps qs xs ys : List α}
    (hp : a ∉ ps) (hq : a ∉ qs) (h : ps ++ a :: xs = qs ++ a :: ys) : ps = qs ∧ xs = ys := by
  have hbefore {rs zs : List α} (hr : a ∉ rs) : (rs ++ a :: zs).takeWhile (· ≠ a) = rs := by
    rw [List.takeWhile_append_of_pos fun b hb => by simpa using ne_of_mem_of_not_mem hb hr]
    simp
  have hsame : ps = qs := by rw [← hbefore hp, h, hbefore hq]
  subst hsame
  exact ⟨rfl, List.tail_eq_of_cons_eq (List.append_cancel_left h)⟩

theorem spelled_append_cancel {e e' : Status × Nat} {xs ys : List Char}
    (h : (spelled e).toList ++ xs = (spelled e').toList ++ ys) : e = e' ∧ xs = ys := by
  obtain ⟨s, n⟩ := e
  obtain ⟨t, m⟩ := e'
  simp only [toList_spelled, List.append_assoc, List.cons_append, List.nil_append] at h
  obtain rfl := Status.eq_of_name_append h
  obtain ⟨hdigits, hrest⟩ := append_cons_cancel Nat.underscore_not_in_toDigits
    Nat.underscore_not_in_toDigits (List.tail_eq_of_cons_eq (List.append_cancel_left h))
  have hnumber : n = m := by
    rw [← Nat.ofDigitChars_ten_toDigits (n := n), hdigits, Nat.ofDigitChars_ten_toDigits]
  exact ⟨by rw [hnumber], hrest⟩

theorem eq_of_flatMap_spelled {es es' : List (Status × Nat)}
    (h : es.flatMap (fun e => (spelled e).toList) = es'.flatMap fun e => (spelled e).toList) :
    es = es' := by
  have hne (e : Status × Nat) (xs : List Char) : (spelled e).toList ++ xs ≠ [] := by
    simp [toList_spelled]
  induction es generalizing es' with
  | nil =>
    cases es' with
    | nil => rfl
    | cons e' rest' => exact absurd h.symm (hne e' _)
  | cons e rest ih =>
    cases es' with
    | nil => exact absurd h (hne e _)
    | cons e' rest' =>
      obtain ⟨rfl, hrest⟩ := spelled_append_cancel h
      rw [ih hrest]

variable {xs ys : List Instance}

def statuses (xs : List Instance) : List Status := xs.map (·.effectiveStatus)

theorem count_statuses (xs : List Instance) (s : Status) :
    (statuses xs).count s = xs.countP (·.effectiveStatus = s) := by
  rw [statuses, List.count, List.countP_map]
  exact List.countP_congr fun x _ => by simp

def countsByName (xs : List Instance) : List (Status × Nat) :=
  (KeyMap.histogram (statuses xs)).entries.mergeSort fun e e' => decide (e.1.name ≤ e'.1.name)

theorem mem_countsByName {s : Status} {n : Nat} :
    (s, n) ∈ countsByName xs ↔ n = xs.countP (·.effectiveStatus = s) ∧ 0 < n := by
  rw [countsByName, (List.mergeSort_perm ..).mem_iff, KeyMap.mem_histogram, count_statuses]

theorem countsByName_perm (xs : List Instance) : (countsByName xs).Perm (statusCounts xs) :=
  (List.mergeSort_perm ..).trans (List.mergeSort_perm ..).symm

theorem ascending_countsByName (xs : List Instance) :
    Ascending (fun e : Status × Nat => e.1.name) (countsByName xs) := by
  refine ascending_mergeSort ?_
  rw [← Function.comp_def, ← List.map_map]
  exact (KeyMap.distinct _).map Status.name_injective

theorem countsByName_congr
    (h : ∀ s, xs.countP (·.effectiveStatus = s) = ys.countP (·.effectiveStatus = s)) :
    countsByName xs = countsByName ys :=
  (ascending_countsByName xs).ext (ascending_countsByName ys) fun (s, n) => by
    rw [mem_countsByName, mem_countsByName, h s]

/-- The names are counted as the statuses are, since no two statuses have one name. -/
theorem hashCode_eq (xs : List Instance) :
    hashCode xs = String.join ((countsByName xs).map spelled) := by
  have hnames : xs.map (·.effectiveStatus.name) = (statuses xs).map Status.name := by
    rw [statuses, List.map_map]
    rfl
  have hsame : (KeyMap.histogram (xs.map (·.effectiveStatus.name))).entries.mergeSort
      (fun e e' => decide (e.1 ≤ e'.1)) = (countsByName xs).map fun e => (e.1.name, e.2) := by
    have hleft := ascending_mergeSort
      (KeyMap.histogram (xs.map (·.effectiveStatus.name))).distinct
    refine hleft.ext (List.pairwise_map.mpr (ascending_countsByName xs)) fun (name, n) => ?_
    rw [(List.mergeSort_perm ..).mem_iff, KeyMap.mem_histogram, hnames, countsByName,
      ((List.mergeSort_perm ..).map _).mem_iff, List.mem_map]
    constructor
    · rintro ⟨rfl, hpos⟩
      obtain ⟨s, -, rfl⟩ := List.mem_map.mp (List.count_pos_iff.mp hpos)
      rw [List.count_map_of_injective _ _ Status.name_injective] at hpos ⊢
      exact ⟨(s, _), KeyMap.mem_histogram.mpr ⟨rfl, hpos⟩, rfl⟩
    · rintro ⟨⟨s, n⟩, hmem, ⟨rfl, rfl⟩⟩
      rw [List.count_map_of_injective _ _ Status.name_injective]
      exact KeyMap.mem_histogram.mp hmem
  rw [hashCode, hsame, List.map_map]
  rfl

theorem toList_hashCode (xs : List Instance) :
    (hashCode xs).toList = (countsByName xs).flatMap fun e => (spelled e).toList := by
  rw [hashCode_eq, String.toList_join, List.flatMap_map]

theorem hashCode_congr
    (h : ∀ s, xs.countP (·.effectiveStatus = s) = ys.countP (·.effectiveStatus = s)) :
    hashCode xs = hashCode ys := by
  rw [hashCode_eq, hashCode_eq, countsByName_congr h]

theorem countP_le_of_countsByName_eq (h : countsByName xs = countsByName ys) (s : Status) :
    xs.countP (·.effectiveStatus = s) ≤ ys.countP (·.effectiveStatus = s) := by
  by_cases hpos : 0 < xs.countP (·.effectiveStatus = s)
  · have hmem : (s, xs.countP (·.effectiveStatus = s)) ∈ countsByName ys :=
      h ▸ mem_countsByName.mpr ⟨rfl, hpos⟩
    exact Nat.le_of_eq (mem_countsByName.mp hmem).1
  · omega

theorem hashCode_eq_iff :
    hashCode xs = hashCode ys ↔
      ∀ s, xs.countP (·.effectiveStatus = s) = ys.countP (·.effectiveStatus = s) := by
  refine ⟨fun h s => ?_, hashCode_congr⟩
  have hcounts : countsByName xs = countsByName ys := by
    refine eq_of_flatMap_spelled ?_
    rw [← toList_hashCode, ← toList_hashCode, h]
  exact Nat.le_antisymm (countP_le_of_countsByName_eq hcounts s)
    (countP_le_of_countsByName_eq hcounts.symm s)

theorem hashCode_build (version : Nat) (apps : List Application) :
    (Catalog.build version apps).hashCode = hashCode (apps.flatMap (·.instances)) := by
  refine hashCode_congr fun s => List.Perm.countP_eq _ ?_
  rw [List.flatMap_map]
  exact (List.mergeSort_perm apps _).flatMap fun a _ => List.mergeSort_perm a.instances _

/-- Two lists of records have one hash code exactly if every status is as frequent in both, and so
do the catalogs of any applications. The numbers that a hash code spells are the status counts. -/
theorem hashCode_eq_iff_counts (xs ys : List Instance) :
    (hashCode xs = hashCode ys ↔
      ∀ s, xs.countP (·.effectiveStatus = s) = ys.countP (·.effectiveStatus = s)) ∧
    (∀ (version version' : Nat) (apps apps' : List Application),
      (Catalog.build version apps).hashCode = (Catalog.build version' apps').hashCode ↔
        ∀ s, (apps.flatMap (·.instances)).countP (·.effectiveStatus = s) =
          (apps'.flatMap (·.instances)).countP (·.effectiveStatus = s)) ∧
    ∃ counts : List (Status × Nat),
      hashCode xs = String.join (counts.map fun (s, n) => s.name ++ "_" ++ toString n ++ "_") ∧
      counts.Perm (statusCounts xs) ∧ (counts.Pairwise fun e e' => e.1.name < e'.1.name) ∧
      ∀ s n, (s, n) ∈ counts ↔ n = xs.countP (·.effectiveStatus = s) ∧ 0 < n := by
  refine ⟨hashCode_eq_iff, ?_, ?_⟩
  · intro version version' apps apps'
    rw [hashCode_build, hashCode_build]
    exact hashCode_eq_iff
  · exact ⟨countsByName xs, hashCode_eq xs, countsByName_perm xs, ascending_countsByName xs,
      fun _ _ => mem_countsByName⟩

end ServiceRegistry
