import Mathlib.Data.List.Dedup
import ServiceRegistry.Catalog

/-! # Canonical catalogs

The applications of a catalog are in canonical form if they group the records by application and
ascend by name, as the records of each do by id. Such a catalog is determined by the records that
it lists.
-/

namespace ServiceRegistry

set_option autoImplicit false

def Ascending {α : Type} (text : α → String) (l : List α) : Prop :=
  l.Pairwise fun a b => text a < text b

section Ascending

variable {α : Type} {text : α → String} {l l' : List α}

theorem Ascending.nodup (h : Ascending text l) : l.Nodup :=
  h.imp fun hlt heq => String.ne_of_lt hlt (congrArg text heq)

/-- An ascending list is determined by its members. -/
theorem Ascending.ext (h : Ascending text l) (h' : Ascending text l')
    (hmem : ∀ a, a ∈ l ↔ a ∈ l') : l = l' :=
  List.Perm.eq_of_pairwise (fun _ _ _ _ hlt hgt => absurd hgt (String.lt_asymm hlt)) h h'
    ((List.perm_ext_iff_of_nodup h.nodup h'.nodup).mpr hmem)

theorem ascending_mergeSort (hdistinct : (l.map text).Nodup) :
    Ascending text (l.mergeSort fun a b => decide (text a ≤ text b)) := by
  have hperm := List.mergeSort_perm l fun a b => decide (text a ≤ text b)
  have hsorted : (l.mergeSort fun a b => decide (text a ≤ text b)).Pairwise (text · ≤ text ·) := by
    refine (List.pairwise_mergeSort ?trans ?total l).imp of_decide_eq_true
    case trans =>
      intro a b c hab hbc
      exact decide_eq_true (String.le_trans (of_decide_eq_true hab) (of_decide_eq_true hbc))
    case total =>
      intro a b
      simpa using String.le_total (text a) (text b)
  have hne := List.pairwise_map.mp ((hperm.map text).symm.nodup hdistinct)
  exact (hsorted.and hne).imp fun ⟨hle, hne⟩ => Std.lt_of_le_of_ne hle hne

end Ascending

/-- The records are grouped by application, without empty applications or repeated ids. -/
structure Grouped (apps : List Application) : Prop where
  names : (apps.map (·.name)).Nodup
  inhabited : ∀ a ∈ apps, a.instances ≠ []
  ids : ∀ a ∈ apps, (a.instances.map (·.id)).Nodup
  own : ∀ a ∈ apps, ∀ x ∈ a.instances, x.app = a.name

def Listed (apps : List Application) (x : Instance) : Prop := ∃ a ∈ apps, x ∈ a.instances

structure Canonical (apps : List Application) : Prop extends Grouped apps where
  byName : Ascending (·.name) apps
  byId : ∀ a ∈ apps, Ascending (·.id) a.instances

section Canonical

variable {a : Application} {apps apps' : List Application} {x : Instance}

theorem listed_cons : Listed (a :: apps) x ↔ x ∈ a.instances ∨ Listed apps x := by
  simp [Listed]

theorem Canonical.tail (h : Canonical (a :: apps)) : Canonical apps where
  names := (List.nodup_cons.mp h.names).2
  inhabited b hb := h.inhabited b (List.mem_cons_of_mem a hb)
  ids b hb := h.ids b (List.mem_cons_of_mem a hb)
  own b hb := h.own b (List.mem_cons_of_mem a hb)
  byName := h.byName.tail
  byId b hb := h.byId b (List.mem_cons_of_mem a hb)

theorem Canonical.lt_of_listed_tail (h : Canonical (a :: apps)) (hx : Listed apps x) :
    a.name < x.app := by
  obtain ⟨b, hb, hxb⟩ := hx
  rw [h.own b (List.mem_cons_of_mem a hb) x hxb]
  exact List.rel_of_pairwise_cons h.byName hb

theorem Canonical.mem_head_iff (h : Canonical (a :: apps)) :
    x ∈ a.instances ↔ Listed (a :: apps) x ∧ x.app = a.name := by
  rw [listed_cons]
  constructor
  · exact fun hx => ⟨.inl hx, h.own a List.mem_cons_self x hx⟩
  · rintro ⟨hx | hx, hname⟩
    · exact hx
    · exact absurd hname.symm (String.ne_of_lt (h.lt_of_listed_tail hx))

theorem Canonical.listed_tail_iff (h : Canonical (a :: apps)) :
    Listed apps x ↔ Listed (a :: apps) x ∧ x.app ≠ a.name := by
  rw [listed_cons]
  constructor
  · exact fun hx => ⟨.inr hx, (String.ne_of_lt (h.lt_of_listed_tail hx)).symm⟩
  · rintro ⟨hx | hx, hname⟩
    · exact absurd (h.own a List.mem_cons_self x hx) hname
    · exact hx

theorem Canonical.name_le (h : Canonical (a :: apps)) (hx : Listed (a :: apps) x) :
    a.name ≤ x.app := by
  rcases listed_cons.mp hx with hx | hx
  · have hname := h.own a List.mem_cons_self x hx
    calc
      a.name ≤ a.name := String.le_refl _
      _ = x.app := hname.symm
  · exact Std.le_of_lt (h.lt_of_listed_tail hx)

theorem Canonical.exists_listed (h : Canonical (a :: apps)) :
    ∃ x, Listed (a :: apps) x ∧ x.app = a.name := by
  obtain ⟨x, hx⟩ := List.exists_mem_of_ne_nil _ (h.inhabited a List.mem_cons_self)
  exact ⟨x, h.mem_head_iff.mp hx⟩

/-- A canonical list of applications is determined by the records that it lists. -/
theorem Canonical.ext (h : Canonical apps) (h' : Canonical apps')
    (hlisted : ∀ x, Listed apps x ↔ Listed apps' x) : apps = apps' := by
  induction apps generalizing apps' with
  | nil =>
    cases apps' with
    | nil => rfl
    | cons b bs =>
      obtain ⟨x, hx, -⟩ := h'.exists_listed
      obtain ⟨_, hmem, -⟩ := (hlisted x).mpr hx
      cases hmem
  | cons a as ih =>
    cases apps' with
    | nil =>
      obtain ⟨x, hx, -⟩ := h.exists_listed
      obtain ⟨_, hmem, -⟩ := (hlisted x).mp hx
      cases hmem
    | cons b bs =>
      have hname : a.name = b.name := by
        obtain ⟨x, hx, hxa⟩ := h.exists_listed
        obtain ⟨y, hy, hyb⟩ := h'.exists_listed
        exact String.le_antisymm (hyb ▸ h.name_le ((hlisted y).mpr hy))
          (hxa ▸ h'.name_le ((hlisted x).mp hx))
      have hinstances : a.instances = b.instances := by
        refine (h.byId a List.mem_cons_self).ext (h'.byId b List.mem_cons_self) fun x => ?_
        rw [h.mem_head_iff, h'.mem_head_iff, hlisted, hname]
      have htail : as = bs := by
        refine ih h.tail h'.tail fun x => ?_
        rw [h.listed_tail_iff, h'.listed_tail_iff, hlisted, hname]
      rw [htail, show a = b by cases a; cases b; simp_all]

end Canonical

namespace Catalog

variable {apps apps' : List Application}

theorem applications_build (version : Nat) (apps : List Application) :
    (build version apps).applications =
      (apps.mergeSort fun a b => decide (a.name ≤ b.name)).map Application.sorted := rfl

theorem mem_applications_build {version : Nat} {a : Application} :
    a ∈ (build version apps).applications ↔ ∃ b ∈ apps, b.sorted = a := by
  simp [applications_build]

theorem listed_build (version : Nat) {x : Instance} :
    Listed (build version apps).applications x ↔ Listed apps x := by
  simp [Listed, mem_applications_build, Application.sorted]

theorem canonical_build (h : Grouped apps) (version : Nat) :
    Canonical (build version apps).applications := by
  have hname : ∀ l : List Application, (l.map Application.sorted).map (·.name) = l.map (·.name) :=
    fun l => by rw [List.map_map]; rfl
  have hperm := List.mergeSort_perm apps fun a b => decide (a.name ≤ b.name)
  constructor
  · constructor
    · rw [applications_build, hname]
      exact (hperm.map _).symm.nodup h.names
    · intro a ha
      obtain ⟨b, hb, rfl⟩ := mem_applications_build.mp ha
      intro hnil
      have hempty := (List.mergeSort_perm b.instances _).symm.trans (.of_eq hnil)
      exact h.inhabited b hb hempty.eq_nil
    · intro a ha
      obtain ⟨b, hb, rfl⟩ := mem_applications_build.mp ha
      exact ((List.mergeSort_perm _ _).map _).symm.nodup (h.ids b hb)
    · intro a ha x hx
      obtain ⟨b, hb, rfl⟩ := mem_applications_build.mp ha
      exact h.own b hb x (List.mem_mergeSort.mp hx)
  · exact List.pairwise_map.mpr (ascending_mergeSort h.names)
  · intro a ha
    obtain ⟨b, hb, rfl⟩ := mem_applications_build.mp ha
    exact ascending_mergeSort (h.ids b hb)

/-- The order in which applications and records come does not matter to the catalog. -/
theorem build_congr (h : Grouped apps) (h' : Grouped apps')
    (hlisted : ∀ x, Listed apps x ↔ Listed apps' x) (version : Nat) :
    build version apps = build version apps' := by
  have happs : (build version apps).applications = (build version apps').applications := by
    refine (canonical_build h version).ext (canonical_build h' version) fun x => ?_
    rw [listed_build, listed_build, hlisted]
  rw [applications_build, applications_build] at happs
  simp only [build, happs]

end Catalog

end ServiceRegistry
