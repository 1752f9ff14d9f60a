import ServiceRegistry.Cache.Snapshot
import ServiceRegistry.Proofs.Catalog.Canonical
import ServiceRegistry.Proofs.Registry.History

/-! # Captured snapshots

A snapshot shows the records at one version of the history. Its changes are the part of the
history between its floor and its version.
-/

namespace ServiceRegistry

set_option autoImplicit false

def Records.Keyed (f : Records) : Prop := ∀ k x, f k = some x → x.key = k

theorem Records.Keyed.replay {f : Records} (h : f.Keyed) (changes : List Change) :
    (f.replay changes).Keyed := by
  induction changes generalizing f with
  | nil => exact h
  | cons c rest ih =>
    refine ih fun k x hx => ?_
    simp only [Records.apply] at hx
    split at hx
    · rename_i hk
      split at hx
      · cases hx
      · cases hx
        exact hk
    · exact h k x hx

theorem Records.keyed_replay_empty (changes : List Change) :
    (Records.empty.replay changes).Keyed := by
  refine Records.Keyed.replay (fun _ _ h => ?_) changes
  cases h

/-- A catalog of the given records at some version. -/
def Catalog.Shows (f : Records) (version : Nat) (c : Catalog) : Prop :=
  ∃ apps, Grouped apps ∧ (∀ x, Listed apps x ↔ f x.key = some x) ∧ c = .build version apps

theorem Catalog.Shows.unique {f : Records} {version : Nat} {c c' : Catalog}
    (h : c.Shows f version) (h' : c'.Shows f version) : c = c' := by
  obtain ⟨apps, hgrouped, hlisted, rfl⟩ := h
  obtain ⟨apps', hgrouped', hlisted', rfl⟩ := h'
  exact build_congr hgrouped hgrouped' (fun x => (hlisted x).trans (hlisted' x).symm) version

theorem Catalog.Shows.version_eq {f : Records} {version : Nat} {c : Catalog}
    (h : c.Shows f version) : c.version = version := by
  obtain ⟨apps, -, -, rfl⟩ := h
  rfl

theorem Catalog.Shows.mem_instances {f : Records} {version : Nat} {c : Catalog}
    (h : c.Shows f version) {x : Instance} : x ∈ c.instances ↔ f x.key = some x := by
  obtain ⟨apps, -, hlisted, rfl⟩ := h
  rw [Catalog.instances, List.mem_flatMap, ← hlisted, ← Catalog.listed_build version]
  rfl

namespace Registry

variable {r : Registry}

def applications (r : Registry) : List Application :=
  (r.apps.entries.map fun (name, leases) => ⟨name, liveRecords leases⟩).filter
    fun a => !a.instances.isEmpty

theorem catalog_eq (r : Registry) : r.catalog = .build r.log.version r.applications := rfl

theorem mem_applications {a : Application} :
    a ∈ r.applications ↔ ∃ leases, r.apps.get? a.name = some leases ∧
      a.instances = liveRecords leases ∧ a.instances ≠ [] := by
  simp only [applications, List.mem_filter, List.mem_map, Prod.exists, KeyMap.get?_eq_some_iff]
  constructor
  · rintro ⟨⟨name, leases, hmem, rfl⟩, hne⟩
    exact ⟨leases, hmem, rfl, by simpa using hne⟩
  · rintro ⟨leases, hmem, hinstances, hne⟩
    refine ⟨⟨a.name, leases, hmem, ?_⟩, by simpa using hne⟩
    rw [← hinstances]

theorem mem_liveRecords {leases : KeyMap String (Lease Instance)} {x : Instance} :
    x ∈ liveRecords leases ↔
      ∃ id l, leases.get? id = some l ∧ l.isEvicted = false ∧ l.holder = x := by
  simp only [liveRecords, KeyMap.values, KeyMap.get?_eq_some_iff, List.mem_map, List.mem_filter,
    Prod.exists, exists_eq_right, Bool.not_eq_true']
  constructor
  · rintro ⟨l, ⟨⟨id, hmem⟩, hlive⟩, rfl⟩
    exact ⟨id, l, hmem, hlive, rfl⟩
  · rintro ⟨id, l, hmem, hlive, rfl⟩
    exact ⟨l, ⟨⟨id, hmem⟩, hlive⟩, rfl⟩

theorem stored?_of_get? {name id : String} {leases : KeyMap String (Lease Instance)}
    {l : Lease Instance} (happ : r.apps.get? name = some leases)
    (hlease : leases.get? id = some l) :
    r.stored? (name, id) = some l := by
  simp [stored?, happ, hlease]

theorem Sound.ids_liveRecords (hr : r.Sound) {name : String}
    {leases : KeyMap String (Lease Instance)} (happ : r.apps.get? name = some leases) :
    ((liveRecords leases).map (·.id)).Nodup := by
  have hids : leases.values.map (·.holder.id) = leases.keys := by
    rw [KeyMap.values, KeyMap.keys, List.map_map]
    apply List.map_congr_left
    rintro ⟨id, l⟩ hmem
    have hlease := (leases.get?_eq_some_iff id l).mpr hmem
    exact congrArg Prod.snd (hr.filed _ _ (stored?_of_get? happ hlease))
  rw [liveRecords, List.map_map]
  refine (List.Sublist.map _ List.filter_sublist).nodup ?_
  exact hids ▸ leases.distinct

theorem Sound.grouped_applications (hr : r.Sound) : Grouped r.applications where
  names := by
    have hnames : (r.apps.entries.map fun (name, leases) =>
        (⟨name, liveRecords leases⟩ : Application)).map (·.name) = r.apps.entries.map Prod.fst := by
      rw [List.map_map]
      rfl
    have hsublist := List.Sublist.map Application.name (List.filter_sublist
      (l := r.apps.entries.map fun (name, leases) => (⟨name, liveRecords leases⟩ : Application))
      (p := fun a => !a.instances.isEmpty))
    exact hsublist.nodup (hnames ▸ r.apps.distinct)
  inhabited a ha := by
    obtain ⟨_, -, -, hne⟩ := mem_applications.mp ha
    exact hne
  ids a ha := by
    obtain ⟨leases, happ, hinstances, -⟩ := mem_applications.mp ha
    rw [hinstances]
    exact hr.ids_liveRecords happ
  own a ha x hx := by
    obtain ⟨leases, happ, hinstances, -⟩ := mem_applications.mp ha
    obtain ⟨id, l, hlease, -, rfl⟩ := mem_liveRecords.mp (hinstances ▸ hx)
    exact congrArg Prod.fst (hr.filed _ _ (stored?_of_get? happ hlease))

theorem Sound.listed_applications (hr : r.Sound) (x : Instance) :
    Listed r.applications x ↔ r.records x.key = some x := by
  constructor
  · rintro ⟨a, ha, hx⟩
    obtain ⟨leases, happ, hinstances, -⟩ := mem_applications.mp ha
    obtain ⟨id, l, hlease, -, rfl⟩ := mem_liveRecords.mp (hinstances ▸ hx)
    have hstored := stored?_of_get? happ hlease
    rw [records, hr.filed _ _ hstored, hstored]
    rfl
  · intro hx
    obtain ⟨l, hstored, rfl⟩ := Option.map_eq_some_iff.mp hx
    obtain ⟨leases, happ, hlease⟩ := Option.bind_eq_some_iff.mp hstored
    have hmem : l.holder ∈ liveRecords leases :=
      mem_liveRecords.mpr ⟨_, l, hlease, ((hr _).tended hstored).live, rfl⟩
    refine ⟨⟨l.holder.key.1, liveRecords leases⟩, ?_, hmem⟩
    exact mem_applications.mpr ⟨leases, happ, rfl, List.ne_nil_of_mem hmem⟩

theorem Sound.canonical_catalog (hr : r.Sound) : Canonical r.catalog.applications :=
  Catalog.canonical_build hr.grouped_applications r.log.version

theorem Sound.listed_catalog (hr : r.Sound) (x : Instance) :
    Listed r.catalog.applications x ↔ r.records x.key = some x :=
  (Catalog.listed_build r.log.version).trans (hr.listed_applications x)

theorem Sound.catalog_shows (hr : r.Sound) : r.catalog.Shows r.records r.log.version :=
  ⟨r.applications, hr.grouped_applications, hr.listed_applications, r.catalog_eq⟩

end Registry

namespace Snapshot

/-- A snapshot of a point in a history. -/
structure Traced (history : List Change) (s : Snapshot) : Prop where
  floor_le : s.floor ≤ s.version
  version_le : s.version ≤ history.length
  changes : s.changes = (history.take s.version).drop s.floor
  shows : s.catalog.Shows (Records.empty.replay (history.take s.version)) s.version

variable {history : List Change} {s : Snapshot}

theorem Traced.extend (h : s.Traced history) (later : List Change) :
    s.Traced (history ++ later) := by
  have htake : (history ++ later).take s.version = history.take s.version :=
    List.take_append_of_le_length h.version_le
  refine ⟨h.floor_le, ?_, ?_, ?_⟩
  · rw [List.length_append]
    exact Nat.le_add_right_of_le h.version_le
  · rw [htake]
    exact h.changes
  · rw [htake]
    exact h.shows

theorem traced_capture {r : Registry} (h : r.Traced history) (hr : r.Sound) (now : Millis) :
    (capture r now).Traced history := by
  have hversion : (capture r now).version = history.length := h.tracks.version
  have htake : history.take (capture r now).version = history := by
    rw [hversion, List.take_length]
  refine ⟨hversion ▸ h.tracks.floor_le, Nat.le_of_eq hversion, ?_, ?_⟩
  · have hall : ∀ c ∈ history.drop r.log.floor, decide (c.version ≤ r.log.version) = true := by
      intro c hc
      rw [h.tracks.version]
      exact decide_eq_true (h.tracks.numbered.version_le (List.mem_of_mem_drop hc))
    rw [htake]
    have hchanges := h.tracks.changes_since 0
    rw [Nat.zero_max] at hchanges
    simp only [capture, hchanges]
    exact List.filter_eq_self.mpr hall
  · rw [htake, ← h.records]
    exact hr.catalog_shows

end Snapshot

end ServiceRegistry
