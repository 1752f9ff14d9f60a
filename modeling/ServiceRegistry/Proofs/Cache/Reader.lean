import ServiceRegistry.Proofs.Cache.Refresh

/-! # Readers of changes

A reader starts from a catalog, follows the changes that it asks for by the version it has
reached, and starts over when these are not known any more. After every poll it holds the catalog
of the snapshot that answered.
-/

namespace ServiceRegistry

set_option autoImplicit false

/-- A reader's own copy of the records, and the version it has reached. -/
structure Reader where
  version : Nat
  records : KeyMap Key Instance

namespace Reader

def file (records : List Instance) : KeyMap Key Instance :=
  records.foldr (fun x m => m.insert x.key x) .empty

def start (c : Catalog) : Reader := { version := c.version, records := file c.instances }

def follow (m : KeyMap Key Instance) (c : Change) : KeyMap Key Instance :=
  match c.kind with
  | .added | .modified => m.insert c.record.key c.record
  | .deleted => m.erase c.record.key

def poll (v : Reader) (s : Snapshot) : Reader :=
  match s.delta v.version with
  | .changes _ upTo _ changes => { version := upTo, records := changes.foldl follow v.records }
  | .startOver _ => .start s.catalog

def applications (v : Reader) : List Application :=
  (v.records.values.map (·.app)).dedup.map fun name =>
    ⟨name, v.records.values.filter (·.app = name)⟩

def catalog (v : Reader) : Catalog := .build v.version v.applications

theorem get?_file (records : List Instance) (k : Key) :
    (file records).get? k = records.find? (·.key = k) := by
  induction records with
  | nil => rfl
  | cons x rest ih =>
    rw [show file (x :: rest) = (file rest).insert x.key x from rfl, KeyMap.get?_insert, ih,
      List.find?_cons]
    split <;> simp [*]

theorem get?_follow (m : KeyMap Key Instance) (c : Change) :
    (follow m c).get? = Records.apply m.get? c := by
  funext k
  unfold follow Records.apply
  cases c.kind <;> simp

theorem get?_foldl_follow (m : KeyMap Key Instance) (changes : List Change) :
    (changes.foldl follow m).get? = Records.replay m.get? changes := by
  induction changes generalizing m with
  | nil => rfl
  | cons c rest ih =>
    rw [List.foldl_cons, ih, get?_follow]
    rfl

theorem get?_start {f : Records} {version : Nat} {c : Catalog} (hf : f.Keyed)
    (hc : c.Shows f version) : (start c).records.get? = f := by
  funext k
  rw [start, get?_file]
  cases hfind : c.instances.find? (·.key = k) with
  | some x =>
    have hkey : x.key = k := by simpa using List.find?_some hfind
    rw [← hkey]
    exact (hc.mem_instances.mp (List.mem_of_find?_eq_some hfind)).symm
  | none =>
    cases hk : f k with
    | none => rfl
    | some x =>
      have hkey := hf k x hk
      have hmem : x ∈ c.instances := hc.mem_instances.mpr (by rw [hkey, hk])
      exact absurd hkey (by simpa using List.find?_eq_none.mp hfind x hmem)

variable {v : Reader}

theorem mem_values (hkeyed : Records.Keyed v.records.get?) {x : Instance} :
    x ∈ v.records.values ↔ v.records.get? x.key = some x := by
  rw [KeyMap.values, List.mem_map, KeyMap.get?_eq_some_iff]
  constructor
  · rintro ⟨⟨k, _⟩, hmem, rfl⟩
    rw [hkeyed k _ ((v.records.get?_eq_some_iff k _).mpr hmem)]
    exact hmem
  · exact fun hmem => ⟨_, hmem, rfl⟩

theorem keys_values (hkeyed : Records.Keyed v.records.get?) :
    v.records.values.map (·.key) = v.records.keys := by
  rw [KeyMap.values, KeyMap.keys, List.map_map]
  refine List.map_congr_left fun e hmem => ?_
  exact hkeyed e.1 e.2 ((v.records.get?_eq_some_iff e.1 e.2).mpr hmem)

theorem grouped_applications (hkeyed : Records.Keyed v.records.get?) : Grouped v.applications where
  names := by
    have hnames : v.applications.map (·.name) = (v.records.values.map (·.app)).dedup := by
      rw [applications, List.map_map]
      exact List.map_id _
    rw [hnames]
    exact List.nodup_dedup _
  inhabited a ha := by
    obtain ⟨name, hname, rfl⟩ := List.mem_map.mp ha
    obtain ⟨x, hx, happ⟩ := List.mem_map.mp (List.mem_dedup.mp hname)
    exact List.ne_nil_of_mem (List.mem_filter.mpr ⟨hx, decide_eq_true happ⟩)
  ids a ha := by
    obtain ⟨name, -, rfl⟩ := List.mem_map.mp ha
    have hkeys : (v.records.values.map (·.key)).Nodup := keys_values hkeyed ▸ v.records.distinct
    have hpair := (List.pairwise_map.mp hkeys).filter (·.app = name)
    refine List.pairwise_map.mpr (hpair.imp_of_mem fun {x y} hx hy hne hid => hne ?_)
    have hxname : x.app = name := by simpa using (List.mem_filter.mp hx).2
    have hyname : y.app = name := by simpa using (List.mem_filter.mp hy).2
    exact Prod.ext (hxname.trans hyname.symm) hid
  own a ha x hx := by
    obtain ⟨name, -, rfl⟩ := List.mem_map.mp ha
    exact of_decide_eq_true (List.mem_filter.mp hx).2

theorem listed_applications (x : Instance) : Listed v.applications x ↔ x ∈ v.records.values := by
  constructor
  · rintro ⟨a, ha, hx⟩
    obtain ⟨name, -, rfl⟩ := List.mem_map.mp ha
    exact List.mem_of_mem_filter hx
  · intro hx
    refine ⟨_, List.mem_map.mpr ⟨x.app, ?_, rfl⟩, ?_⟩
    · exact List.mem_dedup.mpr (List.mem_map_of_mem hx)
    · exact List.mem_filter.mpr ⟨hx, decide_eq_true rfl⟩

theorem catalog_shows (hkeyed : Records.Keyed v.records.get?) :
    v.catalog.Shows v.records.get? v.version :=
  ⟨v.applications, grouped_applications hkeyed,
    fun x => (listed_applications x).trans (mem_values hkeyed), rfl⟩

structure Traced (history : List Change) (v : Reader) : Prop where
  version_le : v.version ≤ history.length
  records : v.records.get? = Records.empty.replay (history.take v.version)

variable {history : List Change} {s : Snapshot}

theorem Traced.extend (h : v.Traced history) (later : List Change) :
    v.Traced (history ++ later) := by
  refine ⟨?_, ?_⟩
  · rw [List.length_append]
    exact Nat.le_add_right_of_le h.version_le
  · rw [List.take_append_of_le_length h.version_le]
    exact h.records

theorem traced_start (h : s.Traced history) : (start s.catalog).Traced history := by
  have hversion : (start s.catalog).version = s.version := h.shows.version_eq
  refine ⟨hversion ▸ h.version_le, ?_⟩
  rw [hversion]
  exact get?_start (Records.keyed_replay_empty _) h.shows

/-- The changes above a version lead from the records at that version to the snapshot's. -/
theorem Traced.follow_changes (h : v.Traced history) (hnumbered : Numbered history)
    (hs : s.Traced history) (hfloor : s.floor ≤ v.version) (hversion : v.version ≤ s.version) :
    ((s.changes.filter (v.version < ·.version)).foldl follow v.records).get? =
      Records.empty.replay (history.take s.version) := by
  rw [get?_foldl_follow, hs.changes, (hnumbered.take _).filter_drop, Nat.max_eq_left hfloor,
    h.records, Records.replay_take_drop _ _ hversion]

theorem Traced.poll (h : v.Traced history) (hnumbered : Numbered history)
    (hs : s.Traced history) : (v.poll s).Traced history ∧ (v.poll s).version = s.version := by
  simp only [Reader.poll, Snapshot.delta]
  by_cases hcovers : s.covers v.version = true
  · obtain ⟨hfloor, hversion⟩ : s.floor ≤ v.version ∧ v.version ≤ s.version := by
      simpa [Snapshot.covers] using hcovers
    simp only [hcovers, if_true]
    exact ⟨⟨hs.version_le, h.follow_changes hnumbered hs hfloor hversion⟩, trivial⟩
  · simp only [hcovers]
    exact ⟨traced_start hs, hs.shows.version_eq⟩

theorem Traced.catalog_eq (h : v.Traced history) (hs : s.Traced history)
    (hversion : v.version = s.version) : v.catalog = s.catalog := by
  have hkeyed : Records.Keyed v.records.get? := h.records ▸ Records.keyed_replay_empty _
  have hshows := catalog_shows hkeyed
  rw [h.records, hversion] at hshows
  exact hshows.unique hs.shows

end Reader

end ServiceRegistry
