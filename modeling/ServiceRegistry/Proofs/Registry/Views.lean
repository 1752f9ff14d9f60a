import ServiceRegistry.Proofs.Cache.Memo
import ServiceRegistry.Proofs.Catalog.ByteOrder
import ServiceRegistry.Proofs.Eviction.Cycle

/-! # The views of a registry agree

A registry may go through its applications, and through the leases of each, in any order. Whatever
the order, the catalog is the same, and the other views can be told from it.
-/

namespace ServiceRegistry

set_option autoImplicit false

theorem Text.sameLetters_upper (s : String) : Text.sameLetters (Text.upper s) s = true :=
  beq_iff_eq.mpr (Text.upper_upper s)

theorem Canonical.nodup_keys {apps : List Application} (h : Canonical apps) :
    ((apps.flatMap (·.instances)).map Instance.key).Nodup := by
  rw [List.map_flatMap]
  apply List.nodup_flatMap.mpr
  constructor
  · intro a ha
    refine .of_map Prod.snd ?_
    rw [List.map_map]
    exact h.ids a ha
  · apply (List.pairwise_map.mp h.names).imp_of_mem
    intro a b ha hb hne k hka hkb
    obtain ⟨x, hx, rfl⟩ := List.mem_map.mp hka
    obtain ⟨y, hy, hkey⟩ := List.mem_map.mp hkb
    apply hne
    calc
      a.name = x.app := (h.own a ha x hx).symm
      _ = y.app := (congrArg Prod.fst hkey).symm
      _ = b.name := h.own b hb y hy

namespace Catalog

/-- Applications and their records ascend by the bytes of names and ids, and no application is
empty. -/
structure InByteOrder (c : Catalog) : Prop where
  byName : c.applications.Pairwise fun a b => Text.bytes a.name < Text.bytes b.name
  inhabited : ∀ a ∈ c.applications, a.instances ≠ []
  byId : ∀ a ∈ c.applications,
    a.instances.Pairwise fun x y => Text.bytes x.id < Text.bytes y.id

end Catalog

namespace KeyMap

variable {κ α β : Type}

def reverse (m : KeyMap κ α) : KeyMap κ α :=
  ⟨m.entries.reverse, by
    rw [List.map_reverse]
    exact List.nodup_reverse.mpr m.distinct⟩

def mapValues (m : KeyMap κ α) (f : α → β) : KeyMap κ β :=
  ⟨m.entries.map fun (k, a) => (k, f a), by
    rw [List.map_map]
    exact m.distinct⟩

theorem keys_reverse (m : KeyMap κ α) : m.reverse.keys = m.keys.reverse := List.map_reverse

theorem keys_mapValues (m : KeyMap κ α) (f : α → β) : (m.mapValues f).keys = m.keys :=
  List.map_map

end KeyMap

namespace Registry

variable {r r' : Registry}

/-- The registries differ at most in the order of the applications and of the leases of each. -/
structure Reordered (r r' : Registry) : Prop where
  rest : r' = { r with apps := r'.apps }
  names : r'.apps.keys.Perm r.apps.keys
  leases : ∀ e ∈ r.apps.entries, ∀ e' ∈ r'.apps.entries, e'.1 = e.1 →
    e'.2.entries.Perm e.2.entries

def backwards (r : Registry) : Registry :=
  { r with apps := (r.apps.mapValues KeyMap.reverse).reverse }

theorem reordered_backwards (r : Registry) : r.Reordered r.backwards where
  rest := rfl
  names := by
    rw [backwards, KeyMap.keys_reverse, KeyMap.keys_mapValues]
    exact List.reverse_perm _
  leases := by
    rintro ⟨name, leases⟩ he e' he' rfl
    obtain ⟨⟨_, leases'⟩, hmem, rfl⟩ := List.mem_map.mp (List.mem_reverse.mp he')
    have hleases : some leases' = some leases :=
      ((r.apps.get?_eq_some_iff ..).mpr hmem).symm.trans ((r.apps.get?_eq_some_iff ..).mpr he)
    cases hleases
    exact List.reverse_perm _

theorem Reordered.symm (h : r.Reordered r') : r'.Reordered r where
  rest := by rw [h.rest]
  names := h.names.symm
  leases := by
    intro e he e' he' hname
    exact (h.leases e' he' e he hname.symm).symm

theorem Reordered.stored?_eq_some (h : r.Reordered r') {k : Key} {l : Lease Instance}
    (hl : r.stored? k = some l) : r'.stored? k = some l := by
  obtain ⟨leases, happ, hlease⟩ := Option.bind_eq_some_iff.mp hl
  have hname : k.1 ∈ r'.apps.keys := by
    apply h.names.mem_iff.mpr
    apply (r.apps.mem_keys k.1).mpr
    rw [happ]
    rfl
  obtain ⟨leases', happ'⟩ := Option.isSome_iff_exists.mp ((r'.apps.mem_keys k.1).mp hname)
  have hperm : leases'.entries.Perm leases.entries :=
    h.leases _ ((r.apps.get?_eq_some_iff ..).mp happ) _ ((r'.apps.get?_eq_some_iff ..).mp happ')
      rfl
  apply stored?_of_get? happ'
  apply (leases'.get?_eq_some_iff ..).mpr
  exact hperm.mem_iff.mpr ((leases.get?_eq_some_iff ..).mp hlease)

theorem Reordered.stored?_eq (h : r.Reordered r') (k : Key) : r'.stored? k = r.stored? k := by
  apply Option.ext
  intro l
  constructor
  · exact h.symm.stored?_eq_some
  · exact h.stored?_eq_some

theorem Reordered.slot_eq (h : r.Reordered r') (k : Key) : r'.slot k = r.slot k := by
  rw [slot, h.stored?_eq, h.rest]
  rfl

theorem Reordered.sound (h : r.Reordered r') (hr : r.Sound) : r'.Sound := by
  intro k
  rw [h.slot_eq]
  exact hr k

theorem Reordered.lease?_eq (h : r.Reordered r') (app id : String) :
    r'.lease? app id = r.lease? app id := by
  rw [lease?, held?, h.stored?_eq]
  rfl

theorem Reordered.catalog_eq (h : r.Reordered r') (hr : r.Sound) : r'.catalog = r.catalog := by
  have hrecords : r'.records = r.records := funext fun k => by rw [records, h.stored?_eq, records]
  have hversion : r'.log.version = r.log.version := by rw [h.rest]
  have hshows := (h.sound hr).catalog_shows
  rw [hrecords, hversion] at hshows
  exact hshows.unique hr.catalog_shows

/-- What the views show of a registry can be told from a catalog. -/
structure ReadsAs (r : Registry) (c : Catalog) : Prop where
  instance_iff : ∀ app id x, r.instance? app id = some x ↔
    ∃ a ∈ c.applications, Text.sameLetters a.name app = true ∧ x ∈ a.instances ∧ x.id = id
  application_iff : ∀ app a, r.application? app = some a ↔
    a ∈ c.applications ∧ Text.sameLetters a.name app = true
  application_eq : ∀ app, r.application? app = c.find? app
  count : r.instanceCount = c.instanceCount
  expired : ∀ now grace, Enumerates (r.expired now grace) fun k =>
    ∃ x ∈ c.instances, x.key = k ∧ ∃ l, r.lease? k.1 k.2 = some l ∧ l.isExpired now grace = true

theorem Sound.instance?_eq_records (hr : r.Sound) (app id : String) :
    r.instance? app id = r.records (keyOf app id) := by
  rw [instance?, lease?, hr.held?_eq_stored?]
  rfl

theorem Sound.key_of_records (hr : r.Sound) {k : Key} {x : Instance} (hx : r.records k = some x) :
    x.key = k := by
  obtain ⟨l, hl, rfl⟩ := Option.map_eq_some_iff.mp hx
  exact hr.filed k l hl

theorem Sound.name_eq_upper (hr : r.Sound) {a : Application} {app : String}
    (ha : a ∈ r.catalog.applications) (hname : Text.sameLetters a.name app = true) :
    a.name = Text.upper app :=
  (hr.upper_name ha).symm.trans (beq_iff_eq.mp hname)

theorem Sound.instance?_eq_some_iff (hr : r.Sound) {app id : String} {x : Instance} :
    r.instance? app id = some x ↔
      ∃ a ∈ r.catalog.applications,
        Text.sameLetters a.name app = true ∧ x ∈ a.instances ∧ x.id = id := by
  rw [hr.instance?_eq_records]
  constructor
  · intro hx
    have hkey := hr.key_of_records hx
    obtain ⟨a, ha, hmem⟩ := (hr.listed_catalog x).mpr (hkey ▸ hx)
    have hname : a.name = Text.upper app :=
      (hr.canonical_catalog.own a ha x hmem).symm.trans (congrArg Prod.fst hkey)
    refine ⟨a, ha, ?_, hmem, congrArg Prod.snd hkey⟩
    rw [hname]
    exact Text.sameLetters_upper app
  · rintro ⟨a, ha, hname, hmem, rfl⟩
    have hkey : x.key = keyOf app x.id := by
      apply Prod.ext
      · exact (hr.canonical_catalog.own a ha x hmem).trans (hr.name_eq_upper ha hname)
      · rfl
    rw [← hkey]
    exact (hr.listed_catalog x).mp ⟨a, ha, hmem⟩

theorem application?_eq_some_iff_name {app : String} {a : Application} :
    r.application? app = some a ↔ a ∈ r.catalog.applications ∧ a.name = Text.upper app := by
  rw [r.catalog_eq, Catalog.mem_applications_build]
  constructor
  · intro ha
    obtain ⟨leases, happ, hbuilt⟩ := Option.bind_eq_some_iff.mp ha
    simp only at hbuilt
    split at hbuilt
    · cases hbuilt
    · rename_i hne
      cases hbuilt
      refine ⟨⟨_, mem_applications.mpr ⟨leases, happ, rfl, ?_⟩, rfl⟩, rfl⟩
      simpa using hne
  · rintro ⟨⟨⟨name, instances⟩, hb, rfl⟩, hname⟩
    obtain ⟨leases, happ, hinstances, hne⟩ := mem_applications.mp hb
    obtain rfl : name = Text.upper app := hname
    obtain rfl : instances = liveRecords leases := hinstances
    rw [application?, happ]
    apply if_neg
    simpa using hne

theorem Sound.application?_eq_some_iff (hr : r.Sound) {app : String} {a : Application} :
    r.application? app = some a ↔
      a ∈ r.catalog.applications ∧ Text.sameLetters a.name app = true := by
  rw [application?_eq_some_iff_name]
  constructor
  · rintro ⟨ha, hname⟩
    refine ⟨ha, ?_⟩
    rw [hname]
    exact Text.sameLetters_upper app
  · rintro ⟨ha, hname⟩
    exact ⟨ha, hr.name_eq_upper ha hname⟩

theorem Sound.enumerates_keys (hr : r.Sound) :
    Enumerates (r.catalog.instances.map Instance.key) fun k => ∃ l, r.stored? k = some l where
  nodup := hr.canonical_catalog.nodup_keys
  mem_iff := by
    intro k
    rw [List.mem_map]
    constructor
    · rintro ⟨x, hx, rfl⟩
      obtain ⟨l, hl, -⟩ := Option.map_eq_some_iff.mp (hr.catalog_shows.mem_instances.mp hx)
      exact ⟨l, hl⟩
    · rintro ⟨l, hl⟩
      have hkey := hr.filed k l hl
      refine ⟨l.holder, hr.catalog_shows.mem_instances.mpr ?_, hkey⟩
      rw [records, hkey, hl]
      rfl

theorem Sound.lease?_of_stored? (hr : r.Sound) {k : Key} {l : Lease Instance}
    (hl : r.stored? k = some l) : r.lease? k.1 k.2 = some l := by
  have hkey : keyOf k.1 k.2 = k := Prod.ext ((hr k).tended hl).upper rfl
  rw [lease?, hkey, hr.held?_eq_stored?, hl]

theorem Sound.lapsed_iff (hr : r.Sound) {now grace : Int} {k : Key} :
    r.Lapsed now grace k ↔ ∃ x ∈ r.catalog.instances, x.key = k ∧
      ∃ l, r.lease? k.1 k.2 = some l ∧ l.isExpired now grace = true := by
  constructor
  · rintro ⟨l, hl, hexpired⟩
    obtain ⟨x, hx, hkey⟩ := List.mem_map.mp ((hr.enumerates_keys.mem_iff k).mpr ⟨l, hl⟩)
    exact ⟨x, hx, hkey, l, hr.lease?_of_stored? hl, hexpired⟩
  · rintro ⟨x, hx, hkey, l, hlease, hexpired⟩
    obtain ⟨l', hl'⟩ := (hr.enumerates_keys.mem_iff k).mp (List.mem_map.mpr ⟨x, hx, hkey⟩)
    cases (hr.lease?_of_stored? hl').symm.trans hlease
    exact ⟨l, hl', hexpired⟩

theorem Sound.readsAs_catalog (hr : r.Sound) : r.ReadsAs r.catalog where
  instance_iff _ _ _ := hr.instance?_eq_some_iff
  application_iff _ _ := hr.application?_eq_some_iff
  application_eq app := by
    apply Option.ext
    intro a
    rw [hr.application?_eq_some_iff]
    constructor
    · rintro ⟨ha, hname⟩
      exact hr.spelled.find?_eq_some ha hname
    · intro hfind
      have hname := List.find?_some hfind
      exact ⟨List.mem_of_find?_eq_some hfind, hname⟩
  count := by
    have hall := r.enumerates_keysWhere fun _ => true
    simp only [and_true] at hall
    rw [instanceCount_eq, hall.length_eq hr.enumerates_keys, List.length_map]
    rfl
  expired now grace := (r.enumerates_expired now grace).congr fun _ => hr.lapsed_iff

/-- In any order a reachable registry has the same catalog, and all else that is read of it agrees
with that catalog. -/
theorem Reachable.views_agree (hr : r.Reachable) (h : r.Reordered r') :
    r'.catalog = r.catalog ∧ r.catalog.InByteOrder ∧
      (∀ app id, r'.lease? app id = r.lease? app id) ∧ r'.ReadsAs r.catalog := by
  have hcatalog := h.catalog_eq hr.sound
  have hcanonical := hr.sound.canonical_catalog
  refine ⟨hcatalog, ⟨hcanonical.byName.byBytes, hcanonical.inhabited, ?_⟩, h.lease?_eq, ?_⟩
  · intro a ha
    exact (hcanonical.byId a ha).byBytes
  · rw [← hcatalog]
    exact (h.sound hr.sound).readsAs_catalog

theorem views_agree_backwards :
    let register (app id : String) :=
      Turn.perform 2 (.register .peer (.named app id "host" 80) (some 30))
    let r := (start {} 1).run [register "web" "w", register "api" "b", register "Api" "a"]
    r.Reachable ∧ r.Reordered r.backwards ∧
      r.expired 40000 0 = [("WEB", "w"), ("API", "b"), ("API", "a")] ∧
      r.backwards.expired 40000 0 = [("API", "a"), ("API", "b"), ("WEB", "w")] ∧
      r.backwards.catalog = r.catalog ∧ r.catalog.InByteOrder ∧ r.backwards.ReadsAs r.catalog := by
  intro register r
  have hr : r.Reachable := (Reachable.start {} 1).run _
  obtain ⟨hcatalog, horder, -, hreads⟩ := hr.views_agree r.reordered_backwards
  refine ⟨hr, r.reordered_backwards, ?_, ?_, hcatalog, horder, hreads⟩
  · decide +kernel
  · decide +kernel

end Registry

end ServiceRegistry
