import ServiceRegistry.Proofs.Wire.Form
import ServiceRegistry.Wire.Event

/-! # What goes over the wire comes back

A value that is written and read again is the same, in whatever order the members of its objects
come, and with any members left out that hold their defaults, at every level (`wire_lossless`).
-/

namespace ServiceRegistry

set_option autoImplicit false

open Json (Member Regular Readable)

@[simp]
theorem Status.readable_toJson (depth : Nat) (s : Status) : Readable depth s.toJson :=
  .str depth s.name

@[simp]
theorem ChangeKind.readable_toJson (depth : Nat) (k : ChangeKind) : Readable depth k.toJson :=
  .str depth k.name

@[simp]
theorem Operation.readable_toJson (depth : Nat) (o : Operation) : Readable depth o.toJson :=
  .str depth o.name

theorem Status.decode_toJson (wasRead : Bool) (s : Status) :
    Status.decode wasRead s.toJson = .ok s := by
  refine Json.oneOf_str ?_ wasRead
  cases s <;> decide

theorem ChangeKind.decode_toJson (wasRead : Bool) (k : ChangeKind) :
    ChangeKind.decode wasRead k.toJson = .ok k := by
  refine Json.oneOf_str ?_ wasRead
  cases k <;> decide

theorem Operation.decode_toJson (wasRead : Bool) (o : Operation) :
    Operation.decode wasRead o.toJson = .ok o := by
  refine Json.oneOf_str ?_ wasRead
  cases o <;> decide

namespace Metadata

theorem perm_insertPair {key value : String} {pairs : List (String × String)}
    (h : key ∉ pairs.map Prod.fst) : (insertPair key value pairs).Perm ((key, value) :: pairs) := by
  induction pairs with
  | nil => exact .refl _
  | cons p rest ih =>
    obtain ⟨hne, hrest⟩ := not_or.mp (List.mem_cons.not.mp h)
    rw [insertPair]
    split
    · exact .refl _
    · exact ((ih hrest).cons p).trans (.swap ..)

theorem perm_ofList {pairs : List (String × String)} (h : (pairs.map Prod.fst).Nodup) :
    (ofList pairs).pairs.Perm pairs := by
  -- The fold over the pairs, from any metadata that has none of their keys yet.
  have hfold (m : Metadata) (hnodup : ((m.pairs ++ pairs).map Prod.fst).Nodup) :
      (pairs.foldl (fun m p => m.insert p.1 p.2) m).pairs.Perm (m.pairs ++ pairs) := by
    induction pairs generalizing m with
    | nil =>
      rw [List.append_nil]
      exact .refl _
    | cons p rest ih =>
      have hp : p.1 ∉ m.pairs.map Prod.fst := by
        rw [List.map_append, List.nodup_append] at hnodup
        intro hmem
        exact hnodup.2.2 _ hmem _ (List.mem_map_of_mem List.mem_cons_self) rfl
      have hinsert : ((m.insert p.1 p.2).pairs ++ rest).Perm (m.pairs ++ p :: rest) :=
        ((perm_insertPair hp).append_right rest).trans List.perm_middle.symm
      have hkeys := (hinsert.map Prod.fst).nodup_iff.mpr hnodup
      exact (ih (List.nodup_cons.mp h).2 (m.insert p.1 p.2) hkeys).trans hinsert
  exact hfold .empty h

theorem eq_of_pairs {m m' : Metadata} (h : m.pairs = m'.pairs) : m = m' := by
  obtain ⟨_, _⟩ := m
  obtain ⟨_, _⟩ := m'
  cases h
  rfl

def Form (m : Metadata) (v : Json) : Prop :=
  ∃ pairs : List (String × String), v = .obj (pairs.map fun (k, v) => (k, .str v)) ∧
    pairs.Perm m.pairs

theorem form_toJson (m : Metadata) : m.Form m.toJson := ⟨m.pairs, rfl, .refl _⟩

theorem readable_form {m : Metadata} {v : Json} (h : m.Form v) : Readable 1 v := by
  obtain ⟨pairs, rfl, -⟩ := h
  refine .obj fun e he => ?_
  obtain ⟨p, -, rfl⟩ := List.mem_map.mp he
  exact .str 0 p.2

theorem sound (m : Metadata) (name : String) (isDefault : Prop) :
    Member.Sound 1 ⟨name, m.toJson, m.Form, isDefault⟩ := ⟨m.form_toJson, fun _ => readable_form⟩

theorem mapM_string (pairs : List (String × String)) :
    (pairs.map fun (k, v) => (k, Json.str v)).mapM
      (fun entry => (Json.string entry.2).map (entry.1, ·)) = .ok pairs := by
  induction pairs with
  | nil => rfl
  | cons p rest ih =>
    rw [List.map_cons, List.mapM_cons, ih]
    rfl

theorem decode_form {m : Metadata} {v : Json} (h : m.Form v) : decode v = .ok m := by
  obtain ⟨pairs, rfl, hperm⟩ := h
  have hkeys : (m.pairs.map Prod.fst).Nodup :=
    List.Pairwise.map Prod.fst (fun _ _ => String.ne_of_lt) m.ordered
  have hall := (perm_ofList ((hperm.map Prod.fst).nodup_iff.mpr hkeys)).trans hperm
  have hpairs : (ofList pairs).pairs = m.pairs :=
    hall.eq_of_pairwise (fun _ _ _ _ hlt hgt => absurd hgt (String.lt_asymm hlt))
      (ofList pairs).ordered m.ordered
  rw [decode, mapM_string, ← eq_of_pairs hpairs]
  rfl

end Metadata

namespace LeaseTerms

def members (t : LeaseTerms) : List Member :=
  [.spare "duration_secs" (.ofUInt64 t.duration) (t.duration = 90),
   .spare "renewal_interval_secs" (.ofUInt64 t.renewalInterval) (t.renewalInterval = 30)]

def Form (t : LeaseTerms) : Json → Prop := Json.Form t.members

theorem regular (t : LeaseTerms) : Regular 0 t.members where
  nodup := show fieldNames.Nodup by decide
  sound := by simp [members]

theorem form_toJson (t : LeaseTerms) : t.Form t.toJson := Json.form_full t.regular

theorem sound (t : LeaseTerms) (name : String) (isDefault : Prop) :
    Member.Sound 1 ⟨name, t.toJson, t.Form, isDefault⟩ :=
  ⟨t.form_toJson, fun _ h => h.readable t.regular⟩

theorem decode_form {t : LeaseTerms} {v : Json} (h : t.Form v) : decode v = .ok t := by
  refine Json.structureOf_form h t.regular fun entries hpresent => ?_
  simp only [members, List.forall_mem_cons] at hpresent
  obtain ⟨hduration, hinterval, -⟩ := hpresent
  rw [hduration.spare (Json.uint64_ofUInt64 _) id, hinterval.spare (Json.uint64_ofUInt64 _) id]
  rfl

end LeaseTerms

namespace Instance

def members (r : Instance) : List Member :=
  [.plain "app_name" (.str r.app),
   .plain "instance_id" (.str r.id),
   .plain "host_name" (.str r.host),
   .plain "ip_addr" (.str r.ip),
   .plain "port" (.ofUInt16 r.port),
   .spare "secure_port" (.ofOption .ofUInt16 r.securePort) (r.securePort = none),
   .spare "vip_address" (.ofOption .str r.vip) (r.vip = none),
   .spare "status" r.status.toJson (r.status = .up),
   .spare "overridden_status" (.ofOption Status.toJson r.overridden) (r.overridden = none),
   ⟨"metadata", r.metadata.toJson, r.metadata.Form, r.metadata = .empty⟩,
   ⟨"lease_info", r.terms.toJson, r.terms.Form, r.terms = {}⟩,
   .spare "last_dirty_timestamp" (.ofInt64 r.dirtyAt) (r.dirtyAt = 0),
   .spare "last_updated_timestamp" (.ofInt64 r.updatedAt) (r.updatedAt = 0),
   .spare "action_type" (.ofOption ChangeKind.toJson r.lastChange) (r.lastChange = none)]

def Form (r : Instance) : Json → Prop := Json.Form r.members

theorem regular (r : Instance) : Regular 1 r.members where
  nodup := show fieldNames.Nodup by decide
  sound := by
    have hmetadata := r.metadata.sound "metadata" (r.metadata = .empty)
    have hterms := r.terms.sound "lease_info" (r.terms = {})
    simp [members, hmetadata, hterms]

theorem form_toJson (r : Instance) : r.Form r.toJson := Json.form_full r.regular

theorem readable_form {r : Instance} {v : Json} (h : r.Form v) : Readable 2 v :=
  h.readable r.regular

theorem sound (r : Instance) (name : String) :
    Member.Sound 2 ⟨name, r.toJson, r.Form, False⟩ := ⟨r.form_toJson, fun _ => readable_form⟩

theorem sound_ofOption (name : String) (o : Option Instance) :
    (Member.ofOption name toJson Form o).Sound 2 :=
  Member.sound_ofOption form_toJson (fun _ _ => readable_form) name o

theorem decode_form {r : Instance} {v : Json} (h : r.Form v) (wasRead : Bool) :
    decode wasRead v = .ok r := by
  refine Json.structureOf_form h r.regular fun entries hpresent => ?_
  simp only [members, List.forall_mem_cons] at hpresent
  obtain ⟨happ, hid, hhost, hip, hport, hsecure, hvip, hstatus, hoverridden, hmetadata, hterms,
    hdirty, hupdated, hchange, -⟩ := hpresent
  have hmetadata :
      Json.field entries "metadata" Metadata.decode (some .empty) = .value r.metadata :=
    hmetadata.field (fun _ => Metadata.decode_form) fun h => congrArg some h.symm
  have hterms : Json.field entries "lease_info" LeaseTerms.decode (some {}) = .value r.terms :=
    hterms.field (fun _ => LeaseTerms.decode_form) fun h => congrArg some h.symm
  have hsecure := hsecure.spareOption Json.uint16_ofUInt16 fun _ => nofun
  have hvip := hvip.spareOption Json.string_str fun _ => nofun
  have hoverridden := hoverridden.spareOption (Status.decode_toJson wasRead) fun _ => nofun
  have hchange := hchange.spareOption (ChangeKind.decode_toJson wasRead) fun _ => nofun
  have hstatus := hstatus.spare (Status.decode_toJson wasRead _) fun h => h
  have hdirty := hdirty.spare (Json.int64_ofInt64 _) fun h => h
  have hupdated := hupdated.spare (Json.int64_ofInt64 _) fun h => h
  rw [happ.plain (Json.string_str _), hid.plain (Json.string_str _),
    hhost.plain (Json.string_str _), hip.plain (Json.string_str _),
    hport.plain (Json.uint16_ofUInt16 _), hsecure, hvip, hstatus, hoverridden, hmetadata, hterms,
    hdirty, hupdated, hchange]
  rfl

theorem Form.ne_null {r : Instance} {v : Json} (h : r.Form v) : v ≠ .null := by
  obtain ⟨entries, laid, rfl, -⟩ := h
  exact nofun

theorem field_ofOption {name : String} {o : Option Instance} {entries : List (String × Json)}
    (h : Json.Present (.ofOption name toJson Form o) entries) (wasRead : Bool) :
    Json.field entries name (Json.optional (decode wasRead)) (some none) = .value o :=
  h.option fun _ _ hr => ⟨hr.ne_null, decode_form hr wasRead⟩

end Instance

namespace Replication

namespace Item

def members (i : Item) : List Member :=
  [.plain "action" i.operation.toJson,
   .plain "app_name" (.str i.app),
   .plain "instance_id" (.str i.id),
   .ofOption "record" Instance.toJson Instance.Form i.record,
   .spare "status" (.ofOption Status.toJson i.status) (i.status = none),
   .spare "lease_duration_secs" (.ofOption .ofUInt64 i.lease) (i.lease = none),
   .spare "last_dirty_timestamp" (.ofInt64 i.dirtyAt) (i.dirtyAt = 0),
   .plain "timestamp" (.ofInt64 i.time)]

def Form (i : Item) : Json → Prop := Json.Form i.members

theorem regular (i : Item) : Regular 2 i.members where
  nodup := show fieldNames.Nodup by decide
  sound := by
    simp [members, Instance.sound_ofOption]

theorem form_toJson (i : Item) : i.Form i.toJson := Json.form_full i.regular

theorem decode_form {i : Item} {v : Json} (h : i.Form v) : decode v = .ok i := by
  refine Json.structureOf_form h i.regular fun entries hpresent => ?_
  simp only [members, List.forall_mem_cons] at hpresent
  obtain ⟨hoperation, happ, hid, hrecord, hstatus, hlease, hdirty, htime, -⟩ := hpresent
  have hrecord := Instance.field_ofOption hrecord false
  have hstatus := hstatus.spareOption (Status.decode_toJson false) fun _ => nofun
  have hlease := hlease.spareOption Json.uint64_ofUInt64 fun _ => nofun
  have hdirty := hdirty.spare (Json.int64_ofInt64 _) fun h => h
  rw [hoperation.plain (Operation.decode_toJson false _), happ.plain (Json.string_str _),
    hid.plain (Json.string_str _), hrecord, hstatus, hlease, hdirty,
    htime.plain (Json.int64_ofInt64 _)]
  rfl

end Item

namespace Batch

def members (items : List Item) : List Member :=
  [.ofList "items" Item.toJson Item.Form items]

def Form (items : List Item) : Json → Prop := Json.Form (members items)

theorem regular (items : List Item) : Regular 4 (members items) where
  nodup := by simp [members]
  sound := List.forall_mem_singleton.mpr
    (Member.sound_ofList Item.form_toJson (fun i _ h => h.readable i.regular) "items" items)

theorem form_toJson (items : List Item) : Form items (toJson items) :=
  Json.form_full (regular items)

theorem decode_form {items : List Item} {v : Json} (h : Form items v) : decode v = .ok items := by
  refine Json.structureOf_form h (regular items) fun entries hpresent => ?_
  exact (List.forall_mem_singleton.mp hpresent).list fun _ _ _ => Item.decode_form

end Batch

namespace Outcome

def variant : Outcome → String
  | success => "success"
  | notFound => "not_found"
  | conflict _ => "conflict"
  | rejected _ => "rejected"

def details : Outcome → List Member
  | success | notFound => []
  | conflict record =>
    [.ofOption "record" Instance.toJson Instance.Form record]
  | rejected reason => [.plain "reason" (.str reason)]

def members (o : Outcome) : List Member := .plain "outcome" (.str o.variant) :: o.details

def Form (o : Outcome) : Json → Prop := Json.Form o.members

theorem regular (o : Outcome) : Regular 2 o.members where
  nodup := by cases o <;> simp [members, details]
  sound := by cases o <;> simp [members, details, Instance.sound_ofOption]

theorem form_toJson (o : Outcome) : o.Form o.toJson := by
  have hwritten : o.toJson = .obj (o.members.map Member.entry) := by cases o <;> rfl
  rw [hwritten]
  exact Json.form_full o.regular

theorem nothing_form {v : Json} (h : Json.Form [] v) : Json.nothing v = .ok () := by
  obtain ⟨_, _, rfl, -⟩ := h
  rfl

theorem decode_form {o : Outcome} {v : Json} (h : o.Form v) {levels : Nat} (hlevels : 2 ≤ levels) :
    decodeWithin levels v = .ok o := by
  have hvariant : ["success", "not_found", "conflict", "rejected"].contains o.variant := by
    cases o <;> simp [variant]
  obtain ⟨rest, htagged, hrest⟩ := Json.tagged_form h o.regular hvariant hlevels
  have hdetails := o.regular.tail
  unfold decodeWithin
  rw [htagged]
  cases o with
  | success => exact congrArg (Except.map _) (nothing_form hrest)
  | notFound => exact congrArg (Except.map _) (nothing_form hrest)
  | conflict record =>
    refine Json.structureOf_form hrest hdetails fun entries hpresent => ?_
    have hrecord := List.forall_mem_singleton.mp hpresent
    rw [Instance.field_ofOption hrecord true]
    rfl
  | rejected reason =>
    refine Json.structureOf_form hrest hdetails fun entries hpresent => ?_
    rw [(List.forall_mem_singleton.mp hpresent).plain (Json.string_str reason)]
    rfl

end Outcome

namespace Reply

def members (results : List Outcome) : List Member :=
  [.ofList "results" Outcome.toJson Outcome.Form results]

def Form (results : List Outcome) : Json → Prop := Json.Form (members results)

theorem regular (results : List Outcome) : Regular 4 (members results) where
  nodup := by simp [members]
  sound := List.forall_mem_singleton.mpr
    (Member.sound_ofList Outcome.form_toJson (fun o _ h => h.readable o.regular) "results" results)

theorem form_toJson (results : List Outcome) : Form results (toJson results) :=
  Json.form_full (regular results)

theorem decode_form {results : List Outcome} {v : Json} (h : Form results v) :
    decode v = .ok results := by
  refine Json.structureOf_form h (regular results) fun entries hpresent => ?_
  exact (List.forall_mem_singleton.mp hpresent).list
    fun _ _ _ h => Outcome.decode_form h (by decide)

end Reply

end Replication

namespace Change

def Fits (c : Change) : Prop := c.version < UInt64.size

def members (c : Change) : List Member :=
  [.plain "version" (.ofNat c.version),
   .plain "action" c.kind.toJson,
   .plain "timestamp" (.ofInt64 c.time),
   ⟨"record", c.record.toJson, c.record.Form, False⟩]

def Form (c : Change) : Json → Prop := Json.Form c.members

theorem regular (c : Change) : Regular 2 c.members where
  nodup := show List.Nodup ["version", "action", "timestamp", "record"] by decide
  sound := by
    have hrecord := c.record.sound "record"
    simp [members, hrecord]

theorem form_toJson (c : Change) : c.Form c.toJson := Json.form_full c.regular

theorem decode_form {c : Change} {v : Json} (h : c.Form v) (hfits : c.Fits) (wasRead : Bool) :
    decode wasRead v = .ok c := by
  refine Json.structureOf_form h c.regular fun entries hpresent => ?_
  simp only [members, List.forall_mem_cons] at hpresent
  obtain ⟨hversion, hkind, htime, hrecord, -⟩ := hpresent
  have hrecord : Json.field entries "record" (Instance.decode wasRead) = .value c.record :=
    hrecord.field (fun _ hv => Instance.decode_form hv wasRead) nofun
  rw [hversion.plain (Json.count_ofNat hfits), hkind.plain (ChangeKind.decode_toJson wasRead _),
    htime.plain (Json.int64_ofInt64 _), hrecord]
  rfl

end Change

namespace Delta

def Fits : Delta → Prop
  | changes since upTo _ log => since < UInt64.size ∧ upTo < UInt64.size ∧ ∀ c ∈ log, c.Fits
  | startOver version => version < UInt64.size

def variant : Delta → String
  | changes .. => "changes"
  | startOver _ => "full_snapshot_required"

def details : Delta → List Member
  | changes since upTo hashCode log =>
    [.plain "from_version" (.ofNat since),
     .plain "to_version" (.ofNat upTo),
     .plain "apps_hash_code" (.str hashCode),
     .ofList "changes" Change.toJson Change.Form log]
  | startOver version => [.plain "current_version" (.ofNat version)]

def members (d : Delta) : List Member := .plain "kind" (.str d.variant) :: d.details

def Form (d : Delta) : Json → Prop := Json.Form d.members

theorem regular (d : Delta) : Regular 4 d.members where
  nodup := by cases d <;> simp [members, details]
  sound := by
    have hchanges := Member.sound_ofList Change.form_toJson fun c _ h => h.readable c.regular
    cases d <;> simp [members, details, hchanges]

theorem form_toJson (d : Delta) : d.Form d.toJson := by
  have hwritten : d.toJson = .obj (d.members.map Member.entry) := by cases d <;> rfl
  rw [hwritten]
  exact Json.form_full d.regular

theorem decode_form {d : Delta} {v : Json} (h : d.Form v) (hfits : d.Fits) : decode v = .ok d := by
  have hvariant : ["changes", "full_snapshot_required"].contains d.variant := by
    cases d <;> simp [variant]
  obtain ⟨rest, htagged, hrest⟩ := Json.tagged_form h d.regular hvariant (by decide : 4 ≤ 126)
  have hdetails := d.regular.tail
  unfold decode
  rw [htagged]
  cases d with
  | changes since upTo hashCode log =>
    obtain ⟨hsince, hupTo, hlog⟩ := hfits
    refine Json.structureOf_form hrest hdetails fun entries hpresent => ?_
    simp only [details, List.forall_mem_cons] at hpresent
    obtain ⟨hfrom, hto, hhash, hchanges, -⟩ := hpresent
    have hchanges := hchanges.list fun c hc _ h => Change.decode_form h (hlog c hc) true
    rw [hfrom.plain (Json.count_ofNat hsince), hto.plain (Json.count_ofNat hupTo),
      hhash.plain (Json.string_str _), hchanges]
    rfl
  | startOver version =>
    refine Json.structureOf_form hrest hdetails fun entries hpresent => ?_
    rw [(List.forall_mem_singleton.mp hpresent).plain (Json.count_ofNat hfits)]
    rfl

end Delta

namespace Event

def Fits : Event → Prop
  | changed version .. => version < UInt64.size
  | evictionCycle expired removed _ => expired < UInt64.size ∧ removed < UInt64.size
  | replicationSent _ items | replicationDropped _ items => items < UInt64.size
  | cacheRebuilt version => version < UInt64.size
  | renewed .. | evicted .. | selfPreservationChanged _ | replicationFailed .. => True

def variant : Event → String
  | changed .. => "changed"
  | renewed .. => "renewed"
  | evicted .. => "evicted"
  | evictionCycle .. => "eviction_cycle"
  | selfPreservationChanged _ => "self_preservation_changed"
  | replicationSent .. => "replication_sent"
  | replicationFailed .. => "replication_failed"
  | replicationDropped .. => "replication_dropped"
  | cacheRebuilt _ => "cache_rebuilt"

def details : Event → List Member
  | changed version kind operation app id replicated =>
    [.plain "version" (.ofNat version),
     .plain "action" kind.toJson,
     .plain "operation" operation.toJson,
     .plain "app_name" (.str app),
     .plain "instance_id" (.str id),
     .plain "replicated" (.bool replicated)]
  | renewed app id replicated =>
    [.plain "app_name" (.str app),
     .plain "instance_id" (.str id),
     .plain "replicated" (.bool replicated)]
  | evicted app id => [.plain "app_name" (.str app), .plain "instance_id" (.str id)]
  | evictionCycle expired removed suspended =>
    [.plain "expired" (.ofNat expired),
     .plain "evicted" (.ofNat removed),
     .plain "suspended" (.bool suspended)]
  | selfPreservationChanged active => [.plain "active" (.bool active)]
  | replicationSent peer items | replicationDropped peer items =>
    [.plain "peer" (.str peer), .plain "items" (.ofNat items)]
  | replicationFailed peer operation reason =>
    [.plain "peer" (.str peer), .plain "action" operation.toJson, .plain "reason" (.str reason)]
  | cacheRebuilt version => [.plain "version" (.ofNat version)]

def members (e : Event) : List Member := .plain "event" (.str e.variant) :: e.details

def Form (e : Event) : Json → Prop := Json.Form e.members

theorem regular (e : Event) : Regular 0 e.members where
  nodup := by cases e <;> simp [members, details]
  sound := by cases e <;> simp [members, details]

theorem form_toJson (e : Event) : e.Form e.toJson := by
  have hwritten : e.toJson = .obj (e.members.map Member.entry) := by cases e <;> rfl
  rw [hwritten]
  exact Json.form_full e.regular

theorem decode_form {e : Event} {v : Json} (h : e.Form v) (hfits : e.Fits) : decode v = .ok e := by
  have hvariant : variants.contains e.variant := by cases e <;> simp [variant, variants]
  obtain ⟨rest, htagged, hrest⟩ := Json.tagged_form h e.regular hvariant (Nat.zero_le 126)
  have hdetails := e.regular.tail
  unfold decode
  rw [htagged]
  cases e with
  | changed version kind operation app id replicated =>
    refine Json.structureOf_form hrest hdetails fun entries hpresent => ?_
    simp only [details, List.forall_mem_cons] at hpresent
    obtain ⟨hversion, hkind, hoperation, happ, hid, hreplicated, -⟩ := hpresent
    rw [hversion.plain (Json.count_ofNat hfits), hkind.plain (ChangeKind.decode_toJson true _),
      hoperation.plain (Operation.decode_toJson true _), happ.plain (Json.string_str _),
      hid.plain (Json.string_str _), hreplicated.plain (Json.boolean_bool _)]
    rfl
  | renewed app id replicated =>
    refine Json.structureOf_form hrest hdetails fun entries hpresent => ?_
    simp only [details, List.forall_mem_cons] at hpresent
    obtain ⟨happ, hid, hreplicated, -⟩ := hpresent
    rw [happ.plain (Json.string_str _), hid.plain (Json.string_str _),
      hreplicated.plain (Json.boolean_bool _)]
    rfl
  | evicted app id =>
    refine Json.structureOf_form hrest hdetails fun entries hpresent => ?_
    simp only [details, List.forall_mem_cons] at hpresent
    obtain ⟨happ, hid, -⟩ := hpresent
    rw [happ.plain (Json.string_str _), hid.plain (Json.string_str _)]
    rfl
  | evictionCycle expired removed suspended =>
    refine Json.structureOf_form hrest hdetails fun entries hpresent => ?_
    simp only [details, List.forall_mem_cons] at hpresent
    obtain ⟨hexpired, hremoved, hsuspended, -⟩ := hpresent
    rw [hexpired.plain (Json.count_ofNat hfits.1), hremoved.plain (Json.count_ofNat hfits.2),
      hsuspended.plain (Json.boolean_bool _)]
    rfl
  | selfPreservationChanged active =>
    refine Json.structureOf_form hrest hdetails fun entries hpresent => ?_
    rw [(List.forall_mem_singleton.mp hpresent).plain (Json.boolean_bool active)]
    rfl
  | replicationSent peer items | replicationDropped peer items =>
    refine Json.structureOf_form hrest hdetails fun entries hpresent => ?_
    simp only [details, List.forall_mem_cons] at hpresent
    obtain ⟨hpeer, hitems, -⟩ := hpresent
    rw [hpeer.plain (Json.string_str _), hitems.plain (Json.count_ofNat hfits)]
    rfl
  | replicationFailed peer operation reason =>
    refine Json.structureOf_form hrest hdetails fun entries hpresent => ?_
    simp only [details, List.forall_mem_cons] at hpresent
    obtain ⟨hpeer, hoperation, hreason, -⟩ := hpresent
    rw [hpeer.plain (Json.string_str _), hoperation.plain (Operation.decode_toJson true _),
      hreason.plain (Json.string_str _)]
    rfl
  | cacheRebuilt version =>
    refine Json.structureOf_form hrest hdetails fun entries hpresent => ?_
    rw [(List.forall_mem_singleton.mp hpresent).plain (Json.count_ofNat hfits)]
    rfl

end Event

/-- What is written of a value is one of its forms, and from every form the value comes back. -/
structure Lossless {α : Type} (toJson : α → Json) (Form : α → Json → Prop)
    (decode : Json.Decoder α) (a : α) : Prop where
  returns : decode (toJson a) = .ok a
  written : Form a (toJson a)
  read : ∀ v, Form a v → decode v = .ok a

theorem Lossless.of {α : Type} {toJson : α → Json} {Form : α → Json → Prop}
    {decode : Json.Decoder α} {a : α} (hwritten : Form a (toJson a))
    (hread : ∀ v, Form a v → decode v = .ok a) : Lossless toJson Form decode a :=
  ⟨hread _ hwritten, hwritten, hread⟩

open Replication in
/-- Values come back from what is written of them, also if members are left out that hold their
defaults. Counts are numbers of 64 bits. -/
theorem wire_lossless :
    (∀ r, Lossless Instance.toJson Instance.Form Instance.decode r) ∧
      (∀ i, Lossless Item.toJson Item.Form Item.decode i) ∧
      (∀ items, Lossless Batch.toJson Batch.Form Batch.decode items) ∧
      (∀ o, Lossless Outcome.toJson Outcome.Form Outcome.decode o) ∧
      (∀ results, Lossless Reply.toJson Reply.Form Reply.decode results) ∧
      (∀ c : Change, c.Fits → Lossless Change.toJson Change.Form Change.decode c) ∧
      (∀ d : Delta, d.Fits → Lossless Delta.toJson Delta.Form Delta.decode d) ∧
      ∀ e : Event, e.Fits → Lossless Event.toJson Event.Form Event.decode e := by
  refine ⟨fun r => ?_, fun i => ?_, fun items => ?_, fun o => ?_, fun results => ?_, fun c hc => ?_,
    fun d hd => ?_, fun e he => ?_⟩
  · exact .of r.form_toJson fun _ h => Instance.decode_form h false
  · exact .of i.form_toJson fun _ => Item.decode_form
  · exact .of (Batch.form_toJson items) fun _ => Batch.decode_form
  · exact .of o.form_toJson fun _ h => Outcome.decode_form h (by decide)
  · exact .of (Reply.form_toJson results) fun _ => Reply.decode_form
  · exact .of c.form_toJson fun _ h => Change.decode_form h hc false
  · exact .of d.form_toJson fun _ h => Delta.decode_form h hd
  · exact .of e.form_toJson fun _ h => Event.decode_form h he

/-- An instance that asks for one term of its lease and tells no more than it has to. -/
def terse : Change :=
  { version := 7, kind := .added, time := 3
    record := { Instance.named "WEB" "web-0" "host" 80 with terms := { renewalInterval := 5 } } }

def terseForm : Json :=
  .obj [("action", .str "ADDED"), ("version", .int 7), ("timestamp", .int 3),
    ("record", .obj [("instance_id", .str "web-0"), ("app_name", .str "WEB"),
      ("host_name", .str "host"), ("ip_addr", .str "host"), ("port", .int 80),
      ("lease_info", .obj [("renewal_interval_secs", .int 5)])])]

theorem form_terse : terse.Form terseForm := by
  have hterms : terse.record.terms.Form (.obj [("renewal_interval_secs", .int 5)]) :=
    ⟨_, _, rfl, .refl _, .leave rfl (.put rfl .nil)⟩
  have hrecord : terse.record.Form (.obj [("instance_id", .str "web-0"), ("app_name", .str "WEB"),
      ("host_name", .str "host"), ("ip_addr", .str "host"), ("port", .int 80),
      ("lease_info", .obj [("renewal_interval_secs", .int 5)])]) := by
    refine ⟨_, _, rfl, .swap .., .put rfl (.put rfl (.put rfl (.put rfl (.put rfl ?_))))⟩
    refine .leave rfl (.leave rfl (.leave rfl (.leave rfl (.leave rfl (.put hterms ?_)))))
    exact .leave rfl (.leave rfl (.leave rfl .nil))
  exact ⟨_, _, rfl, .swap .., .put rfl (.put rfl (.put rfl (.put hrecord .nil)))⟩

theorem wire_lossless_terse :
    terse.Fits ∧ Change.decode false terseForm = .ok terse ∧
      (Delta.startOver 7).Fits ∧ Delta.decode (Delta.startOver 7).toJson = .ok (.startOver 7) ∧
      (Event.cacheRebuilt 7).Fits ∧
      Event.decode (Event.cacheRebuilt 7).toJson = .ok (.cacheRebuilt 7) := by
  have hversion : 7 < UInt64.size := by decide
  have hchange : terse.Fits := hversion
  have hdelta : (Delta.startOver 7).Fits := hversion
  have hevent : (Event.cacheRebuilt 7).Fits := hversion
  obtain ⟨-, -, -, -, -, hchanges, hdeltas, hevents⟩ := wire_lossless
  exact ⟨hchange, (hchanges terse hchange).read terseForm form_terse, hdelta,
    (hdeltas _ hdelta).returns, hevent, (hevents _ hevent).returns⟩

end ServiceRegistry
