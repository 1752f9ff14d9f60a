import ServiceRegistry.Api.Handlers
import ServiceRegistry.Proofs.Cache.Desk
import ServiceRegistry.Proofs.Node.Acts
import ServiceRegistry.Proofs.Replication.Peer
import ServiceRegistry.Proofs.Wire.Form
import ServiceRegistry.Server.Launch

/-! # The lease of a registration that names none

The settings of a server name a default lease, and so does the reader of records. A record that
leaves its lease out is completed when it is read, before the registry could tell that anything was
missing: `serve_unnamed_lease` says that the default of the settings has no say in it.
-/

namespace ServiceRegistry

set_option autoImplicit false

theorem bind_eq_ok {ε α β : Type} {x : Except ε α} {f : α → Except ε β} {b : β}
    (h : (x >>= f) = .ok b) : ∃ a, x = .ok a ∧ f a = .ok b := by
  cases x with
  | error e => cases h
  | ok a => exact ⟨a, rfl, h⟩

namespace Json

variable {α β : Type}

namespace Reading

variable {b : β}

theorem seq_eq_value {f : Reading (α → β)} {x : Reading α} :
    (f <*> x) = .value b ↔ ∃ g a, f = .value g ∧ x = .value a ∧ g a = b := by
  show seq f x = .value b ↔ _
  cases f with
  | value g =>
    cases x with
    | value a => simp [seq]
    | fault place e => simp [seq]
  | fault place e =>
    cases x with
    | value a => simp [seq]
    | fault place' e' =>
      simp only [seq]
      split <;> simp

theorem map_eq_value {f : α → β} {x : Reading α} :
    (f <$> x) = .value b ↔ ∃ a, x = .value a ∧ f a = b := by
  have hseq := seq_eq_value (f := .value f) (x := x) (b := b)
  simp only [value.injEq, exists_and_left, exists_eq_left'] at hseq
  exact hseq

theorem seqLeft_eq_value {x : Reading β} {y : Reading α} (h : (x <* y) = .value b) :
    x = .value b := by
  obtain ⟨_, _, hconst, -, rfl⟩ := seq_eq_value.mp h
  obtain ⟨_, hx, rfl⟩ := map_eq_value.mp hconst
  exact hx

end Reading

variable {a : α} {v : Json} {names : List String} {entries : List (String × Json)} {name : String}
  {decode : Decoder α}

theorem structureOf_eq_ok {read : List (String × Json) → Reading α}
    (h : structureOf names read v = .ok a) :
    ∃ entries, entriesOf names v = .ok entries ∧ read entries = .value a := by
  unfold structureOf at h
  obtain ⟨entries, hentries, h⟩ := bind_eq_ok h
  refine ⟨entries, hentries, ?_⟩
  cases hread : read entries <* firstBroken 0 entries with
  | fault place e =>
    rw [hread] at h
    cases h
  | value a' =>
    rw [hread] at h
    cases h
    exact Reading.seqLeft_eq_value hread

theorem field_eq_value {absent : Option α} (h : field entries name decode absent = .value a) :
    (∀ v, (name, v) ∉ entries) ∧ absent = some a ∨ ∃ v, (name, v) ∈ entries ∧ decode v = .ok a := by
  have hvalues := map_occurrences name 0 entries
  unfold field at h
  cases hfound : occurrences name 0 entries with
  | nil =>
    left
    rw [hfound, List.map_nil, eq_comm, List.map_eq_nil_iff, List.filter_eq_nil_iff] at hvalues
    refine ⟨fun v hv => by simpa using hvalues _ hv, ?_⟩
    cases absent <;> simp_all
  | cons e more =>
    obtain ⟨place, v⟩ := e
    right
    have hmem : v ∈ (entries.filter (·.1 = name)).map Prod.snd := by
      rw [← hvalues, hfound]
      exact List.mem_cons_self
    obtain ⟨⟨name', w⟩, hentry, hw⟩ := List.mem_map.mp hmem
    obtain ⟨hentry, hname⟩ := List.mem_filter.mp hentry
    have hname : name' = name := of_decide_eq_true hname
    have hw : w = v := hw
    refine ⟨v, hname ▸ hw ▸ hentry, ?_⟩
    simp only [hfound] at h
    cases hdecode : decode v with
    | error e => simp [hdecode] at h
    | ok a' => cases more <;> simp_all

end Json

def Json.Lacks (names : List String) (name : String) (v : Json) : Prop :=
  ∀ entries, Json.entriesOf names v = .ok entries → ∀ inner, (name, inner) ∉ entries

theorem LeaseTerms.duration_decode {v : Json} {t : LeaseTerms} (h : LeaseTerms.decode v = .ok t)
    (hlacks : v.Lacks fieldNames "duration_secs") : t.duration = 90 := by
  obtain ⟨entries, hentries, hread⟩ := Json.structureOf_eq_ok h
  obtain ⟨_, _, hfirst, -, rfl⟩ := Json.Reading.seq_eq_value.mp hread
  obtain ⟨duration, hfield, rfl⟩ := Json.Reading.map_eq_value.mp hfirst
  rcases Json.field_eq_value hfield with ⟨-, hdefault⟩ | ⟨inner, hmem, -⟩
  · exact (Option.some.inj hdefault).symm
  · exact absurd hmem (hlacks entries hentries inner)

namespace Instance

def LeavesDuration (v : Json) : Prop :=
  ∀ entries, Json.entriesOf fieldNames v = .ok entries →
    ∀ terms, ("lease_info", terms) ∈ entries → terms.Lacks LeaseTerms.fieldNames "duration_secs"

variable {v : Json} {wasRead : Bool} {record : Instance}

theorem terms_decode (h : decode wasRead v = .ok record) :
    ∃ entries, Json.entriesOf fieldNames v = .ok entries ∧
      Json.field entries "lease_info" LeaseTerms.decode (some {}) = .value record.terms := by
  obtain ⟨entries, hentries, hread⟩ := Json.structureOf_eq_ok h
  refine ⟨entries, hentries, ?_⟩
  clear h
  simp only [Json.Reading.seq_eq_value, Json.Reading.map_eq_value] at hread
  -- The terms are the eleventh field, with three behind them and ten in front.
  obtain ⟨_, _, ⟨_, _, ⟨_, _, ⟨_, terms, h, hterms, rfl⟩, -, rfl⟩, -, rfl⟩, -, rfl⟩ := hread
  obtain ⟨_, _, ⟨_, _, ⟨_, _, ⟨_, _, ⟨_, _, h, -, rfl⟩, -, rfl⟩, -, rfl⟩, -, rfl⟩, -, rfl⟩ := h
  obtain ⟨_, _, ⟨_, _, ⟨_, _, ⟨_, _, ⟨_, -, rfl⟩, -, rfl⟩, -, rfl⟩, -, rfl⟩, -, rfl⟩ := h
  exact hterms

/-- A record that leaves out how long its lease is asks for one of 90 seconds. -/
theorem duration_decode (h : decode wasRead v = .ok record) (hleaves : LeavesDuration v) :
    record.terms.duration = 90 := by
  obtain ⟨entries, hentries, hfield⟩ := terms_decode h
  rcases Json.field_eq_value hfield with ⟨-, hdefault⟩ | ⟨terms, hmem, hterms⟩
  · rw [← Option.some.inj hdefault]
  · exact LeaseTerms.duration_decode hterms (hleaves entries hentries terms hmem)

end Instance

namespace Registry

variable {r : Registry} {now : Millis} {origin : Origin} {record : Instance}
  {asked : Option UInt64} {s : Response Unit}

theorem grantedDuration_unasked (h : ∀ d, asked = some d → d = 0) (x : Instance) :
    grantedDuration asked x = x.terms.duration := by
  cases asked with
  | none => rfl
  | some d => exact if_pos (h d rfl)

theorem Sound.lease?_register (hr : r.Sound) (h : r.register now origin record asked = .ok s) :
    ∃ l, s.registry.lease? record.app record.id = some l ∧
      l.duration = grantedDuration asked record := by
  have hperform : (r.perform now (.register origin record asked)).registry = s.registry := by
    simp only [Registry.perform, h]
    rfl
  rw [register_eq] at h
  cases haccept : Slot.accept now record asked with
  | error e =>
    rw [haccept] at h
    cases h
  | ok x =>
    obtain ⟨incoming, granted⟩ := x
    obtain ⟨-, rfl, -⟩ := Slot.accept_eq_ok_iff.mp haccept
    have hkept := Slot.kept_enroll (r.slot (keyOf record.app record.id)) now origin incoming
      (grantedDuration asked record)
    obtain ⟨l, hl, hduration⟩ := Option.map_eq_some_iff.mp hkept
    refine ⟨l, ?_, congrArg Prod.snd hduration⟩
    have hkey : (Command.register origin record asked).key = keyOf record.app record.id := rfl
    rw [← hperform, (hr.perform now _).lease?_eq_slot_lease, hr.slot_perform, if_pos hkey,
      Slot.move, haccept]
    exact hl

end Registry

namespace Api

open Http

variable {n : Node} {r : Request} {app : String}

/-- The request asks to register an instance of an application. -/
def Registers (r : Request) (app : String) : Prop :=
  r.method = "POST" ∧ ∃ route, Route.ofSegments (segments r.target) = some route ∧
    (route = .delta ∧ app = "delta" ∨
      ∃ segment, route = .application segment ∧ decodeSegment segment = .ok app)

/-- Neither the query of the request nor its body says how long a lease should be. -/
def LeavesDuration (r : Request) : Prop :=
  (∀ asked, (Query.ofTarget r.target).uint64? "lease_duration" = .ok (some asked) → asked = 0) ∧
    Instance.LeavesDuration (Json.ofText r.body).value

theorem decode_of_json {α : Type} {decode : Json.Decoder α} {a : α} (h : r.json decode = .ok a) :
    decode (Json.ofText r.body).value = .ok a := by
  have hdocument : Json.decodeDocument decode (Json.ofText r.body) = .ok a := by
    unfold Request.json at h
    split at h
    · split at h
      · rename_i hok
        cases h
        exact hok
      all_goals cases h
    · cases h
  unfold Json.decodeDocument at hdocument
  obtain ⟨a', hdecode, hended⟩ := bind_eq_ok hdocument
  split at hended
  · cases hended
    exact hdecode
  · cases hended

theorem serve_registers (n : Node) (h : Registers r app) :
    serve n r = match register n r app with
      | .ok (reply, after) => { reply, node := after }
      | .error e => { reply := e.toReply, node := n } := by
  obtain ⟨hmethod, route, hroute, hresource⟩ := h
  have hmethods : route.methods.contains r.method = true := by
    rw [hmethod]
    rcases hresource with ⟨rfl, -⟩ | ⟨segment, rfl, -⟩ <;> rfl
  have hoperate : operate n r route = register n r app := by
    rcases hresource with ⟨rfl, rfl⟩ | ⟨segment, rfl, hsegment⟩
    · rw [operate, if_pos hmethod]
    · rw [operate, hsegment]
      exact if_pos hmethod
  have hhead : r.method ≠ "HEAD" := by rw [hmethod]; decide
  have hget : r.method ≠ "GET" := by rw [hmethod]; decide
  unfold serve
  rw [hroute]
  simp only [hmethods, not_true_eq_false, hoperate, hhead, hget, and_false, if_false,
    Option.map_none]
  cases register n r app <;> rfl

theorem register_accepted {reply : Reply} {after : Node}
    (h : register n r app = .ok (reply, after)) (hstatus : reply.status = 204) :
    ∃ record asked, (Query.ofTarget r.target).uint64? "lease_duration" = .ok asked ∧
      r.json Instance.decode = .ok record ∧
      n.register (originOf r) { record with app } asked = .ok after := by
  unfold register at h
  obtain ⟨asked, hasked, h⟩ := bind_eq_ok h
  obtain ⟨record, hrecord, h⟩ := bind_eq_ok h
  refine ⟨record, asked, hasked, hrecord, ?_⟩
  split at h
  · cases h
    cases hstatus
  · cases hregister : n.register (originOf r) { record with app } asked with
    | error e =>
      rw [hregister] at h
      cases h
      cases hstatus
    | ok n' =>
      rw [hregister] at h
      cases h
      rfl

theorem served_register (h : Registers r app) (haccepted : (serve n r).reply.status = 204) :
    ∃ record asked, (Query.ofTarget r.target).uint64? "lease_duration" = .ok asked ∧
      r.json Instance.decode = .ok record ∧
      n.register (originOf r) { record with app } asked = .ok (serve n r).node := by
  have hserve := serve_registers n h
  cases hregister : register n r app with
  | error e =>
    rw [hserve, hregister] at haccepted
    cases e <;> cases haccepted
  | ok served =>
    obtain ⟨reply, after⟩ := served
    rw [hregister] at hserve
    rw [hserve] at haccepted ⊢
    exact register_accepted hregister haccepted

/-- Whatever the default lease of its registry is, an accepted registration that names no lease
is given 90 seconds. -/
theorem unnamed_lease (hn : n.registry.Reachable) (h : Registers r app)
    (haccepted : (serve n r).reply.status = 204) (hleaves : LeavesDuration r) :
    ∃ record l, r.json Instance.decode = .ok record ∧
      (serve n r).node.registry.lease? app record.id = some l ∧ l.duration = 90 := by
  obtain ⟨record, asked, hasked, hrecord, hregister⟩ := served_register h haccepted
  obtain ⟨hquery, hbody⟩ := hleaves
  unfold Node.register at hregister
  cases hs : n.registry.register n.clock (originOf r) { record with app } asked with
  | error e =>
    rw [hs] at hregister
    cases hregister
  | ok s =>
    rw [hs] at hregister
    obtain ⟨l, hl, hduration⟩ := hn.sound.lease?_register hs
    have hafter : (serve n r).node.registry = s.registry := by
      rw [← Except.ok.inj hregister]
      exact n.registry_commit s
    have hown : Registry.grantedDuration asked { record with app } = record.terms.duration :=
      Registry.grantedDuration_unasked (fun d hd => hquery d (hd ▸ hasked)) _
    exact ⟨record, l, hrecord, hafter ▸ hl, hduration.trans
      (hown.trans (Instance.duration_decode (decode_of_json hrecord) hbody))⟩

end Api

namespace Server

variable {c : CommandLine} {f : File} {s : Settings} {now : Millis} {n : Node}

theorem Settings.registry_assemble (h : assemble c f = .ok s) :
    s.registry = f.lease.apply {} := by
  unfold assemble at h
  rcases hadvertise : c.advertise.map Peer.parse with _ | _ | _
  all_goals
    rw [hadvertise] at h
    obtain ⟨_, -, h⟩ := bind_eq_ok h
    obtain ⟨_, -, h⟩ := bind_eq_ok h
    obtain ⟨_, -, h⟩ := bind_eq_ok h
    cases h
    rfl

theorem registry_addTimed (n : Node) (period : Nat) (chore : Chore) :
    (n.addTimed period chore).registry = n.registry := by
  unfold Node.addTimed
  split <;> rfl

theorem registry_launch (h : launch s now = .ok n) : n.registry = .start s.registry now := by
  obtain ⟨dispatcher, -, h⟩ := bind_eq_ok h
  cases h
  rw [Node.startCache, registry_addTimed, Node.startEviction, registry_addTimed]
  cases dispatcher with
  | none => exact registry_addTimed ..
  | some d => exact (registry_addTimed ..).trans (registry_addTimed ..)

/-- The default lease that the file of a server names goes into the settings of its registry, and
comes to nothing there: each accepted registration that names no lease is given 90 seconds. So the
default is what such a registration gets only if it is 90, too. -/
theorem serve_unnamed_lease (hassemble : Settings.assemble c f = .ok s)
    (hlaunch : launch s now = .ok n) (acts : List Act) {r : Http.Request} {app : String}
    (h : Api.Registers r app) (haccepted : (Api.serve (n.run acts) r).reply.status = 204)
    (hleaves : Api.LeavesDuration r) :
    let default := (f.lease.duration.map UInt64.ofNat).getD 90
    let after := (Api.serve (n.run acts) r).node.registry
    (n.run acts).registry.settings.defaultLease = default ∧
      ∃ record l, r.json Instance.decode = .ok record ∧
        after.lease? app record.id = some l ∧ l.duration = 90 ∧
        (l.duration = default ↔ default = 90) := by
  intro default after
  have hstart : n.registry = .start s.registry now := registry_launch hlaunch
  have hn : n.registry.Reachable := hstart ▸ .start _ _
  have hreachable : (n.run acts).registry.Reachable := Node.reachable_run hn acts
  obtain ⟨record, l, hrecord, hl, hduration⟩ :=
    Api.unnamed_lease hreachable h haccepted hleaves
  refine ⟨?_, record, l, hrecord, hl, hduration, ?_⟩
  · rw [Node.settings_run hn acts, hstart, Registry.start, Settings.registry_assemble hassemble]
    rfl
  · rw [hduration]
    exact eq_comm

/-- The file names a default of 30 seconds, and a registration that names no lease gets 90. -/
theorem serve_unnamed_lease_overruled :
    let f : File := { lease := { duration := some 30 } }
    let r : Http.Request :=
      { method := "POST", target := "/api/v1/apps/web"
        headers := [("content-type", "application/json")]
        body := "\x7b\"app_name\":\"\",\"instance_id\":\"web-1\",\"host_name\":\"host\"," ++
          "\"ip_addr\":\"\",\"port\":80\x7d" }
    ∃ s n, Settings.assemble {} f = .ok s ∧ launch s 1 = .ok n ∧
      n.registry.settings.defaultLease = 30 ∧ n.registry.lease? "web" "web-1" = none ∧
      Api.Registers r "web" ∧ Api.LeavesDuration r ∧
      (Api.serve (n.run [.clock 5]) r).reply.status = 204 ∧
      ∃ l, (Api.serve (n.run [.clock 5]) r).node.registry.lease? "web" "web-1" = some l ∧
        l.duration = 90 := by
  intro f r
  have hregisters : Api.Registers r "web" :=
    ⟨rfl, .application "web".toList, by decide +kernel, .inr ⟨_, rfl, by decide +kernel⟩⟩
  have hleaves : Api.LeavesDuration r := by
    refine ⟨fun asked hasked => ?_, fun entries hentries terms hmem => ?_⟩
    · have hquery : (Http.Query.ofTarget r.target).uint64? "lease_duration" = .ok none := by
        decide +kernel
      cases hquery.symm.trans hasked
    · have hnames : (Json.entriesOf Instance.fieldNames (Json.ofText r.body).value).map
          (·.map Prod.fst) = .ok ["app_name", "instance_id", "host_name", "ip_addr", "port"] := by
        decide +kernel
      have hname : "lease_info" ∈ entries.map Prod.fst := List.mem_map_of_mem hmem
      rw [hentries] at hnames
      rw [show entries.map Prod.fst = _ from Except.ok.inj hnames] at hname
      exact absurd hname (by decide +kernel)
  have hid : (r.json Instance.decode).map (·.id) = .ok "web-1" := by decide +kernel
  refine ⟨_, _, rfl, rfl, rfl, by decide +kernel, hregisters, hleaves, ?_⟩
  refine (and_iff_left_of_imp fun haccepted => ?_).mpr (by decide +kernel)
  obtain ⟨-, record, l, hrecord, hl, hduration, -⟩ :=
    serve_unnamed_lease (c := {}) (f := f) rfl rfl [.clock 5] hregisters haccepted hleaves
  rw [hrecord] at hid
  rw [show record.id = _ from Except.ok.inj hid] at hl
  exact ⟨l, hl, hduration⟩

end Server

end ServiceRegistry
