import ServiceRegistry.Proofs.Cache.Desk

/-! # Payloads that are kept

A payload that the cache keeps is the one that would be written now. Requests that share a payload
are those that the snapshot answers alike: versions that it does not cover, and spellings of one
name.
-/

namespace ServiceRegistry

set_option autoImplicit false

namespace Catalog

/-- No two applications have names that differ only in case. -/
def Spelled (c : Catalog) : Prop := (c.applications.map fun a => Text.upper a.name).Nodup

variable {c : Catalog} {a : Application} {name : String}

theorem upper_of_find? (h : c.find? name = some a) : Text.upper a.name = Text.upper name := by
  rw [find?] at h
  have hname := List.find?_some h
  exact beq_iff_eq.mp hname

theorem find?_name (h : c.find? name = some a) : c.find? a.name = some a := by
  simp only [find?, Text.sameLetters, upper_of_find? h]
  exact h

theorem Spelled.find?_eq_some (hc : c.Spelled) (ha : a ∈ c.applications)
    (hname : Text.sameLetters a.name name = true) : c.find? name = some a := by
  cases hfind : c.find? name with
  | none => exact absurd hname (List.find?_eq_none.mp hfind a ha)
  | some b =>
    have hupper : Text.upper b.name = Text.upper a.name :=
      (upper_of_find? hfind).trans (beq_iff_eq.mp hname).symm
    rw [List.inj_on_of_nodup_map hc (List.mem_of_find?_eq_some hfind) ha hupper]

end Catalog

theorem Registry.Sound.upper_name {r : Registry} (hr : r.Sound) {a : Application}
    (ha : a ∈ r.catalog.applications) : Text.upper a.name = a.name := by
  obtain ⟨x, hx⟩ := List.exists_mem_of_ne_nil _ (hr.canonical_catalog.inhabited a ha)
  have hrecord : r.records x.key = some x := (hr.listed_catalog x).mp ⟨a, ha, hx⟩
  obtain ⟨l, hstored, -⟩ := Option.map_eq_some_iff.mp hrecord
  rw [← hr.canonical_catalog.own a ha x hx]
  exact ((hr _).tended hstored).upper

theorem Registry.Sound.spelled {r : Registry} (hr : r.Sound) : r.catalog.Spelled := by
  rw [Catalog.Spelled, List.map_congr_left fun a ha => hr.upper_name ha]
  exact hr.canonical_catalog.names

namespace Snapshot

def shown? (s : Snapshot) : View → Option Json
  | .catalog => some s.catalog.toJson
  | .application name => (s.catalog.find? name).map (·.toJson)
  | .since version => if s.covers version then some (s.delta version).toJson else none
  | .startOver => some (Delta.startOver s.version).toJson

def answer? (s : Snapshot) : Query → Option Json
  | .catalog => some s.catalog.toJson
  | .application name => (s.catalog.find? name).map (·.toJson)
  | .since version => some (s.delta version).toJson

end Snapshot

namespace ResponseCache

variable {c : ResponseCache}

def lookups (c : ResponseCache) : Nat := c.hits + c.misses

/-- Every payload that is kept is of what the snapshot shows under its key. -/
def Memoized (c : ResponseCache) : Prop :=
  ∀ view format encoding p, c.payloads.get? (view, format, encoding) = some p →
    ∃ v, c.snapshot.shown? view = some v ∧ p = .of v format encoding c.snapshot.version

theorem memoized_of_empty (h : c.payloads = .empty) : c.Memoized := by
  intro view format encoding p hp
  rw [h, KeyMap.get?_empty] at hp
  cases hp

theorem Memoized.fetch (h : c.Memoized) {view : View} {v : Json}
    (hshown : c.snapshot.shown? view = some v) (format : Format) (encoding : Encoding) :
    (c.fetch (view, format, encoding) v).1 = .of v format encoding c.snapshot.version ∧
      (c.fetch (view, format, encoding) v).2.Memoized ∧
      (c.fetch (view, format, encoding) v).2.lookups = c.lookups + 1 := by
  unfold ResponseCache.fetch
  split
  · rename_i p hp
    obtain ⟨w, hw, rfl⟩ := h view format encoding p hp
    obtain rfl : v = w := Option.some.inj (hshown.symm.trans hw)
    exact ⟨rfl, h, Nat.add_right_comm ..⟩
  · refine ⟨rfl, fun view' format' encoding' p hp => ?_, rfl⟩
    simp only [KeyMap.get?_insert] at hp
    split at hp
    · rename_i hkey
      cases hkey
      cases hp
      exact ⟨v, hshown, rfl⟩
    · exact h view' format' encoding' p hp

theorem Memoized.ask (h : c.Memoized) (q : Query) (format : Format) (encoding : Encoding) :
    (c.ask q format encoding).1 =
        (c.snapshot.answer? q).map (.of · format encoding c.snapshot.version) ∧
      (c.ask q format encoding).2.Memoized ∧
      (c.ask q format encoding).2.lookups =
        c.lookups + (c.ask q format encoding).1.toList.length := by
  cases q with
  | catalog =>
    have hshown : c.snapshot.shown? .catalog = some c.snapshot.catalog.toJson := rfl
    obtain ⟨hpayload, hmemoized, hlookups⟩ := h.fetch hshown format encoding
    exact ⟨congrArg some hpayload, hmemoized, hlookups⟩
  | application name =>
    cases hfind : c.snapshot.catalog.find? name with
    | none =>
      simp only [ResponseCache.ask, application?, Snapshot.answer?, hfind]
      exact ⟨rfl, h, rfl⟩
    | some a =>
      have hshown : c.snapshot.shown? (.application a.name) = some a.toJson := by
        rw [Snapshot.shown?, Catalog.find?_name hfind]
        rfl
      obtain ⟨hpayload, hmemoized, hlookups⟩ := h.fetch hshown format encoding
      simp only [ResponseCache.ask, application?, Snapshot.answer?, hfind]
      exact ⟨congrArg some hpayload, hmemoized, hlookups⟩
  | since version =>
    have hshown : c.snapshot.shown?
        (if c.snapshot.covers version then .since version else .startOver) =
          some (c.snapshot.delta version).toJson := by
      by_cases hcovers : c.snapshot.covers version = true
      · simp only [hcovers, if_true, Snapshot.shown?]
      · simp only [hcovers, Snapshot.shown?, Snapshot.delta]
        rfl
    obtain ⟨hpayload, hmemoized, hlookups⟩ := h.fetch hshown format encoding
    exact ⟨congrArg some hpayload, hmemoized, hlookups⟩

end ResponseCache

namespace Desk

variable {d : Desk}

/-- The snapshot is of a registry that was there once, and each payload that was given counts as a
hit or a miss. -/
structure Recalls (d : Desk) : Prop where
  reachable : d.registry.Reachable
  captured : ∃ (r : Registry) (now : Millis), r.Reachable ∧ d.cache.snapshot = .capture r now
  memoized : d.cache.Memoized
  counted : d.cache.lookups = d.given.length

theorem recalls_start {r : Registry} (hr : r.Reachable) (now : Millis) :
    (start r now).Recalls where
  reachable := hr
  captured := ⟨r, now, hr, rfl⟩
  memoized := ResponseCache.memoized_of_empty rfl
  counted := rfl

theorem Recalls.capture (h : d.Recalls) {d' : Desk} {now : Millis}
    (hreachable : d'.registry.Reachable)
    (hcache : d'.cache =
      { d.cache with snapshot := .capture d'.registry now, payloads := .empty })
    (hgiven : d'.given = d.given) : d'.Recalls where
  reachable := hreachable
  captured := ⟨d'.registry, now, hreachable, congrArg ResponseCache.snapshot hcache⟩
  memoized := ResponseCache.memoized_of_empty (congrArg ResponseCache.payloads hcache)
  counted := (congrArg ResponseCache.lookups hcache).trans (h.counted.trans (hgiven ▸ rfl))

theorem Recalls.step (h : d.Recalls) (t : Turn) : (d.step t).Recalls := by
  have hreachable : (d.step t).registry.Reachable :=
    registry_step d t ▸ h.reachable.run t.inner
  cases t with
  | registry | poll | restart => exact ⟨hreachable, h.captured, h.memoized, h.counted⟩
  | refresh now =>
    obtain ⟨hafter, hcache | ⟨hcache, -⟩⟩ := d.cache.refresh_eq d.registry now
    · rw [← hafter] at hcache
      exact h.capture hreachable hcache rfl
    · have hkept : (d.step (.refresh now)).cache = d.cache := hcache
      exact ⟨hreachable, hkept ▸ h.captured, hkept ▸ h.memoized,
        (congrArg ResponseCache.lookups hkept).trans h.counted⟩
  | rebuild now => exact h.capture hreachable rfl rfl
  | reopen now =>
    exact ⟨hreachable, ⟨_, now, h.reachable, rfl⟩, ResponseCache.memoized_of_empty rfl, rfl⟩
  | ask q format encoding =>
    obtain ⟨-, hmemoized, hlookups⟩ := h.memoized.ask q format encoding
    have hsnapshot := d.cache.snapshot_ask q format encoding
    refine ⟨hreachable, hsnapshot ▸ h.captured, hmemoized, ?_⟩
    rw [Desk.step, List.length_append, ← h.counted]
    exact hlookups

theorem Recalls.run (h : d.Recalls) (turns : List Turn) : (d.run turns).Recalls :=
  List.foldlRecOn turns Desk.step h fun _ hd t _ => hd.step t

/-- After any run, what the cache gives to a reader is what would be written from the snapshot for
that very request, and every payload given so far was a hit or a miss. -/
theorem payloads_current (s : RegistrySettings) (started opened : Millis) (turns : List Turn)
    (format : Format) (encoding : Encoding) :
    let d := (start (.start s started) opened).run turns
    let c := d.cache
    let written (v : Json) := Payload.of v format encoding c.snapshot.version
    (c.catalog format encoding).1 = written c.snapshot.catalog.toJson ∧
      (∀ version, (c.delta version format encoding).1 =
        written (c.snapshot.delta version).toJson) ∧
      (∀ name, ∀ a ∈ c.snapshot.catalog.applications, Text.sameLetters a.name name = true →
        (c.application? name format encoding).1 = some (written a.toJson)) ∧
      (∀ name, (c.application? name format encoding).1 = none ↔
        ∀ a ∈ c.snapshot.catalog.applications, Text.sameLetters a.name name = false) ∧
      c.hits + c.misses = d.given.length := by
  intro d c written
  have hrecalls : d.Recalls := (recalls_start (.start s started) opened).run turns
  have hspelled : c.snapshot.catalog.Spelled := by
    obtain ⟨r, captured, hr, hsnapshot⟩ := hrecalls.captured
    rw [hsnapshot]
    exact hr.sound.spelled
  have hasked (q : Query) : (c.ask q format encoding).1 = (c.snapshot.answer? q).map written :=
    (hrecalls.memoized.ask q format encoding).1
  have hfound (name : String) : (c.application? name format encoding).1 =
      (c.snapshot.catalog.find? name).map fun a => written a.toJson :=
    (hasked (.application name)).trans (Option.map_map ..)
  refine ⟨Option.some.inj (hasked .catalog),
    fun version => Option.some.inj (hasked (.since version)),
    fun name a ha hname => ?_, fun name => ?_, hrecalls.counted⟩
  · rw [hfound, hspelled.find?_eq_some ha hname]
    rfl
  · rw [hfound, Option.map_eq_none_iff, Catalog.find?, List.find?_eq_none]
    simp only [Bool.not_eq_true]

end Desk

end ServiceRegistry
