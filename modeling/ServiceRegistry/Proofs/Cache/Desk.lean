import ServiceRegistry.Proofs.Cache.Reader
import ServiceRegistry.Proofs.Registry.Runs

/-! # The desk of a registry

A desk is a registry with the cache that answers for it, and a reader that follows the changes.
Registry, snapshot and reader are at points of one history (`Desk.Keeps`). So a poll brings the
reader to the catalog of the snapshot, and a refresh leaves the snapshot of the registry as it is
and, unless the clock went back, no entry of the log that is older than the retention time.
-/

namespace ServiceRegistry

set_option autoImplicit false

inductive Query where
  | catalog
  | application (name : String)
  | since (version : Nat)
  deriving DecidableEq, Repr

def ResponseCache.ask (c : ResponseCache) (q : Query) (format : Format) (encoding : Encoding) :
    Option Payload × ResponseCache :=
  match q with
  | .catalog =>
    let (p, c) := c.catalog format encoding
    (some p, c)
  | .application name => c.application? name format encoding
  | .since version =>
    let (p, c) := c.delta version format encoding
    (some p, c)

theorem ResponseCache.snapshot_ask (c : ResponseCache) (q : Query) (format : Format)
    (encoding : Encoding) : (c.ask q format encoding).2.snapshot = c.snapshot := by
  have hfetch (key : PayloadKey) (v : Json) : (c.fetch key v).2.snapshot = c.snapshot := by
    unfold fetch
    split <;> rfl
  cases q with
  | catalog => exact hfetch _ _
  | application name =>
    simp only [ask, application?]
    split
    · rfl
    · exact hfetch _ _
  | since version => exact hfetch _ _

structure Desk where
  registry : Registry
  cache : ResponseCache
  reader : Reader
  /-- The payloads that the cache has given out, oldest first. -/
  given : List Payload := []

namespace Desk

/-- One thing that happens at a desk. Nobody but the cache takes the registry's dirty flag. -/
inductive Turn where
  | registry (t : Registry.Turn) (keeps : t ≠ .takeDirty)
  | refresh (now : Millis)
  | rebuild (now : Millis)
  | reopen (now : Millis)
  | ask (q : Query) (format : Format) (encoding : Encoding)
  | poll
  /-- The reader drops its copy and starts from the cached catalog. -/
  | restart

def start (r : Registry) (now : Millis) : Desk :=
  let cache := ResponseCache.ofRegistry r now
  { registry := r, cache, reader := .start cache.snapshot.catalog }

def step (d : Desk) : Turn → Desk
  | .registry t _ => { d with registry := d.registry.step t }
  | .refresh now =>
    let (cache, response) := d.cache.refresh d.registry now
    { d with cache, registry := response.registry }
  | .rebuild now =>
    let (cache, response) := d.cache.rebuild d.registry now
    { d with cache, registry := response.registry }
  | .reopen now => { d with cache := .ofRegistry d.registry now, given := [] }
  | .ask q format encoding =>
    let (payload, cache) := d.cache.ask q format encoding
    { d with cache, given := d.given ++ payload.toList }
  | .poll => { d with reader := d.reader.poll d.cache.snapshot }
  | .restart => { d with reader := .start d.cache.snapshot.catalog }

def run (d : Desk) (turns : List Turn) : Desk := turns.foldl step d

def Turn.inner : Turn → List Registry.Turn
  | registry t _ => [t]
  | refresh now => [.takeDirty, .purge now]
  | rebuild now => [.purge now]
  | reopen _ | ask .. | poll | restart => []

variable {d : Desk} {r : Registry} {history : List Change} {now : Millis}

theorem registry_step (d : Desk) (t : Turn) : (d.step t).registry = d.registry.run t.inner := by
  cases t with
  | refresh now => exact (d.cache.refresh_eq d.registry now).1
  | registry | rebuild | reopen | ask | poll | restart => rfl

theorem registry_run (d : Desk) (turns : List Turn) :
    (d.run turns).registry = d.registry.run (turns.flatMap Turn.inner) := by
  induction turns generalizing d with
  | nil => rfl
  | cons t rest ih =>
    rw [List.flatMap_cons, Registry.run_append, ← registry_step]
    exact ih (d.step t)

/-- Registry, snapshot and reader are at points of one history. -/
structure Keeps (history : List Change) (d : Desk) : Prop where
  reachable : d.registry.Reachable
  registry : d.registry.Traced history
  mirrors : d.cache.Mirrors history d.registry
  reader : d.reader.Traced history

theorem keeps_start (hr : r.Reachable) (h : r.Traced history) (now : Millis) :
    (start r now).Keeps history := by
  have hmirrors : (ResponseCache.ofRegistry r now).Mirrors history r :=
    ResponseCache.mirrors_capture hr h rfl
  exact ⟨hr, h, hmirrors, Reader.traced_start hmirrors.snapshot⟩

theorem Keeps.turn (h : d.Keeps history) {t : Registry.Turn} (keeps : t ≠ .takeDirty) :
    (d.step (.registry t keeps)).Keeps (history ++ d.registry.logged [t]) := by
  rw [Registry.logged, Registry.done_singleton]
  exact ⟨h.reachable.step t, h.reachable.traced_step h.registry t,
    h.mirrors.extend (h.reachable.dirty_step keeps), h.reader.extend _⟩

theorem Keeps.refresh (h : d.Keeps history) (now : Millis) :
    (d.step (.refresh now)).Keeps history ∧
      (d.step (.refresh now)).cache.snapshot.version = history.length ∧
      (d.step (.refresh now)).cache.snapshot.floor =
        (d.step (.refresh now)).registry.log.floor := by
  obtain ⟨hmirrors, hversion, hfloor⟩ := h.mirrors.refresh h.reachable h.registry now
  have hregistry := registry_step d (.refresh now)
  have hreachable := h.reachable.run (Turn.refresh now).inner
  have htraced := h.reachable.traced_run h.registry (Turn.refresh now).inner
  rw [← hregistry] at hreachable htraced
  exact ⟨⟨hreachable, (List.append_nil history) ▸ htraced, hmirrors, h.reader⟩, hversion, hfloor⟩

theorem Keeps.of_nothing_logged (h : d.Keeps history) {changes : List Change}
    (hnothing : changes = []) : d.Keeps (history ++ changes) := by
  rw [hnothing, List.append_nil]
  exact h

theorem Keeps.step (h : d.Keeps history) (t : Turn) :
    (d.step t).Keeps (history ++ d.registry.logged t.inner) := by
  cases t with
  | registry t keeps => exact h.turn keeps
  | refresh now => exact (h.refresh now).1.of_nothing_logged rfl
  | rebuild now =>
    have hreachable : (d.step (.rebuild now)).registry.Reachable := h.reachable.purge now
    have htraced := h.registry.purge now
    have hafter : (d.step (.rebuild now)).Keeps history :=
      ⟨hreachable, htraced, ResponseCache.mirrors_capture hreachable htraced rfl, h.reader⟩
    exact hafter.of_nothing_logged rfl
  | reopen now =>
    have hafter : (d.step (.reopen now)).Keeps history :=
      ⟨h.reachable, h.registry, ResponseCache.mirrors_capture h.reachable h.registry rfl,
        h.reader⟩
    exact hafter.of_nothing_logged rfl
  | ask q format encoding =>
    have hmirrors := h.mirrors.congr (d.cache.snapshot_ask q format encoding) rfl
    have hafter : (d.step (.ask q format encoding)).Keeps history :=
      ⟨h.reachable, h.registry, hmirrors, h.reader⟩
    exact hafter.of_nothing_logged rfl
  | poll =>
    have hreader := (h.reader.poll h.registry.tracks.numbered h.mirrors.snapshot).1
    have hafter : (d.step .poll).Keeps history :=
      ⟨h.reachable, h.registry, h.mirrors, hreader⟩
    exact hafter.of_nothing_logged rfl
  | restart =>
    have hafter : (d.step .restart).Keeps history :=
      ⟨h.reachable, h.registry, h.mirrors, Reader.traced_start h.mirrors.snapshot⟩
    exact hafter.of_nothing_logged rfl

theorem Keeps.run (h : d.Keeps history) (turns : List Turn) :
    (d.run turns).Keeps (history ++ d.registry.logged (turns.flatMap Turn.inner)) := by
  induction turns generalizing d history with
  | nil => exact (List.append_nil history).symm ▸ h
  | cons t rest ih =>
    rw [List.flatMap_cons, Registry.logged_append, ← registry_step, ← List.append_assoc]
    exact ih (h.step t)

/-- After any run, a poll gives the reader the catalog of the snapshot that answers, and the hash
code of its own copy is the one in the answer. -/
theorem poll_catalog (hr : r.Reachable) (now : Millis) (turns : List Turn) :
    let d := (start r now).run turns
    let view := (d.reader.poll d.cache.snapshot).catalog
    view = d.cache.snapshot.catalog ∧ view.version = d.cache.snapshot.version ∧
      hashCode view.instances = d.cache.snapshot.catalog.hashCode ∧
      ∀ since upTo code changes,
        d.cache.snapshot.delta d.reader.version = .changes since upTo code changes →
          upTo = view.version ∧ code = hashCode view.instances := by
  intro d view
  obtain ⟨history, hhistory⟩ := hr.traced
  have hd := (keeps_start hr hhistory now).run turns
  have hsnapshot := hd.mirrors.snapshot
  obtain ⟨hreader, hversion⟩ := hd.reader.poll hd.registry.tracks.numbered hsnapshot
  have hview : view = d.cache.snapshot.catalog := hreader.catalog_eq hsnapshot hversion
  have hcode : hashCode view.instances = d.cache.snapshot.catalog.hashCode := hview ▸ rfl
  refine ⟨hview, hversion, hcode, fun since upTo code changes hdelta => ?_⟩
  rw [Snapshot.delta] at hdelta
  split at hdelta
  · cases hdelta
    exact ⟨hversion.symm, hcode.symm⟩
  · cases hdelta

/-- A log with room for one entry: the reader is one change behind, and then two. -/
theorem poll_catalog_behind :
    let register (id : String) :=
      Turn.registry (.perform 2 (.register .client (.named "WEB" id "host" 80) none)) nofun
    let r := Registry.start { logCapacity := 1 } 1
    let d := (start r 1).run [register "web-1", .refresh 3]
    let late := (start r 1).run [register "web-1", register "web-2", .refresh 3]
    r.Reachable ∧
      d.reader.version = 0 ∧ d.cache.snapshot.covers 0 = true ∧
      (d.reader.poll d.cache.snapshot).catalog = d.cache.snapshot.catalog ∧
      late.reader.version = 0 ∧ late.cache.snapshot.covers 0 = false ∧
      (late.reader.poll late.cache.snapshot).catalog = late.cache.snapshot.catalog := by
  intro register r d late
  have hr : r.Reachable := .start _ _
  refine ⟨hr, by decide +kernel, by decide +kernel, ?_, by decide +kernel, by decide +kernel, ?_⟩
  · exact (poll_catalog hr 1 [register "web-1", .refresh 3]).1
  · exact (poll_catalog hr 1 [register "web-1", register "web-2", .refresh 3]).1

/-- After a refresh, whatever it answers, the snapshot is of the registry as it is then. If the
clock did not go back, no entry older than the retention time is left in the log. -/
theorem refresh_current (s : RegistrySettings) (started opened : Millis) (turns : List Turn)
    (now : Millis) :
    let d := (start (.start s started) opened).run turns
    let refreshed := d.cache.refresh d.registry now
    let snapshot := refreshed.1.snapshot
    let r := refreshed.2.registry
    snapshot.version = r.log.version ∧ snapshot.floor = r.log.floor ∧
      snapshot.catalog = r.catalog ∧ snapshot.changes = r.log.entries ∧
      (Registry.Steady started (turns.flatMap Turn.inner) → ∀ c ∈ r.log.entries,
        now.toInt - s.retention.toNat * 1000 ≤ c.time.toInt) := by
  intro d refreshed snapshot r
  have hreachable : (Registry.start s started).Reachable := .start s started
  have hkeeps := (keeps_start hreachable ⟨.start s.logCapacity, rfl⟩ opened).run turns
  obtain ⟨hafter, hversion, hfloor⟩ := hkeeps.refresh now
  obtain ⟨hversion, hfloor, hcatalog, hchanges⟩ :=
    hafter.mirrors.snapshot.current hafter.registry hafter.reachable.sound hversion hfloor
  refine ⟨hversion, hfloor, hcatalog, hchanges, fun hsteady c hc => ?_⟩
  have hregistry : d.registry = (Registry.start s started).run (turns.flatMap Turn.inner) :=
    registry_run ..
  obtain ⟨last, hdated⟩ := hreachable.dated_run (ChangeLog.dated_ofCapacity _ started) hsteady
  have hsettings := hreachable.settings_run (turns.flatMap Turn.inner)
  rw [← hregistry] at hdated hsettings
  have hpurged : r = (d.registry.takeDirty.2.purge now).2 := (d.cache.refresh_eq d.registry now).1
  rw [hpurged] at hc
  have hretained := Registry.retained_purge (r := d.registry.takeDirty.2) hdated hc
  rwa [show d.registry.takeDirty.2.settings = s from hsettings] at hretained

/-- A refresh that finds nothing to do, and one that finds an entry of the log too old. -/
theorem refresh_current_aged :
    let register (now : Millis) (id : String) :=
      Turn.registry (.perform now (.register .client (.named "WEB" id "host" 80) none)) nofun
    let turns := [register 1 "web-1", register 2000 "web-2", .refresh 2000]
    let d := (start (.start {} 1) 1).run turns
    let refreshed := d.cache.refresh d.registry 2000
    let aged := d.cache.refresh d.registry 181000
    Registry.Steady 1 (turns.flatMap Turn.inner) ∧
      refreshed.2.answer = false ∧ refreshed.1.snapshot.changes = refreshed.2.registry.log.entries ∧
      aged.2.answer = true ∧ aged.1.snapshot.changes = aged.2.registry.log.entries ∧
      aged.2.registry.log.entries.map (·.time) = [2000] ∧
      ∀ c ∈ aged.2.registry.log.entries, (181000 : Millis).toInt - 180 * 1000 ≤ c.time.toInt := by
  intro register turns d refreshed aged
  have hsteady : Registry.Steady 1 (turns.flatMap Turn.inner) := by decide +kernel
  obtain ⟨-, -, -, hchanges, -⟩ := refresh_current {} 1 1 turns 2000
  obtain ⟨-, -, -, haged, hrecent⟩ := refresh_current {} 1 1 turns 181000
  exact ⟨hsteady, by decide +kernel, hchanges, by decide +kernel, haged, by decide +kernel,
    hrecent hsteady⟩

end Desk

end ServiceRegistry
