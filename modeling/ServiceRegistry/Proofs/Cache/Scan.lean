import ServiceRegistry.Proofs.Cache.Reader
import ServiceRegistry.Proofs.Registry.Representation
import ServiceRegistry.Proofs.Registry.Runs

/-! # Scans of a changing registry

A scan reads the version first and then each instance at a time of its own, so that it may show
changes which the version does not count. To follow the changes above that version over such a view
still gives the registry at the version up to which they are followed: a change that the view shows
already is followed once more, and only the last change of an instance tells.
-/

namespace ServiceRegistry

set_option autoImplicit false

namespace Records

variable {f view : Records} {window : List Change}

/-- A view in which each instance is some way into the changes is led to where the changes lead. -/
theorem replay_of_seen
    (h : ∀ k, ∃ seen, seen <+: window ∧ view k = f.replay seen k) :
    view.replay window = f.replay window := by
  funext k
  obtain ⟨seen, ⟨rest, rfl⟩, hview⟩ := h k
  rw [replay_eq view, replay_eq f]
  cases hlast : ((seen ++ rest).filter (·.record.key = k)).getLast? with
  | some c => rfl
  | none =>
    have hnone := List.getLast?_eq_none_iff.mp hlast
    rw [List.filter_append, List.append_eq_nil_iff] at hnone
    simp only [hview]
    rw [replay_eq f seen, hnone.1]
    rfl

end Records

namespace Numbered

variable {history : List Change}

theorem filter_version_le (h : Numbered history) (version : Nat) :
    history.filter (·.version ≤ version) = history.take version := by
  have hbelow : ∀ c ∈ history.take version, c.version ≤ version := fun c hc =>
    Nat.le_trans ((h.take version).version_le hc) (List.length_take_le ..)
  have habove : ∀ c ∈ history.drop version, ¬ c.version ≤ version := by
    rw [← h.filter_version version]
    exact fun c hc => Nat.not_le.mpr (of_decide_eq_true (List.mem_filter.mp hc).2)
  conv =>
    lhs
    rw [← List.take_append_drop version history]
  rw [List.filter_append, List.filter_eq_self.mpr (by simpa using hbelow),
    List.filter_eq_nil_iff.mpr (by simpa using habove), List.append_nil]

theorem filter_drop_version_le (h : Numbered history) (m n : Nat) :
    (history.drop m).filter (·.version ≤ n) = (history.take n).drop m := by
  rw [← h.filter_version m, List.filter_comm, h.filter_version_le, (h.take n).filter_version]

end Numbered

namespace Registry

theorem Sound.keyed_records {r : Registry} (hr : r.Sound) : Records.Keyed r.records := by
  intro k x hx
  obtain ⟨l, hl, rfl⟩ := Option.map_eq_some_iff.mp hx
  exact hr.filed k l hl

theorem Traced.window_eq {r : Registry} {history : List Change} (h : r.Traced history) {m n : Nat}
    (hfloor : r.log.floor ≤ m) :
    (r.log.since m).changes.filter (·.version ≤ n) = (history.take n).drop m := by
  rw [h.tracks.changes_since, Nat.max_eq_left hfloor, h.tracks.numbered.filter_drop_version_le]

/-- Between two versions of a run whose entries are retained at some time of it, the entries lead
from any view that takes each instance from a time between the two to the registry at the later. -/
theorem follow_window {settings : RegistrySettings} {startedAt : Millis} {turns : List Turn}
    {first last retaining : Registry} {view : KeyMap Key Instance}
    (hfirst : (start settings startedAt).Passes turns first)
    (hlast : (start settings startedAt).Passes turns last)
    (hretaining : (start settings startedAt).Passes turns retaining)
    (hversion : first.log.version ≤ last.log.version)
    (hfloor : retaining.log.floor ≤ first.log.version)
    (hcurrent : last.log.version ≤ retaining.log.version)
    (hview : ∀ k, ∃ s, (start settings startedAt).Passes turns s ∧
      first.log.version ≤ s.log.version ∧ s.log.version ≤ last.log.version ∧
      view.get? k = s.records k) :
    let window :=
      (retaining.log.since first.log.version).changes.filter (·.version ≤ last.log.version)
    let followed := window.foldl Reader.follow view
    window.map (·.version) =
        List.range' (first.log.version + 1) (last.log.version - first.log.version) ∧
      followed.get? = last.records ∧
      Reader.catalog ⟨last.log.version, followed⟩ = last.catalog := by
  intro window followed
  obtain ⟨history, htraced⟩ : ∃ history : List Change, ∀ s,
      (start settings startedAt).Passes turns s →
        s.Reachable ∧ s.Traced (history.take s.log.version) := ⟨_, fun _ => traced_of_passes⟩
  obtain ⟨-, hfirst⟩ := htraced first hfirst
  obtain ⟨hreachable, hlast⟩ := htraced last hlast
  obtain ⟨-, hretaining⟩ := htraced retaining hretaining
  have hwindow : window = (history.take last.log.version).drop first.log.version := by
    refine (hretaining.window_eq hfloor).trans ?_
    rw [List.take_take, Nat.min_eq_left hcurrent]
  have hseen (k : Key) : ∃ seen, seen <+: window ∧ view.get? k = first.records.replay seen k := by
    obtain ⟨s, hs, hafter, hbefore, hk⟩ := hview k
    refine ⟨(history.take s.log.version).drop first.log.version, ?_, ?_⟩
    · rw [hwindow, List.drop_take, List.drop_take]
      exact List.take_prefix_take_left (Nat.sub_le_sub_right hbefore _)
    · rw [hk, hfirst.records, Records.replay_take_drop _ _ hafter, (htraced s hs).2.records]
  have hrecords : followed.get? = last.records := by
    rw [Reader.get?_foldl_follow, Records.replay_of_seen hseen, hwindow, hfirst.records,
      Records.replay_take_drop _ _ hversion, hlast.records]
  refine ⟨?_, hrecords, ?_⟩
  · rw [hwindow, hlast.tracks.numbered.versions_drop, ← hlast.tracks.version]
  · have hkeyed : Records.Keyed followed.get? := hrecords ▸ hreachable.sound.keyed_records
    have hshows := Reader.catalog_shows (v := ⟨last.log.version, followed⟩) hkeyed
    rw [hrecords] at hshows
    exact hshows.unique hreachable.sound.catalog_shows

/-- A scan that started at version 1 and finds one instance gone already and another one there
already, and misses a third. -/
theorem follow_window_mixed :
    let register (now : Millis) (app id : String) : Turn :=
      .perform now (.register .client (.named app id "host" 80) none)
    let before : List Turn := [register 2 "WEB" "web-1"]
    let after : List Turn :=
      [register 3 "API" "api-1", .perform 4 (.cancel .client "WEB" "web-1"),
        register 5 "WEB" "web-2"]
    let first := (start {} 1).run before
    let last := (start {} 1).run (before ++ after)
    let seen : Instance :=
      { Instance.named "WEB" "web-2" "host" 80 with
        dirtyAt := 5, updatedAt := 5, lastChange := some .added }
    let view := ((Reader.start first.catalog).records.insert seen.key seen).erase ("WEB", "web-1")
    let window := (last.log.since 1).changes.filter (·.version ≤ 4)
    first.log.version = 1 ∧ last.log.version = 4 ∧ view.get? ≠ last.records ∧
      window.map (·.version) = [2, 3, 4] ∧ (window.foldl Reader.follow view).get? = last.records ∧
      Reader.catalog ⟨4, window.foldl Reader.follow view⟩ = last.catalog := by
  intro register before after first last seen view window
  have hfirst : (start {} 1).Passes (before ++ after) first := ⟨before, List.prefix_append .., rfl⟩
  have hlast : (start {} 1).Passes (before ++ after) last := ⟨before ++ after, List.prefix_rfl, rfl⟩
  have hone : first.log.version = 1 := by decide +kernel
  have hfour : last.log.version = 4 := by decide +kernel
  have hfloor : last.log.floor ≤ 1 := by decide +kernel
  have hgone : last.records ("WEB", "web-1") = none := by decide +kernel
  have hadded : last.records seen.key = some seen := by decide +kernel
  have hmissed : view.get? ("API", "api-1") ≠ last.records ("API", "api-1") := by decide +kernel
  clear_value first last
  have hsound := (traced_of_passes hfirst).1.sound
  have hview (k : Key) : ∃ s, (start {} 1).Passes (before ++ after) s ∧
      first.log.version ≤ s.log.version ∧ s.log.version ≤ last.log.version ∧
      view.get? k = s.records k := by
    rw [KeyMap.get?_erase, KeyMap.get?_insert,
      Reader.get?_start hsound.keyed_records hsound.catalog_shows]
    split
    · rename_i hk
      exact ⟨last, hlast, by omega, Nat.le_refl _, hk ▸ hgone.symm⟩
    split
    · rename_i hk
      exact ⟨last, hlast, by omega, Nat.le_refl _, hk ▸ hadded.symm⟩
    · exact ⟨first, hfirst, Nat.le_refl _, by omega, rfl⟩
  obtain ⟨hversions, hrecords, hcatalog⟩ := follow_window hfirst hlast hlast
    (by omega) (by omega) (Nat.le_refl _) hview
  rw [hone, hfour] at hversions hrecords hcatalog
  exact ⟨hone, hfour, fun h => hmissed (congrFun h _), hversions, hrecords, hcatalog⟩

end Registry

end ServiceRegistry
