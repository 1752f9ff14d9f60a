import Mathlib.Data.List.TakeWhile
import ServiceRegistry.Cache.Lookup
import ServiceRegistry.Proofs.Cache.Capture

/-! # Refreshes

A refresh ends with a purge and captures what is left then, unless the snapshot shows that already.
The dirty flag and the floor of the log tell (`ResponseCache.Mirrors.refresh`).
-/

namespace ServiceRegistry

set_option autoImplicit false

/-- A cutoff that wraps around lies beyond every time, so it bounds no time falsely. -/
theorem Millis.le_of_cutoff_le {now t : Millis} {seconds : UInt64}
    (h : (now - seconds.toInt64 * 1000).toInt ≤ t.toInt) :
    now.toInt - seconds.toNat * 1000 ≤ t.toInt := by
  have hseconds : seconds.toInt64.toInt = (seconds.toNat : Int).bmod (2 ^ 64) :=
    BitVec.toInt_eq_toNat_bmod _
  have hmillis : (1000 : Int64).toInt = 1000 := rfl
  have hcutoff : (now - seconds.toInt64 * 1000).toInt =
      (now.toInt - seconds.toNat * 1000).bmod (2 ^ 64) := by
    rw [Int64.toInt_sub, Int64.toInt_mul, hseconds, hmillis, Int.sub_bmod_bmod,
      ← Int.sub_bmod_bmod, Int.bmod_mul_bmod, Int.sub_bmod_bmod]
  have hnow := now.toInt_lt
  have ht := t.le_toInt
  by_cases hfits : -2 ^ 63 ≤ now.toInt - seconds.toNat * 1000
  · rwa [hcutoff, Int.bmod_eq_of_le (by omega) (by omega)] at h
  · omega

theorem not_of_mem_dropWhile {α : Type} {p : α → Bool} {l : List α}
    (h : l.Pairwise fun a b => p b = true → p a = true) {a : α} (ha : a ∈ l.dropWhile p) :
    p a = false := by
  induction l with
  | nil => cases ha
  | cons b rest ih =>
    obtain ⟨hhead, htail⟩ := List.pairwise_cons.mp h
    cases hb : p b with
    | true =>
      rw [List.dropWhile_cons_of_pos hb] at ha
      exact ih htail ha
    | false =>
      rw [List.dropWhile_cons_of_neg (by simp [hb])] at ha
      rcases List.mem_cons.mp ha with rfl | ha
      · exact hb
      · exact Bool.eq_false_iff.mpr fun hpa => Bool.false_ne_true (hb.symm.trans (hhead a ha hpa))

namespace ChangeLog

variable {l : ChangeLog} {now : Millis}

theorem entries_purge (l : ChangeLog) (cutoff : Int) :
    (l.purge cutoff).1.entries = l.entries.dropWhile fun c => decide (c.time.toInt < cutoff) :=
  List.append_cancel_left
    ((l.takeWhile_append_purge cutoff).trans List.takeWhile_append_dropWhile.symm)

theorem purge_of_none {cutoff : Int} (h : (l.purge cutoff).2 = 0) : (l.purge cutoff).1 = l := by
  have hnone := List.eq_nil_of_length_eq_zero h
  simp only [ChangeLog.purge, hnone]
  rfl

theorem purge_purge (l : ChangeLog) (cutoff : Int) :
    ((l.purge cutoff).1.purge cutoff).1 = (l.purge cutoff).1 := by
  refine purge_of_none (List.length_eq_zero_iff.mpr ?_)
  rw [entries_purge]
  exact List.takeWhile_eq_nil_iff.mpr (List.dropWhile_get_zero_not _ _)

theorem Dated.cutoff_le (h : l.Dated now) {cutoff : Int} {c : Change}
    (hc : c ∈ (l.purge cutoff).1.entries) : cutoff ≤ c.time.toInt := by
  have hpair : l.entries.Pairwise fun a b =>
      decide (b.time.toInt < cutoff) = true → decide (a.time.toInt < cutoff) = true := by
    refine h.1.imp fun {a b} hle hb => ?_
    rw [Int64.le_iff_toInt_le] at hle
    rw [decide_eq_true_eq] at hb ⊢
    omega
  rw [entries_purge] at hc
  simpa using not_of_mem_dropWhile hpair hc

end ChangeLog

namespace Registry

variable {r : Registry} {now last : Millis}

theorem purge_purge (r : Registry) (now : Millis) :
    ((r.purge now).2.purge now).2 = (r.purge now).2 :=
  congrArg (fun log => { r with log }) (r.log.purge_purge _)

/-- When the times do not decrease, a purge leaves no entry older than the retention time. -/
theorem retained_purge (h : r.log.Dated last) {c : Change} (hc : c ∈ (r.purge now).2.log.entries) :
    now.toInt - r.settings.retention.toNat * 1000 ≤ c.time.toInt :=
  Millis.le_of_cutoff_le (h.cutoff_le hc)

end Registry

namespace ResponseCache

/-- A refresh takes the dirty flag and purges the log. Then it captures the registry, unless nothing
has changed and the log has lost nothing that the snapshot holds. -/
theorem refresh_eq (c : ResponseCache) (r : Registry) (now : Millis) :
    (c.refresh r now).2.registry = (r.takeDirty.2.purge now).2 ∧
      ((c.refresh r now).1 =
          { c with snapshot := .capture (r.takeDirty.2.purge now).2 now, payloads := .empty } ∨
        (c.refresh r now).1 = c ∧ r.dirty = false ∧
          (r.takeDirty.2.purge now).2.log.floor = c.snapshot.floor) := by
  by_cases hchanged : r.takeDirty.1 ∨ r.takeDirty.2.log.floor ≠ c.snapshot.floor
  · simp only [refresh, if_pos hchanged, ← or_assoc]
    simp only [if_pos (Or.inl hchanged), rebuild]
    exact ⟨trivial, .inl trivial⟩
  · simp only [refresh, if_neg hchanged, ← or_assoc]
    by_cases hpurged : (r.takeDirty.2.purge now).1 ≠ 0
    · simp only [if_pos (Or.inr hpurged), rebuild, Registry.purge_purge]
      exact ⟨trivial, .inl trivial⟩
    · obtain ⟨hclean, hfloor⟩ := not_or.mp hchanged
      have hsame : (r.takeDirty.2.purge now).2.log = r.takeDirty.2.log :=
        ChangeLog.purge_of_none (not_not.mp hpurged)
      simp only [if_neg (not_or.mpr ⟨hchanged, hpurged⟩), hsame]
      exact ⟨trivial, .inr ⟨trivial, Bool.eq_false_iff.mpr hclean, not_not.mp hfloor⟩⟩

/-- The snapshot is of a point in the history, and of its end unless the registry is dirty. -/
structure Mirrors (history : List Change) (c : ResponseCache) (r : Registry) : Prop where
  snapshot : c.snapshot.Traced history
  clean : r.dirty = false → c.snapshot.version = history.length

variable {c c' : ResponseCache} {r r' : Registry} {history : List Change} {now : Millis}

theorem mirrors_capture (hr : r.Reachable) (h : r.Traced history)
    (hsnapshot : c.snapshot = .capture r now) : c.Mirrors history r where
  snapshot := hsnapshot ▸ Snapshot.traced_capture h hr.sound now
  clean _ := hsnapshot ▸ h.tracks.version

theorem Mirrors.congr (h : c.Mirrors history r) (hsnapshot : c'.snapshot = c.snapshot)
    (hdirty : r'.dirty = r.dirty) : c'.Mirrors history r' where
  snapshot := hsnapshot ▸ h.snapshot
  clean := hsnapshot ▸ hdirty ▸ h.clean

theorem Mirrors.extend (h : c.Mirrors history r) {changes : List Change}
    (hdirty : r'.dirty = (r.dirty || !changes.isEmpty)) :
    c.Mirrors (history ++ changes) r' := by
  refine ⟨h.snapshot.extend changes, fun hclean => ?_⟩
  rw [hdirty, Bool.or_eq_false_iff, Bool.not_eq_false', List.isEmpty_iff] at hclean
  rw [hclean.2, List.append_nil]
  exact h.clean hclean.1

/-- After a refresh the snapshot is of the end of the history, at the floor of the log. -/
theorem Mirrors.refresh (h : c.Mirrors history r) (hr : r.Reachable) (htraced : r.Traced history)
    (now : Millis) :
    (c.refresh r now).1.Mirrors history (c.refresh r now).2.registry ∧
      (c.refresh r now).1.snapshot.version = history.length ∧
      (c.refresh r now).1.snapshot.floor = (c.refresh r now).2.registry.log.floor := by
  have hr' : (r.takeDirty.2.purge now).2.Reachable := hr.takeDirty.purge now
  have htraced' : (r.takeDirty.2.purge now).2.Traced history := htraced.takeDirty.purge now
  obtain ⟨hafter, hcases⟩ := c.refresh_eq r now
  rw [hafter]
  rcases hcases with hcache | ⟨hcache, hdirty, hfloor⟩
  · rw [hcache]
    exact ⟨mirrors_capture hr' htraced' rfl, htraced'.tracks.version, rfl⟩
  · rw [hcache]
    exact ⟨⟨h.snapshot, fun _ => h.clean hdirty⟩, h.clean hdirty, hfloor.symm⟩

end ResponseCache

/-- A snapshot of the end of the history, at the floor of the log, is of the registry as it is. -/
theorem Snapshot.Traced.current {history : List Change} {s : Snapshot} {r : Registry}
    (hs : s.Traced history) (h : r.Traced history) (hr : r.Sound)
    (hversion : s.version = history.length) (hfloor : s.floor = r.log.floor) :
    s.version = r.log.version ∧ s.floor = r.log.floor ∧ s.catalog = r.catalog ∧
      s.changes = r.log.entries := by
  have hshows := hs.shows
  have hchanges := hs.changes
  rw [hversion, List.take_length, ← h.records, ← h.tracks.version] at hshows
  rw [hversion, List.take_length, hfloor, ← h.tracks.entries] at hchanges
  exact ⟨hversion.trans h.tracks.version.symm, hfloor, hshows.unique hr.catalog_shows, hchanges⟩

end ServiceRegistry
