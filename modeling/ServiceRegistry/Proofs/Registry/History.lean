import ServiceRegistry.Proofs.Registry.Lockstep

/-! # The history of a registry

The change log is the end of a longer history: all changes since the registry was started. The
changes up to the floor have left the log. Followed one after another, the changes of the history
lead from no records at all to the records that are stored.
-/

namespace ServiceRegistry

set_option autoImplicit false

abbrev Records := Key → Option Instance

namespace Records

def empty : Records := fun _ => none

def apply (f : Records) (c : Change) : Records := fun k =>
  if c.record.key = k then (if c.kind = .deleted then none else some c.record) else f k

def replay (f : Records) (changes : List Change) : Records := changes.foldl apply f

theorem replay_append (f : Records) (before after : List Change) :
    f.replay (before ++ after) = (f.replay before).replay after := List.foldl_append ..

theorem replay_take_drop (f : Records) (history : List Change) {m n : Nat} (h : m ≤ n) :
    (f.replay (history.take m)).replay ((history.take n).drop m) = f.replay (history.take n) := by
  have htake : (history.take n).take m = history.take m := by
    rw [List.take_take, Nat.min_eq_left h]
  rw [← htake, ← replay_append, List.take_append_drop]

theorem replay_singleton (f : Records) (c : Change) : f.replay [c] = f.apply c := rfl

end Records

theorem Slot.Shift.key_record {now : Millis} {before after : Slot} {kind : ChangeKind}
    {record : Instance} {k : Key} (h : Slot.Shift now before after kind record)
    (hbefore : before.Sound k) (hafter : after.Sound k) : record.key = k := by
  cases h with
  | added _ hlease hholder => exact hholder ▸ (hafter.tended hlease).filed
  | modified _ hlease hholder => exact hholder ▸ (hafter.tended hlease).filed
  | deleted hlease _ => exact (hbefore.tended hlease).filed

def Numbered (history : List Change) : Prop :=
  history.map (·.version) = List.range' 1 history.length

namespace Numbered

variable {history : List Change}

theorem version_getElem? (h : Numbered history) {i : Nat} {c : Change} (hc : history[i]? = some c) :
    c.version = i + 1 := by
  have hi : i < history.length := (List.getElem?_eq_some_iff.mp hc).1
  have hversion := congrArg (fun l => l[i]?) h
  simp only [List.getElem?_map, hc, Option.map_some, List.getElem?_range' hi] at hversion
  have hversion := Option.some.inj hversion
  omega

theorem append (h : Numbered history) {c : Change} (hc : c.version = history.length + 1) :
    Numbered (history ++ [c]) := by
  rw [Numbered, List.map_append, h, List.length_append, List.length_singleton,
    List.range'_concat, List.map_singleton, hc]
  congr 2
  omega

theorem filter_version (h : Numbered history) (version : Nat) :
    history.filter (version < ·.version) = history.drop version := by
  have hbelow : ∀ c ∈ history.take version, ¬ version < c.version := by
    intro c hc
    obtain ⟨i, hi⟩ := List.mem_iff_getElem?.mp hc
    rw [List.getElem?_take] at hi
    split at hi
    · rw [h.version_getElem? hi]
      omega
    · cases hi
  have habove : ∀ c ∈ history.drop version, version < c.version := by
    intro c hc
    obtain ⟨i, hi⟩ := List.mem_iff_getElem?.mp hc
    rw [List.getElem?_drop] at hi
    rw [h.version_getElem? hi]
    omega
  conv =>
    lhs
    rw [← List.take_append_drop version history]
  rw [List.filter_append, List.filter_eq_nil_iff.mpr (by simpa using hbelow),
    List.filter_eq_self.mpr (by simpa using habove), List.nil_append]

theorem filter_drop (h : Numbered history) (floor version : Nat) :
    (history.drop floor).filter (version < ·.version) = history.drop (max version floor) := by
  rw [← h.filter_version floor, List.filter_filter, ← h.filter_version (max version floor)]
  apply List.filter_congr
  intro c _
  rw [← Bool.decide_and]
  exact decide_eq_decide.mpr Nat.max_lt.symm

theorem take (h : Numbered history) (n : Nat) : Numbered (history.take n) := by
  rw [Numbered, List.map_take, h]
  apply List.ext_getElem
  · simp
  · intro i _ _
    simp

theorem versions_drop (h : Numbered history) (n : Nat) :
    (history.drop n).map (·.version) = List.range' (n + 1) (history.length - n) := by
  rw [List.map_drop, h, List.drop_range', Nat.mul_one, Nat.add_comm]

theorem version_le (h : Numbered history) {c : Change} (hc : c ∈ history) :
    c.version ≤ history.length := by
  obtain ⟨i, hi⟩ := List.mem_iff_getElem?.mp hc
  rw [h.version_getElem? hi]
  exact (List.getElem?_eq_some_iff.mp hi).1

end Numbered

namespace ChangeLog

theorem take_purge (l : ChangeLog) (cutoff : Int) :
    l.entries.take (l.purge cutoff).2 =
      l.entries.takeWhile fun c => decide (c.time.toInt < cutoff) :=
  (List.prefix_iff_eq_take.mp (List.takeWhile_prefix _)).symm

theorem count_purge_le (l : ChangeLog) (cutoff : Int) : (l.purge cutoff).2 ≤ l.entries.length :=
  (List.takeWhile_prefix _).length_le

theorem takeWhile_append_purge (l : ChangeLog) (cutoff : Int) :
    l.entries.takeWhile (fun c => decide (c.time.toInt < cutoff)) ++ (l.purge cutoff).1.entries =
      l.entries := by
  rw [← take_purge]
  exact List.take_append_drop ..

/-- A log holds the changes of a history that are above its floor. -/
structure Tracks (history : List Change) (l : ChangeLog) : Prop where
  numbered : Numbered history
  version : l.version = history.length
  floor_le : l.floor ≤ history.length
  entries : l.entries = history.drop l.floor

namespace Tracks

variable {history : List Change} {l : ChangeLog}

theorem start (capacity : Nat) : Tracks [] (.ofCapacity capacity) := ⟨rfl, rfl, Nat.le_refl 0, rfl⟩

theorem raise_take (h : Tracks history l) {n : Nat} (hn : n ≤ l.entries.length) :
    raise l.floor (l.entries.take n) = l.floor + n := by
  cases n with
  | zero => rfl
  | succ n =>
    have hlast : (l.entries.take (n + 1)).getLast? = history[l.floor + n]? := by
      rw [List.getLast?_eq_getElem?, List.length_take, Nat.min_eq_left hn, Nat.add_sub_cancel,
        List.getElem?_take_of_lt (Nat.lt_succ_self n), h.entries, List.getElem?_drop]
    have hlt : l.floor + n < history.length := by
      have hlength := congrArg List.length h.entries
      rw [List.length_drop] at hlength
      omega
    obtain ⟨c, hc⟩ : ∃ c, history[l.floor + n]? = some c :=
      ⟨_, List.getElem?_eq_getElem hlt⟩
    rw [raise, hlast, hc]
    simp only
    rw [h.numbered.version_getElem? hc, Nat.add_assoc]

/-- Entries that leave at the old end raise the floor by their number. -/
theorem cut (h : Tracks history l) {n : Nat} (hn : n ≤ l.entries.length) :
    Tracks history
      { l with floor := raise l.floor (l.entries.take n), entries := l.entries.drop n } where
  numbered := h.numbered
  version := h.version
  floor_le := by
    have hlength := congrArg List.length h.entries
    have hfloor := h.floor_le
    rw [List.length_drop] at hlength
    simp only [h.raise_take hn]
    omega
  entries := by
    rw [h.raise_take hn, h.entries, List.drop_drop]

theorem extend (h : Tracks history l) (kind : ChangeKind) (record : Instance) (now : Millis) :
    Tracks (history ++ [⟨l.version + 1, kind, now, record⟩])
      { l with
        version := l.version + 1
        entries := l.entries ++ [⟨l.version + 1, kind, now, record⟩] } where
  numbered := h.numbered.append (congrArg (· + 1) h.version)
  version := by rw [List.length_append, List.length_singleton, h.version]
  floor_le := by
    rw [List.length_append]
    exact Nat.le_add_right_of_le h.floor_le
  entries := by rw [List.drop_append_of_le_length h.floor_le, h.entries]

theorem append (h : Tracks history l) (kind : ChangeKind) (record : Instance) (now : Millis) :
    Tracks (history ++ [⟨l.version + 1, kind, now, record⟩]) (l.append kind record now) :=
  (h.extend kind record now).cut (Nat.sub_le ..)

theorem purge (h : Tracks history l) (cutoff : Int) : Tracks history (l.purge cutoff).1 := by
  have hcut := h.cut (l.count_purge_le cutoff)
  rw [take_purge] at hcut
  exact hcut

theorem changes_since (h : Tracks history l) (version : Nat) :
    (l.since version).changes = history.drop (max version l.floor) := by
  rw [ChangeLog.since, h.entries]
  exact h.numbered.filter_drop l.floor version

end Tracks

variable {l l' : ChangeLog} {now later : Millis}

/-- The times of the entries do not decrease, and none of them is ahead of the clock. -/
def Dated (now : Millis) (l : ChangeLog) : Prop :=
  l.entries.Pairwise (·.time ≤ ·.time) ∧ ∀ c ∈ l.entries, c.time ≤ now

theorem dated_ofCapacity (capacity : Nat) (now : Millis) : (ofCapacity capacity).Dated now :=
  ⟨.nil, fun _ hc => absurd hc List.not_mem_nil⟩

theorem Dated.of_suffix (h : l.Dated now) (hentries : l'.entries <:+ l.entries) :
    l'.Dated now :=
  ⟨h.1.sublist hentries.sublist, fun c hc => h.2 c (hentries.subset hc)⟩

theorem Dated.wait (h : l.Dated now) (hlater : now ≤ later) : l.Dated later :=
  ⟨h.1, fun c hc => Int64.le_trans (h.2 c hc) hlater⟩

theorem Dated.append (h : l.Dated now) (kind : ChangeKind) (record : Instance) :
    (l.append kind record now).Dated now := by
  have hextended : ({ l with entries := l.entries ++ [⟨l.version + 1, kind, now, record⟩] } :
      ChangeLog).Dated now := by
    refine ⟨List.pairwise_append.mpr ⟨h.1, List.pairwise_singleton .., ?_⟩, fun c hc => ?_⟩
    · intro c hc c' hc'
      rw [List.mem_singleton.mp hc']
      exact h.2 c hc
    · rcases List.mem_append.mp hc with hc | hc
      · exact h.2 c hc
      · rw [List.mem_singleton.mp hc]
        exact Int64.le_refl now
  exact hextended.of_suffix (List.drop_suffix ..)

end ChangeLog

namespace Registry

def records (r : Registry) : Records := fun k => (r.stored? k).map (·.holder)

/-- A history of all changes that led to a registry. -/
structure Traced (history : List Change) (r : Registry) : Prop where
  tracks : r.log.Tracks history
  records : r.records = Records.empty.replay history

variable {r : Registry} {history : List Change}

theorem records_eq_ite {c : Command} {m : Move} {s : Response CommandAnswer} {now : Millis}
    (hacts : Acts r now c m s) (k : Key) :
    s.registry.records k = if c.key = k then m.slot.lease.map (·.holder) else r.records k := by
  have hlease := congrArg Slot.lease (hacts.slot k)
  rw [slot_lease] at hlease
  rw [records, hlease]
  split <;> rfl

theorem Acts.records_of_shift {c : Command} {m : Move} {s : Response CommandAnswer} {now : Millis}
    (hacts : Acts r now c m s) {kind : ChangeKind} {record : Instance} (version : Nat)
    (hshift : Slot.Shift now (r.slot c.key) m.slot kind record) (hkey : record.key = c.key) :
    s.registry.records = r.records.apply ⟨version, kind, now, record⟩ := by
  funext k
  rw [records_eq_ite hacts, hshift.holder_eq, Records.apply, hkey]

theorem Acts.records_of_rest {c : Command} {m : Move} {s : Response CommandAnswer} {now : Millis}
    (hacts : Acts r now c m s)
    (hlease : Slot.Undisturbed now c (r.slot c.key).lease m.slot.lease) :
    s.registry.records = r.records := by
  funext k
  rw [records_eq_ite hacts, hlease.holder_eq]
  split
  · rename_i hk
    rw [← hk]
    rfl
  · rfl

theorem Traced.perform (h : r.Traced history) (hr : r.Sound) (now : Millis) (c : Command) :
    ∃ later, (r.perform now c).registry.Traced (history ++ later) := by
  have hacts := perform_acts hr.filed now c
  rcases (hr c.key).outcome_move now with
    @⟨kind, record, told, hchange, hshift, -⟩ | ⟨hchange, hlease, -, -⟩
  · have hkey := hshift.key_record (hr c.key) ((hr c.key).move now)
    have hlog : (r.perform now c).registry.log = r.log.append kind record now := by
      rw [hacts.log, Move.logged, hchange]
    refine ⟨[⟨r.log.version + 1, kind, now, record⟩], ?_, ?_⟩
    · rw [hlog]
      exact h.tracks.append kind record now
    · rw [Records.replay_append, ← h.records, Records.replay_singleton]
      exact hacts.records_of_shift _ hshift hkey
  · have hlog : (r.perform now c).registry.log = r.log := by
      rw [hacts.log, Move.logged, hchange]
    refine ⟨[], ?_, ?_⟩
    · rw [hlog, List.append_nil]
      exact h.tracks
    · rw [hacts.records_of_rest hlease, h.records, List.append_nil]

theorem Traced.purge (h : r.Traced history) (now : Millis) : (r.purge now).2.Traced history :=
  ⟨h.tracks.purge _, h.records⟩

theorem Traced.takeDirty (h : r.Traced history) : r.takeDirty.2.Traced history :=
  ⟨h.tracks, h.records⟩

theorem Traced.prune (h : r.Traced history) : r.prune.2.Traced history := by
  refine ⟨h.tracks, ?_⟩
  rw [← h.records]
  funext k
  rw [Registry.records, stored?_prune]
  rfl

theorem Traced.rotate (h : r.Traced history) :
    { r with renewals := r.renewals.rotate }.Traced history := ⟨h.tracks, h.records⟩

theorem Reachable.traced (h : r.Reachable) : ∃ history, r.Traced history := by
  induction h with
  | start settings now => exact ⟨[], .start _, rfl⟩
  | perform now c hr ih =>
    obtain ⟨history, hhistory⟩ := ih
    obtain ⟨later, hlater⟩ := hhistory.perform hr.sound now c
    exact ⟨history ++ later, hlater⟩
  | takeDirty _ ih => exact ih.imp fun _ h => h.takeDirty
  | prune _ ih => exact ih.imp fun _ h => h.prune
  | purge now _ ih => exact ih.imp fun _ h => h.purge now
  | rotate _ ih => exact ih.imp fun _ h => h.rotate

end Registry

end ServiceRegistry
