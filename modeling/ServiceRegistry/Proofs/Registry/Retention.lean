import ServiceRegistry.Proofs.Registry.History

/-! # What a change log retains

Appends and purges may come in any order and at any times. The log then holds an unbroken end of
all that was appended, the entries above its floor, so that a window of changes is complete if and
only if it begins at the floor or above (`ChangeLog.contiguous_run`).
-/

namespace ServiceRegistry.ChangeLog

set_option autoImplicit false

inductive Call where
  | append (kind : ChangeKind) (record : Instance) (now : Millis)
  | purge (cutoff : Int)
  deriving DecidableEq, Repr

def call (l : ChangeLog) : Call → ChangeLog
  | .append kind record now => l.append kind record now
  | .purge cutoff => (l.purge cutoff).1

def run (l : ChangeLog) (calls : List Call) : ChangeLog := calls.foldl call l

/-- All changes that some calls append, retained or not, numbered on from a version. -/
def appended : Nat → List Call → List Change
  | _, [] => []
  | version, .append kind record now :: rest =>
    ⟨version + 1, kind, now, record⟩ :: appended (version + 1) rest
  | version, .purge _ :: rest => appended version rest

/-- The longest prefix of entries that are older than the cutoff leaves. The answer is by how much
the floor grew. -/
structure Purges (l : ChangeLog) (cutoff : Int) (left : List Change) (after : ChangeLog × Nat) :
    Prop where
  entries : left ++ after.1.entries = l.entries
  older : ∀ c ∈ left, c.time.toInt < cutoff
  longest : ∀ other, other <+: l.entries → (∀ c ∈ other, c.time.toInt < cutoff) →
    other.length ≤ left.length
  count : after.2 = left.length
  floor : after.1.floor = l.floor + after.2
  version : after.1.version = l.version

variable {history : List Change} {l : ChangeLog}

theorem appended_cons (l : ChangeLog) (c : Call) (rest : List Call) :
    appended l.version (c :: rest) =
      appended l.version [c] ++ appended (l.call c).version rest := by
  cases c <;> rfl

theorem length_append_le (l : ChangeLog) (kind : ChangeKind) (record : Instance) (now : Millis) :
    (l.append kind record now).length ≤ l.capacity := by
  simp only [length, append, shrink, List.length_drop]
  omega

theorem length_call_le {c : Call} (h : l.length ≤ l.capacity) :
    (l.call c).length ≤ (l.call c).capacity := by
  cases c with
  | append kind record now => exact l.length_append_le kind record now
  | purge cutoff =>
    have hsuffix : (l.purge cutoff).1.entries <:+ l.entries := List.drop_suffix ..
    exact Nat.le_trans hsuffix.length_le h

namespace Tracks

theorem length_eq (h : l.Tracks history) : l.length = history.length - l.floor := by
  rw [length, h.entries, List.length_drop]

theorem floor_append (h : l.Tracks history) (kind : ChangeKind) (record : Instance)
    (now : Millis) :
    (l.append kind record now).floor = l.floor + (l.length + 1 - l.capacity) := by
  refine ((h.extend kind record now).raise_take (Nat.sub_le _ l.capacity)).trans ?_
  rw [List.length_append, List.length_singleton]
  rfl

theorem floor_purge (h : l.Tracks history) (cutoff : Int) :
    (l.purge cutoff).1.floor = l.floor + (l.purge cutoff).2 := by
  have hraise := h.raise_take (l.count_purge_le cutoff)
  rw [take_purge] at hraise
  exact hraise

theorem purges (h : l.Tracks history) (cutoff : Int) :
    ∃ left, l.Purges cutoff left (l.purge cutoff) := by
  refine ⟨l.entries.takeWhile fun c => decide (c.time.toInt < cutoff), ?_⟩
  constructor
  case entries => exact l.takeWhile_append_purge cutoff
  case older =>
    intro c hc
    exact of_decide_eq_true (List.all_eq_true.mp List.all_takeWhile c hc)
  case longest =>
    rintro other ⟨rest, hrest⟩ hother
    rw [← hrest, List.takeWhile_append_of_pos fun c hc => decide_eq_true (hother c hc)]
    exact (List.prefix_append ..).length_le
  case count => rfl
  case floor => exact h.floor_purge cutoff
  case version => rfl

theorem call (h : l.Tracks history) (c : Call) :
    (l.call c).Tracks (history ++ appended l.version [c]) := by
  cases c with
  | append kind record now => exact h.append kind record now
  | purge cutoff =>
    rw [appended, appended, List.append_nil]
    exact h.purge cutoff

theorem bounds_call (h : l.Tracks history) (c : Call) :
    l.floor ≤ (l.call c).floor ∧ l.version ≤ (l.call c).version := by
  cases c with
  | append kind record now =>
    rw [ChangeLog.call, h.floor_append, version_append]
    exact ⟨Nat.le_add_right .., Nat.le_succ _⟩
  | purge cutoff =>
    rw [ChangeLog.call, h.floor_purge]
    exact ⟨Nat.le_add_right .., Nat.le_refl _⟩

end Tracks

theorem length_run_le (h : l.length ≤ l.capacity) (calls : List Call) :
    (l.run calls).length ≤ l.capacity := by
  induction calls generalizing l with
  | nil => exact h
  | cons c rest ih =>
    have hcapacity : (l.call c).capacity = l.capacity := by cases c <;> rfl
    rw [← hcapacity]
    exact ih (length_call_le h)

namespace Tracks

theorem run (h : l.Tracks history) (calls : List Call) :
    (l.run calls).Tracks (history ++ appended l.version calls) := by
  induction calls generalizing l history with
  | nil =>
    rw [appended, List.append_nil]
    exact h
  | cons c rest ih =>
    rw [appended_cons, ← List.append_assoc]
    exact ih (h.call c)

theorem bounds_run (h : l.Tracks history) (calls : List Call) :
    l.floor ≤ (l.run calls).floor ∧ l.version ≤ (l.run calls).version := by
  induction calls generalizing l history with
  | nil => exact ⟨Nat.le_refl _, Nat.le_refl _⟩
  | cons c rest ih =>
    obtain ⟨hfloor, hversion⟩ := h.bounds_call c
    obtain ⟨hfloor', hversion'⟩ := ih (h.call c)
    exact ⟨Nat.le_trans hfloor hfloor', Nat.le_trans hversion hversion'⟩

theorem floor_add_length (h : l.Tracks history) : l.floor + l.length = l.version := by
  have hfloor := h.floor_le
  rw [h.length_eq, h.version]
  omega

theorem versions_entries (h : l.Tracks history) :
    l.entries.map (·.version) = List.range' (l.floor + 1) l.length := by
  rw [h.length_eq, h.entries]
  exact h.numbered.versions_drop l.floor

theorem changes_since_eq_iff (h : l.Tracks history) (version : Nat) :
    (l.since version).changes = history.filter (version < ·.version) ↔ l.floor ≤ version := by
  rw [h.changes_since, h.numbered.filter_version]
  constructor
  · intro hchanges
    have hlength := congrArg List.length hchanges
    have hfloor := h.floor_le
    rw [List.length_drop, List.length_drop] at hlength
    omega
  · intro hfloor
    rw [Nat.max_eq_left hfloor]

end Tracks

/-- After any calls the retained entries are those above the floor, in the order of their versions,
and the changes above a version are all there if and only if it is not below the floor. -/
theorem contiguous_run (capacity : Nat) (calls : List Call) :
    let l := (ofCapacity capacity).run calls
    l.floor + l.length = l.version ∧
      l.entries.map (·.version) = List.range' (l.floor + 1) l.length ∧
      l.length ≤ max 1 capacity ∧
      (∀ later, l.floor ≤ (l.run later).floor ∧ l.version ≤ (l.run later).version) ∧
      (∀ cutoff, ∃ left, l.Purges cutoff left (l.purge cutoff)) ∧
      ∀ version,
        (l.since version).changes = (appended 0 calls).filter (version < ·.version) ↔
          l.floor ≤ version := by
  intro l
  have htracks : l.Tracks (appended 0 calls) := (Tracks.start capacity).run calls
  have hlength : l.length ≤ max capacity 1 :=
    (ofCapacity capacity).length_run_le (Nat.zero_le _) calls
  refine ⟨htracks.floor_add_length, htracks.versions_entries, ?_, htracks.bounds_run,
    htracks.purges, htracks.changes_since_eq_iff⟩
  rw [Nat.max_comm]
  exact hlength

/-- An old entry stays as long as a younger one stands in front of it. -/
example :
    let x := Instance.named "WEB" "web-1" "host" 80
    let l := (ofCapacity 3).run
      [.append .added x 10, .append .modified x 40, .append .modified x 20,
        .append .modified x 30]
    (l.purge 35).2 = 0 ∧ (l.purge 41).2 = 3 ∧ (l.since 2).changes.map (·.version) = [3, 4] := by
  decide

end ServiceRegistry.ChangeLog
