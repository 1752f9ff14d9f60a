import ServiceRegistry.Proofs.Replication.Queue

/-! # Calls of a queue

A caller of a queue sees what its calls return and what the queue reports of itself in between.
On these grounds a queue cannot be told from a plain list of items.
-/

namespace ServiceRegistry.Replication

set_option autoImplicit false

inductive Call where
  | push (i : Item)
  | drain (most : Nat)
  deriving DecidableEq, Repr

inductive Return where
  | dropped (n : Nat)
  | items (l : List Item)
  deriving DecidableEq, Repr

structure Report where
  length : Nat
  isEmpty : Bool
  dropped : Nat
  deriving DecidableEq, Repr

structure Buffer (σ : Type) where
  push : σ → Item → Nat × σ
  drain : σ → Nat → List Item × σ
  length : σ → Nat
  isEmpty : σ → Bool
  dropped : σ → Nat

namespace Buffer

variable {σ τ : Type}

def call (b : Buffer σ) (s : σ) : Call → Return × σ
  | .push i => let (n, s) := b.push s i; (.dropped n, s)
  | .drain most => let (l, s) := b.drain s most; (.items l, s)

def report (b : Buffer σ) (s : σ) : Report := ⟨b.length s, b.isEmpty s, b.dropped s⟩

def answers (b : Buffer σ) : σ → List Call → List (Return × Report)
  | _, [] => []
  | s, c :: calls => let (r, s) := b.call s c; (r, b.report s) :: b.answers s calls

/-- Related states are seen alike, and every call keeps them related. -/
structure Simulates (b : Buffer σ) (b' : Buffer τ) (Related : σ → τ → Prop) : Prop where
  report : ∀ {s t}, Related s t → b.report s = b'.report t
  push : ∀ {s t} (i : Item), Related s t →
    (b.push s i).1 = (b'.push t i).1 ∧ Related (b.push s i).2 (b'.push t i).2
  drain : ∀ {s t} (most : Nat), Related s t →
    (b.drain s most).1 = (b'.drain t most).1 ∧ Related (b.drain s most).2 (b'.drain t most).2

variable {b : Buffer σ} {b' : Buffer τ} {Related : σ → τ → Prop} {s : σ} {t : τ}

theorem Simulates.call (h : Simulates b b' Related) (hst : Related s t) (c : Call) :
    (b.call s c).1 = (b'.call t c).1 ∧ Related (b.call s c).2 (b'.call t c).2 := by
  cases c with
  | push i =>
    obtain ⟨hlost, hrelated⟩ := h.push i hst
    exact ⟨congrArg Return.dropped hlost, hrelated⟩
  | drain most =>
    obtain ⟨hitems, hrelated⟩ := h.drain most hst
    exact ⟨congrArg Return.items hitems, hrelated⟩

theorem Simulates.answers (h : Simulates b b' Related) (hst : Related s t) (calls : List Call) :
    b.answers s calls = b'.answers t calls := by
  induction calls generalizing s t with
  | nil => rfl
  | cons c calls ih =>
    obtain ⟨hreturn, hrelated⟩ := h.call hst c
    have hfirst : ((b.call s c).1, b.report (b.call s c).2) =
        ((b'.call t c).1, b'.report (b'.call t c).2) := by
      rw [hreturn, h.report hrelated]
    exact List.cons_eq_cons.mpr ⟨hfirst, ih hrelated⟩

end Buffer

namespace Queue

def buffer : Buffer Queue := ⟨push, drain, length, isEmpty, dropped⟩

end Queue

namespace Pending

def buffer : Buffer Pending := ⟨push, drain, (·.items.length), (·.items.isEmpty), dropped⟩

end Pending

namespace Queue

variable {q : Queue}

theorem Tidy.report (h : q.Tidy) : buffer.report q = Pending.buffer.report q.toPending := by
  have hlength : q.length = q.toList.length := h.length_toList.symm
  have hempty : q.isEmpty = q.toList.isEmpty := by
    rw [isEmpty, hlength]
    cases q.toList <;> rfl
  simp only [Buffer.report, buffer, Pending.buffer, toPending]
  rw [hlength, hempty]

/-- Tickets, slots and the latest ticket of each instance together are the plain list. -/
theorem buffer_simulates :
    Buffer.Simulates buffer Pending.buffer fun q p => q.Tidy ∧ q.toPending = p := by
  constructor
  · rintro q _ ⟨htidy, rfl⟩
    exact htidy.report
  · rintro q _ i ⟨htidy, rfl⟩
    obtain ⟨hkept, hdropped, hpending⟩ := htidy.push i
    exact ⟨hdropped, hkept, hpending⟩
  · rintro q _ most ⟨htidy, rfl⟩
    obtain ⟨hkept, hitems, hpending⟩ := htidy.drain most
    exact ⟨hitems, hkept, hpending⟩

/-- A queue answers every sequence of calls as the plain list of the same capacity does. -/
theorem answers_ofCapacity (capacity : Nat) (calls : List Call) :
    buffer.report (ofCapacity capacity) = Pending.buffer.report (.ofCapacity capacity) ∧
      buffer.answers (ofCapacity capacity) calls =
        Pending.buffer.answers (.ofCapacity capacity) calls := by
  have hstart : (ofCapacity capacity).Tidy ∧
      (ofCapacity capacity).toPending = Pending.ofCapacity capacity :=
    ⟨tidy_ofCapacity capacity, rfl⟩
  constructor
  · exact buffer_simulates.report hstart
  · exact buffer_simulates.answers hstart calls

end Queue

end ServiceRegistry.Replication
