/-!
# Reading UTF-8

Bytes are read into characters. Where bytes are no character, the longest start of one that
they have in common with some character is taken as one fault, or else a single byte.
-/

namespace ServiceRegistry.Text

set_option autoImplicit false

/-- Number of bytes behind the first one, and the bounds of the second byte. -/
def leadByte (b : Nat) : Option (Nat × Nat × Nat) :=
  if 0xC2 ≤ b ∧ b ≤ 0xDF then some (1, 0x80, 0xBF)
  else if b = 0xE0 then some (2, 0xA0, 0xBF)
  else if b = 0xED then some (2, 0x80, 0x9F)
  else if 0xE1 ≤ b ∧ b ≤ 0xEF then some (2, 0x80, 0xBF)
  else if b = 0xF0 then some (3, 0x90, 0xBF)
  else if 0xF1 ≤ b ∧ b ≤ 0xF3 then some (3, 0x80, 0xBF)
  else if b = 0xF4 then some (3, 0x80, 0x8F)
  else none

def continuation : Nat → Nat → Nat → Nat → List Nat → Option Nat × List Nat
  | 0, code, _, _, bytes => (some code, bytes)
  | n + 1, code, low, high, bytes =>
    match bytes with
    | [] => (none, [])
    | b :: rest =>
      if low ≤ b ∧ b ≤ high then continuation n (code * 64 + (b - 0x80)) 0x80 0xBF rest
      else (none, b :: rest)

theorem length_continuation_le (n code low high : Nat) (bytes : List Nat) :
    (continuation n code low high bytes).2.length ≤ bytes.length := by
  induction n generalizing code low high bytes with
  | zero => simp [continuation]
  | succ n ih =>
    cases bytes with
    | nil => simp [continuation]
    | cons b rest =>
      simp only [continuation]
      split
      · exact Nat.le_succ_of_le (ih ..)
      · exact Nat.le_refl _

/-- The characters that bytes stand for, with `none` for each fault. -/
def decodeUtf8 (bytes : List Nat) : List (Option Char) :=
  match bytes with
  | [] => []
  | b :: rest =>
    if b < 0x80 then some (Char.ofNat b) :: decodeUtf8 rest
    else match leadByte b with
      | none => none :: decodeUtf8 rest
      | some (n, low, high) =>
        let t := continuation n (b % (64 >>> n)) low high rest
        t.1.map Char.ofNat :: decodeUtf8 t.2
termination_by bytes.length
decreasing_by
  · simp
  · simp
  · exact Nat.lt_succ_of_le (length_continuation_le ..)

def encodeUtf8 (cs : List Char) : List Nat :=
  (String.ofList cs).toUTF8.toList.map UInt8.toNat

end ServiceRegistry.Text
