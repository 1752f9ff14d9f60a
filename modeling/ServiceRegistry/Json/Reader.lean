import ServiceRegistry.Json.Basic
import ServiceRegistry.Decimal.Literal
import ServiceRegistry.Text.Units

/-!
# Reading JSON text

`ofText` always answers with a value. Where the text stops being JSON the value ends in a part
that is not intact, so a typed reader meets the faults in the order of the text. Strings with a
lone surrogate and numbers beyond the doubles are unreadable but can be passed over.
-/

namespace ServiceRegistry.Json

set_option autoImplicit false

abbrev Rest (n : Nat) := { r : List Char // r.length < n }

/-- A part read from a text, and the rest unless the text breaks off. -/
structure Scan (α : Type) (n : Nat) where
  value : α
  rest : Option (Rest n)

def Scan.broken {α : Type} {n : Nat} (value : α) : Scan α n := ⟨value, none⟩

def Scan.weaken {α : Type} {m n : Nat} (h : m ≤ n) (s : Scan α m) : Scan α n :=
  ⟨s.value, s.rest.map fun r => ⟨r.1, Nat.lt_of_lt_of_le r.2 h⟩⟩

def isSpace (c : Char) : Bool := c == ' ' || c == '\n' || c == '\t' || c == '\r'

def skipSpace (s : List Char) : List Char := s.dropWhile isSpace

theorem length_dropWhile_le (p : Char → Bool) (s : List Char) :
    (s.dropWhile p).length ≤ s.length :=
  (List.dropWhile_sublist p).length_le

theorem length_skipSpace_le (s : List Char) : (skipSpace s).length ≤ s.length :=
  length_dropWhile_le isSpace s

def shortEscape (c : Char) : Option Nat :=
  match c with
  | '"' => some 0x22
  | '\\' => some 0x5C
  | '/' => some 0x2F
  | 'b' => some 8
  | 'f' => some 12
  | 'n' => some 10
  | 'r' => some 13
  | 't' => some 9
  | _ => none

def scanUnits : List Char → Option (List Nat × List Char)
  | [] => none
  | '"' :: r => some ([], r)
  | '\\' :: 'u' :: a :: b :: c :: d :: r =>
    (Text.hexNumber [a, b, c, d]).bind fun n =>
      (scanUnits r).map fun (units, rest) => (n :: units, rest)
  | '\\' :: e :: r =>
    (shortEscape e).bind fun n => (scanUnits r).map fun (units, rest) => (n :: units, rest)
  | c :: r =>
    if c.toNat < 0x20 then none
    else (scanUnits r).map fun (units, rest) => (c.toNat :: units, rest)

theorem length_scanUnits {s : List Char} {units : List Nat} {r : List Char}
    (h : scanUnits s = some (units, r)) : r.length < s.length := by
  fun_induction scanUnits s generalizing units r with
  | case1 => cases h
  | case2 r' => cases h; simp
  | case3 a b c d r' ih =>
    obtain ⟨n, _, h⟩ := Option.bind_eq_some_iff.1 h
    obtain ⟨⟨us, r''⟩, hs, h⟩ := Option.map_eq_some_iff.1 h
    cases h
    have := ih hs
    simp only [List.length_cons]
    omega
  | case4 e r' _ ih =>
    obtain ⟨n, _, h⟩ := Option.bind_eq_some_iff.1 h
    obtain ⟨⟨us, r''⟩, hs, h⟩ := Option.map_eq_some_iff.1 h
    cases h
    have := ih hs
    simp only [List.length_cons]
    omega
  | case5 => cases h
  | case6 c r' _ _ _ _ ih =>
    obtain ⟨⟨us, rest⟩, hs, h⟩ := Option.map_eq_some_iff.1 h
    cases h
    have := ih hs
    simp only [List.length_cons]
    omega

/-- Text of a string behind its opening quote; the inner `none` is a lone surrogate. -/
def scanString (s : List Char) : Scan (Option String) s.length :=
  match h : scanUnits s with
  | none => .broken none
  | some (units, r) =>
    ⟨(Text.joinSurrogates units).map String.ofList, some ⟨r, length_scanUnits h⟩⟩

def scanDigits (s : List Char) : List Char × List Char :=
  (s.takeWhile Char.isDigit, s.dropWhile Char.isDigit)

def scanFraction : List Char → Option (Option (List Char) × List Char)
  | '.' :: r =>
    let (digits, rest) := scanDigits r
    if digits.isEmpty then none else some (some digits, rest)
  | s => some (none, s)

def scanExponent : List Char → Option (Option Int × List Char)
  | e :: r =>
    if e = 'e' ∨ e = 'E' then
      let (negative, r) := match r with
        | '+' :: r => (false, r)
        | '-' :: r => (true, r)
        | r => (false, r)
      let (digits, rest) := scanDigits r
      let n : Int := Decimal.natOfDigits digits
      if digits.isEmpty then none else some (some (if negative then -n else n), rest)
    else some (none, e :: r)
  | [] => some (none, [])

def scanNumber (s : List Char) : Option (Decimal.Literal × List Char) :=
  let (negative, s) := match s with
    | '-' :: r => (true, r)
    | s => (false, s)
  let (whole, r) := scanDigits s
  if whole.isEmpty ∨ (whole.head? = some '0' ∧ 1 < whole.length) then none
  else
    (scanFraction r).bind fun (fraction, r) =>
      (scanExponent r).map fun (exponent, r) => (⟨negative, whole, fraction, exponent⟩, r)

/-- Whole numbers of 64 bits stay whole; `-0` and all others are doubles. -/
def ofLiteral (l : Decimal.Literal) : Json :=
  let n := l.toInt
  if l.isWhole ∧ Int64.minValue.toInt ≤ n ∧ n < UInt64.size ∧ ¬ (l.negative ∧ n = 0) then .int n
  else match l.toFloat with
    | some x => .float x
    | none => .unreadable true

def scanScalar (s : List Char) : Scan Json s.length :=
  let found : Option (Json × List Char) :=
    match s with
    | 'n' :: 'u' :: 'l' :: 'l' :: r => some (.null, r)
    | 't' :: 'r' :: 'u' :: 'e' :: r => some (.bool true, r)
    | 'f' :: 'a' :: 'l' :: 's' :: 'e' :: r => some (.bool false, r)
    | s => (scanNumber s).map fun (l, r) => (ofLiteral l, r)
  match found with
  | none => .broken (.unreadable false)
  | some (v, r) =>
    if h : r.length < s.length then ⟨v, some ⟨r, h⟩⟩ else .broken (.unreadable false)

mutual

def scanValue (s : List Char) : Scan Json s.length :=
  have hs := length_skipSpace_le s
  match ht : skipSpace s with
  | '"' :: r =>
    let t := scanString r
    ⟨match t.value with
      | some text => .str text
      | none => .unreadable t.rest.isSome,
     t.rest.map fun q => ⟨q.1, by have := q.2; simp only [ht, List.length_cons] at hs; omega⟩⟩
  | '[' :: r =>
    have hr : r.length < s.length := by simp only [ht, List.length_cons] at hs; omega
    have hb := length_skipSpace_le r
    match hu : skipSpace r with
    | ']' :: r' =>
      ⟨.arr [], some ⟨r', by simp only [hu, List.length_cons] at hb; omega⟩⟩
    | _ =>
      let t := scanItems r
      ⟨.arr t.value, (t.weaken (Nat.le_of_lt hr)).rest⟩
  | '\x7b' :: r =>
    have hr : r.length < s.length := by simp only [ht, List.length_cons] at hs; omega
    have hb := length_skipSpace_le r
    match hu : skipSpace r with
    | '\x7d' :: r' =>
      ⟨.obj [], some ⟨r', by simp only [hu, List.length_cons] at hb; omega⟩⟩
    | _ =>
      let t := scanEntries r
      ⟨if t.value.2 then .obj t.value.1 else .unreadable t.rest.isSome,
       (t.weaken (Nat.le_of_lt hr)).rest⟩
  | r => (scanScalar r).weaken (by simpa only [ht] using hs)
termination_by 2 * s.length

def scanItems (s : List Char) : Scan (List Json) s.length :=
  let v := scanValue s
  match v.rest with
  | none => .broken [v.value]
  | some ⟨r, hr⟩ =>
    have hb := length_skipSpace_le r
    match hu : skipSpace r with
    | ']' :: r' => ⟨[v.value], some ⟨r', by simp only [hu, List.length_cons] at hb; omega⟩⟩
    | ',' :: r' =>
      have : r'.length < s.length := by simp only [hu, List.length_cons] at hb; omega
      let t := scanItems r'
      ⟨v.value :: t.value, (t.weaken (Nat.le_of_lt this)).rest⟩
    | _ => .broken [v.value, .unreadable false]
termination_by 2 * s.length + 1

def scanEntries (s : List Char) : Scan (List (String × Json) × Bool) s.length :=
  have hs := length_skipSpace_le s
  let cut : List (String × Json) × Bool := ([("", .unreadable false)], true)
  match ht : skipSpace s with
  | '"' :: q =>
    let name := scanString q
    match name.rest with
    | none => .broken cut
    | some ⟨r, hr⟩ =>
      have hb := length_skipSpace_le r
      match hu : skipSpace r with
      | ':' :: r' =>
        have hr' : r'.length < s.length := by
          simp only [hu, List.length_cons] at hb
          simp only [ht, List.length_cons] at hs
          omega
        let v := scanValue r'
        let entry := (name.value.getD "", v.value)
        match v.rest with
        | none => .broken ([entry], name.value.isSome)
        | some ⟨w, hw⟩ =>
          have hc := length_skipSpace_le w
          match hx : skipSpace w with
          | '\x7d' :: w' =>
            ⟨([entry], name.value.isSome),
             some ⟨w', by simp only [hx, List.length_cons] at hc; omega⟩⟩
          | ',' :: w' =>
            have : w'.length < s.length := by simp only [hx, List.length_cons] at hc; omega
            let t := scanEntries w'
            ⟨(entry :: t.value.1, name.value.isSome && t.value.2),
             (t.weaken (Nat.le_of_lt this)).rest⟩
          | _ => .broken ([entry, ("", .unreadable false)], name.value.isSome)
      | _ => .broken cut
  | _ => .broken cut
termination_by 2 * s.length + 1

end

/-- A text read as one value; `ended` if nothing but space follows it. -/
structure Document where
  value : Json
  ended : Bool

def ofText (text : String) : Document :=
  let t := scanValue text.toList
  ⟨t.value, match t.rest with
    | some r => (skipSpace r.1).isEmpty
    | none => true⟩

def parse? (text : String) : Option Json :=
  let d := ofText text
  if d.ended && d.value.readable 127 then some d.value else none

end ServiceRegistry.Json
