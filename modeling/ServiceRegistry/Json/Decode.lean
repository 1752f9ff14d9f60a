import ServiceRegistry.Json.Reader

/-!
# Typed reading of JSON values

A decoder meets the entries of an object in the order of the text. A text that breaks off is
`malformed`; a value of the wrong shape is `unfit`. When several parts of one object are at
fault, the first in the text decides. A structure may also be written as the array of its
fields in order.
-/

namespace ServiceRegistry.Json

set_option autoImplicit false

inductive Fault where
  | malformed
  | unfit
  deriving DecidableEq, Repr

abbrev Decoder (α : Type) := Json → Except Fault α

/-- A part of an object, or the fault in it with its place among the entries. -/
inductive Reading (α : Type) where
  | value (a : α)
  | fault (place : Nat) (f : Fault)

namespace Reading

variable {α β : Type}

def toExcept : Reading α → Except Fault α
  | .value a => .ok a
  | .fault _ f => .error f

/-- Of two faults the earlier one stands, of two in one place the left one. -/
def seq (f : Reading (α → β)) (x : Reading α) : Reading β :=
  match f, x with
  | .value f, .value a => .value (f a)
  | .value _, .fault i e => .fault i e
  | .fault i e, .value _ => .fault i e
  | .fault i e, .fault j e' => if i ≤ j then .fault i e else .fault j e'

instance : Applicative Reading where
  pure := .value
  seq f x := seq f (x ())

end Reading

def entriesOf (names : List String) : Json → Except Fault (List (String × Json))
  | .obj entries => .ok entries
  | .arr items =>
    .ok (names.zip items ++ if names.length < items.length then [("", .unreadable false)] else [])
  | .unreadable _ => .error .malformed
  | _ => .error .unfit

def occurrences (name : String) : Nat → List (String × Json) → List (Nat × Json)
  | _, [] => []
  | i, (n, v) :: rest =>
    if n = name then (i, v) :: occurrences name (i + 1) rest else occurrences name (i + 1) rest

def field {α : Type} (entries : List (String × Json)) (name : String) (decode : Decoder α)
    (absent : Option α := none) : Reading α :=
  match occurrences name 0 entries with
  | [] =>
    match absent with
    | some a => .value a
    | none => .fault entries.length .unfit
  | (i, v) :: more =>
    match decode v with
    | .error f => .fault i f
    | .ok a =>
      match more with
      | [] => .value a
      | (j, _) :: _ => .fault j .unfit

def firstBroken : Nat → List (String × Json) → Reading Unit
  | _, [] => .value ()
  | i, (_, v) :: rest => if v.intact then firstBroken (i + 1) rest else .fault i .malformed

def structureOf {α : Type} (names : List String) (read : List (String × Json) → Reading α) :
    Decoder α := fun v => do
  let entries ← entriesOf names v
  (read entries <* firstBroken 0 entries).toExcept

def refuse {α : Type} : Decoder α
  | .unreadable _ => .error .malformed
  | _ => .error .unfit

def string : Decoder String
  | .str s => .ok s
  | v => refuse v

def boolean : Decoder Bool
  | .bool b => .ok b
  | v => refuse v

def wholeIn (low high : Int) : Decoder Int
  | .int n => if low ≤ n ∧ n ≤ high then .ok n else .error .unfit
  | v => refuse v

def count : Decoder Nat := fun v => (wholeIn 0 (UInt64.size - 1) v).map Int.toNat

def uint64 : Decoder UInt64 := fun v => (count v).map UInt64.ofNat

def uint16 : Decoder UInt16 := fun v =>
  (wholeIn 0 (UInt16.size - 1) v).map fun n => UInt16.ofNat n.toNat

def int64 : Decoder Int64 := fun v =>
  (wholeIn Int64.minValue.toInt Int64.maxValue.toInt v).map Int64.ofInt

def number : Decoder Float
  | .int n => .ok (Float.ofInt n)
  | .float x => .ok x
  | v => refuse v

def optional {α : Type} (decode : Decoder α) : Decoder (Option α)
  | .null => .ok none
  | v => (decode v).map some

def list {α : Type} (decode : Decoder α) : Decoder (List α)
  | .arr items => items.mapM decode
  | v => refuse v

/-- One of several words, alone or as the name of an entry with nothing in it. In what was read
whole before, an empty object is nothing, too. -/
def oneOf {α : Type} (words : List (String × α)) (wasRead : Bool := false) : Decoder α
  | .str s => (words.lookup s).elim (.error .unfit) .ok
  | .obj ((name, v) :: more) =>
    match words.lookup name, v, more with
    | none, _, _ => .error (if name = "" ∧ ¬ v.intact then .malformed else .unfit)
    | some a, .null, [] => .ok a
    | some _, .null, _ :: _ => .error .malformed
    | some a, .obj [], [] => if wasRead then .ok a else .error .unfit
    | some _, v, _ => refuse v
  | _ => .error .malformed

def splitTag (tag : String) (variants : List String) (levels : Nat) :
    List (String × Json) → Except Fault (Option String × List (String × Json))
  | [] => .ok (none, [])
  | (name, v) :: rest =>
    if name = tag then do
      let variant ← string v
      if variants.contains variant then
        let (again, others) ← splitTag tag variants levels rest
        if again.isSome then .error .unfit else .ok (some variant, others)
      else .error .unfit
    else if v.readable levels then do
      let (variant, others) ← splitTag tag variants levels rest
      .ok (variant, (name, v) :: others)
    else .error .malformed

/-- The variant a value names, and what is left for the variant's own fields. At most `levels`
containers may nest in these. An array starts with the name of the variant. -/
def tagged (tag : String) (variants : List String) (levels : Nat) :
    Json → Except Fault (String × Json)
  | .obj entries => do
    match ← splitTag tag variants levels entries with
    | (some variant, others) => .ok (variant, .obj others)
    | (none, _) => .error .unfit
  | .arr (v :: items) => do
    let variant ← string v
    if ¬ variants.contains variant then .error .unfit
    else if readableItems levels items then .ok (variant, .arr items)
    else .error .malformed
  | .arr [] => .error .unfit
  | v => refuse v

def nothing : Decoder Unit
  | .obj _ => .ok ()
  | .arr [] => .ok ()
  | v => refuse v

def decodeDocument {α : Type} (decode : Decoder α) (d : Document) : Except Fault α := do
  let a ← decode d.value
  if d.ended then .ok a else .error .malformed

end ServiceRegistry.Json
