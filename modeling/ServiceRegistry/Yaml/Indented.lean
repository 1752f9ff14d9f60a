import ServiceRegistry.Yaml.Gap

/-!
# Indented scalars

The lines behind a bar stand as they are, and those behind a greater-than sign are folded. The
first line that is not empty fixes the indentation, unless a digit in the header does.
-/

namespace ServiceRegistry.Yaml

set_option autoImplicit false

inductive Chomping where
  | strip
  | clip
  | keep
  deriving DecidableEq, Repr

structure IndentedHeader where
  chomping : Chomping := .clip
  increment : Option Nat := none

def Chomping.ofChar? : Char → Option Chomping
  | '+' => some .keep
  | '-' => some .strip
  | _ => none

def incrementOf? (c : Char) : Option Nat :=
  if c.isDigit ∧ c ≠ '0' then some (c.toNat - '0'.toNat) else none

def IndentedHeader.read (cs : List Char) : IndentedHeader × List Char :=
  match cs with
  | [] => ({}, [])
  | c :: rest =>
    match Chomping.ofChar? c, incrementOf? c with
    | some chomping, _ =>
      match rest.head?.bind incrementOf? with
      | some n => (⟨chomping, some n⟩, rest.tail)
      | none => (⟨chomping, none⟩, rest)
    | none, some n =>
      match rest.head?.bind Chomping.ofChar? with
      | some chomping => (⟨chomping, some n⟩, rest.tail)
      | none => (⟨.clip, some n⟩, rest)
    | none, none => ({}, cs)

structure EmptyLines where
  breaks : List Char
  widest : Nat
  column : Nat
  rest : List Char

/-- Passes over empty lines. Up to the indentation, or as long as it is unknown, a line may be
indented by blanks only. -/
def emptyLines (indentation : Option Nat) : Nat → Nat → List Char → Option EmptyLines
  | 0, _, _ => none
  | fuel + 1, widest, cs =>
    let blanks := (cs.takeWhile (· == ' ')).length
    let column := (indentation.map (min blanks)).getD blanks
    let widest := max widest column
    match cs.drop column with
    | c :: rest =>
      if c = '\t' ∧ indentation.all (column < ·) then none
      else if isBreak c then
        (emptyLines indentation fuel widest rest).map fun e => { e with breaks := c :: e.breaks }
      else some ⟨[], widest, column, c :: rest⟩
    | [] => some ⟨[], widest, column, []⟩

structure Lines where
  text : List Char
  lastBreak : List Char
  breaks : List Char
  rest : List Char

/-- What joins two lines: folded, a line feed between lines that do not start with a blank is a
blank itself, or nothing if empty lines follow it. -/
def joint (folded : Bool) (lastBreak breaks : List Char) (afterBlank beforeBlank : Bool) :
    List Char :=
  if folded ∧ lastBreak.head? = some '\n' ∧ ¬ afterBlank ∧ ¬ beforeBlank then
    if breaks.isEmpty then [' '] else breaks
  else lastBreak ++ breaks

def indentedLines (folded : Bool) (indentation : Nat) :
    Nat → List Char → Bool → EmptyLines → Option Lines
  | 0, _, _, _ => none
  | fuel + 1, lastBreak, afterBlank, e =>
    if e.column ≠ indentation ∨ e.rest.isEmpty then some ⟨[], lastBreak, e.breaks, e.rest⟩
    else do
      let beforeBlank := e.rest.head?.any isSpace
      let behind := dropLine e.rest
      let next ← emptyLines (some indentation) (behind.length + 1) 0 (behind.drop 1)
      let more ← indentedLines folded indentation fuel (behind.take 1) beforeBlank next
      return { more with
        text := joint folded lastBreak e.breaks afterBlank beforeBlank ++ restOfLine e.rest ++
          more.text }

def indented (folded : Bool) (margin : Nat) (cs : List Char) : Option (List Char × List Char) := do
  let (header, rest) := IndentedHeader.read cs
  let rest := dropComment rest
  if ¬ rest.head?.all isBreak then none
  let known := header.increment.map (margin - 1 + ·)
  let e ← emptyLines known (rest.length + 1) 0 (rest.drop 1)
  let indentation := known.getD (max e.widest (max margin 1))
  let lines ← indentedLines folded indentation (rest.length + 1) [] false e
  let ending := match header.chomping with
    | .strip => []
    | .clip => lines.lastBreak
    | .keep => lines.lastBreak ++ lines.breaks
  return (lines.text ++ ending, lines.rest)

end ServiceRegistry.Yaml
