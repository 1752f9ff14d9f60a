import ServiceRegistry.Decimal.Literal
import ServiceRegistry.Text.Units

/-!
# Untyped scalars

What a plain scalar of a YAML text stands for when nothing else says so. Whole numbers may be
in base 2, 8, 10 or 16; a decimal with a leading zero is a text.
-/

namespace ServiceRegistry.Yaml

set_option autoImplicit false

inductive Plain where
  | null
  | bool (b : Bool)
  | int (n : Int)
  | float (x : Float)
  | text

def isNullWord (s : String) : Bool := ["null", "Null", "NULL", "~"].contains s

def boolWord (s : String) : Option Bool :=
  if ["true", "True", "TRUE"].contains s then some true
  else if ["false", "False", "FALSE"].contains s then some false
  else none

def isZeroPadded (cs : List Char) : Bool :=
  let digits := match cs with
    | '+' :: r => r
    | '-' :: r => r
    | r => r
  match digits with
  | '0' :: d :: r => (d :: r).all Char.isDigit
  | _ => false

def digitsIn (base : Nat) (cs : List Char) : Option Nat :=
  if cs.isEmpty then none
  else cs.foldlM (fun n c =>
    (Text.hexValue c).bind fun d => if d < base then some (base * n + d) else none) 0

def markedDigits : List Char → Option Nat
  | '0' :: 'x' :: r => digitsIn 16 r
  | '0' :: 'o' :: r => digitsIn 8 r
  | '0' :: 'b' :: r => digitsIn 2 r
  | _ => none

def unsignedInt (cs : List Char) : Option Nat :=
  let bare := match cs with
    | '+' :: r => r
    | r => r
  (markedDigits bare).or (if isZeroPadded cs then none else digitsIn 10 bare)

def negativeInt : List Char → Option Int
  | '-' :: r =>
    ((markedDigits r).or (if isZeroPadded r then none else digitsIn 10 r)).map fun n => -(n : Int)
  | _ => none

/-- A decimal whose point may stand at either end of the digits, in the usual notation. -/
def decimalLiteral (cs : List Char) : Option Decimal.Literal :=
  let (negative, cs) := match cs with
    | '-' :: r => (true, r)
    | '+' :: r => (false, r)
    | r => (false, r)
  let whole := cs.takeWhile Char.isDigit
  let rest := cs.dropWhile Char.isDigit
  let (fraction, rest) := match rest with
    | '.' :: r => (some (r.takeWhile Char.isDigit), r.dropWhile Char.isDigit)
    | r => (none, r)
  if whole.isEmpty && (fraction.getD []).isEmpty then none
  else match rest with
    | [] => some ⟨negative, whole, fraction, none⟩
    | e :: r =>
      if e = 'e' ∨ e = 'E' then
        let (minus, digits) := match r with
          | '+' :: r => (false, r)
          | '-' :: r => (true, r)
          | r => (false, r)
        if digits.isEmpty ∨ ¬ digits.all Char.isDigit then none
        else
          let n : Int := Decimal.natOfDigits digits
          some ⟨negative, whole, fraction, some (if minus then -n else n)⟩
      else none

def floatText (s : String) : Option Float :=
  let bare := match s.toList with
    | '+' :: r => r
    | r => r
  let word := String.ofList bare
  if s.toList.head? = some '+' ∧ (bare.head? = some '+' ∨ bare.head? = some '-') then none
  else if [".inf", ".Inf", ".INF"].contains word then some (1 / 0)
  else if ["-.inf", "-.Inf", "-.INF"].contains s then some (-1 / 0)
  else if [".nan", ".NaN", ".NAN"].contains s then some (0 / 0)
  else (decimalLiteral bare).bind (·.toFloat)

def resolve (s : String) : Plain :=
  let cs := s.toList
  if cs.isEmpty || isNullWord s then .null
  else match boolWord s with
    | some b => .bool b
    | none =>
      match unsignedInt cs, negativeInt cs with
      | some n, _ => if n < 1 <<< 128 then .int n else number s
      | none, some n => if -(1 <<< 127 : Nat) ≤ n then .int n else number s
      | none, none => number s
where
  number (s : String) : Plain :=
    if isZeroPadded s.toList then .text
    else match floatText s with
      | some x => .float x
      | none => .text

end ServiceRegistry.Yaml
