/-!
# The fewest digits that read back

A positive double is `m * 2 ^ q`. Among the decimals that round to it, the shortest is the
one on the coarsest decimal grid that has a point in the rounding interval; of two such
neighbours the nearer is taken. All arithmetic is exact, in quarters of `2 ^ q`.
-/

namespace ServiceRegistry.Decimal

set_option autoImplicit false

/-- A finite double as sign, significand and binary exponent. -/
structure Binary where
  negative : Bool
  significand : Nat
  exponent : Int
  deriving DecidableEq, Repr

def Binary.ofFloat (x : Float) : Binary :=
  let bits : Nat := x.toBits.toNat
  let fraction : Nat := bits % (1 <<< 52)
  let biased : Nat := (bits >>> 52) % 2048
  { negative := 1 <<< 63 ≤ bits
    significand := if biased = 0 then fraction else 1 <<< 52 + fraction
    exponent := if biased = 0 then -1074 else (biased : Int) - 1075 }

/-- The reals that round to a double, in quarters of its last place. -/
structure Interval where
  lower : Nat
  value : Nat
  upper : Nat
  closed : Bool
  deriving DecidableEq, Repr

def Binary.interval (b : Binary) : Interval :=
  let m := b.significand
  { lower := if m = 1 <<< 52 ∧ b.exponent ≠ -1074 then 4 * m - 1 else 4 * m - 2
    value := 4 * m
    upper := 4 * m + 2
    closed := m % 2 = 0 }

def powerOf (base : Nat) (e : Int) : Nat := base.pow e.toNat

def gridPoint (b : Binary) (k : Int) : Option Nat :=
  let i := b.interval
  let q := b.exponent - 2
  let scale := powerOf 2 q * powerOf 10 (-k)
  let step := powerOf 10 k * powerOf 2 (-q)
  let lower := i.lower * scale
  let upper := i.upper * scale
  let value := i.value * scale
  let inside (c : Nat) : Bool :=
    if i.closed then lower ≤ c * step && c * step ≤ upper
    else lower < c * step && c * step < upper
  let below := value / step
  let above := below + 1
  let gapBelow := value - below * step
  let gapAbove := above * step - value
  match inside below && below != 0, inside above with
  | true, true =>
    if gapBelow < gapAbove ∨ (gapBelow = gapAbove ∧ below % 2 = 0) then some below
    else some above
  | true, false => some below
  | false, true => some above
  | false, false => none

/-- Digits `d` and exponent `k` of the shortest decimal `d * 10 ^ k` that reads back.
Every positive double lies strictly below `10 ^ 309` and on the grid of `10 ^ -1074`. -/
def shortest (b : Binary) : Nat × Int :=
  match (List.range 1384).findSome? fun (i : Nat) =>
      let k : Int := 309 - (i : Int)
      (gridPoint b k).map (·, k) with
  | some point => point
  | none => (0, 0)

def positional (d : Nat) (k : Int) : String :=
  let digits := d.repr
  if 0 ≤ k then digits ++ String.ofList (List.replicate k.toNat '0')
  else
    let places := (-k).toNat
    let padded := List.replicate (places + 1 - digits.length) '0' ++ digits.toList
    let whole := padded.take (padded.length - places)
    let fraction := padded.drop (padded.length - places)
    String.ofList (whole ++ '.' :: fraction)

/-- The text of a decimal `d * 10 ^ k` that always shows a point or an exponent: positional
from `10 ^ -5` up to `10 ^ 16`, scientific outside. -/
def compact (d : Nat) (k : Int) : String :=
  let digits := d.repr
  let point := (digits.length : Int) + k
  if 0 ≤ k ∧ point ≤ 16 then positional d k ++ ".0"
  else if -5 < point ∧ point ≤ 16 then positional d k
  else
    let mantissa := match digits.toList with
      | [] => ""
      | [c] => String.ofList [c]
      | c :: rest => String.ofList (c :: '.' :: rest)
    mantissa ++ "e" ++ toString (point - 1)

def signed (negative : Bool) (text : String) : String :=
  if negative then "-" ++ text else text

def plainText (x : Float) : String :=
  if x.isNaN then "NaN"
  else
    let b := Binary.ofFloat x
    if x.isInf then signed b.negative "inf"
    else if b.significand = 0 then signed b.negative "0"
    else let (d, k) := shortest b; signed b.negative (positional d k)

def compactText (x : Float) : String :=
  let b := Binary.ofFloat x
  if b.significand = 0 then signed b.negative "0.0"
  else let (d, k) := shortest b; signed b.negative (compact d k)

end ServiceRegistry.Decimal
