/-!
# Decimal literals

The grammar of a number shared by the text formats: a sign, digits, a fraction and a
power of ten. `toFloat` rounds to the nearest double and refuses what exceeds the range.
-/

namespace ServiceRegistry.Decimal

set_option autoImplicit false

def natOfDigits (cs : List Char) : Nat :=
  cs.foldl (fun n c => 10 * n + (c.toNat - '0'.toNat)) 0

/-- Nearest double to `mantissa * 10 ^ exponent`, up to sign; `none` beyond the largest.
Outside three hundred and odd digits the outcome is plain, so no large power is formed. -/
def toFloat (negative : Bool) (mantissa : Nat) (exponent : Int) : Option Float :=
  let magnitude : Float :=
    if mantissa = 0 then 0
    else
      let top := (mantissa.repr.length : Int) + exponent
      if top < -400 then 0
      else if 400 < top then 1 / 0
      else if exponent < 0 then Float.ofScientific mantissa true (-exponent).toNat
      else Float.ofScientific mantissa false exponent.toNat
  if magnitude.isInf then none
  else some (if negative then -magnitude else magnitude)

/-- A literal split into its parts; `fraction` and `exponent` are absent in a whole number. -/
structure Literal where
  negative : Bool
  whole : List Char
  fraction : Option (List Char)
  exponent : Option Int
  deriving DecidableEq, Repr

def Literal.isWhole (l : Literal) : Bool :=
  l.fraction.isNone && l.exponent.isNone

def Literal.toFloat (l : Literal) : Option Float :=
  let fraction := l.fraction.getD []
  Decimal.toFloat l.negative (natOfDigits (l.whole ++ fraction))
    (l.exponent.getD 0 - fraction.length)

def Literal.toInt (l : Literal) : Int :=
  let n : Int := natOfDigits l.whole
  if l.negative then -n else n

end ServiceRegistry.Decimal
