/-!
# Whole numbers in decimal
-/

namespace ServiceRegistry.Text

set_option autoImplicit false

def wholeNumber (signed : Bool) (text : String) : Option Int :=
  let (negative, digits) := match text.toList with
    | '+' :: rest => (false, rest)
    | '-' :: rest => (true, rest)
    | rest => (false, rest)
  if digits.isEmpty ∨ ¬ digits.all Char.isDigit ∨ (negative ∧ ¬ signed) then none
  else
    let n : Int := digits.foldl (fun n c => 10 * n + (c.toNat - '0'.toNat)) 0
    some (if negative then -n else n)

end ServiceRegistry.Text
