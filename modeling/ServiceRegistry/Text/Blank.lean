/-!
# Blank and control characters

`isBlank` is the Unicode property White_Space, `isControl` the general category Cc.
Trimming removes the blank characters at both ends and nothing else.
-/

namespace ServiceRegistry.Text

set_option autoImplicit false

def isBlank (c : Char) : Bool :=
  let n := c.toNat
  (9 ≤ n && n ≤ 13) || n == 0x20 || n == 0x85 || n == 0xA0 || n == 0x1680 ||
  (0x2000 ≤ n && n ≤ 0x200A) || n == 0x2028 || n == 0x2029 || n == 0x202F ||
  n == 0x205F || n == 0x3000

def isControl (c : Char) : Bool :=
  let n := c.toNat
  n < 0x20 || (0x7F ≤ n && n ≤ 0x9F)

def dropEndWhile (p : Char → Bool) (cs : List Char) : List Char :=
  (cs.reverse.dropWhile p).reverse

def trimChars (cs : List Char) : List Char :=
  dropEndWhile isBlank (cs.dropWhile isBlank)

def trim (s : String) : String :=
  String.ofList (trimChars s.toList)

/-- ASCII letters to upper case, all else as it is. -/
def upper (s : String) : String :=
  s.map Char.toUpper

def lower (s : String) : String :=
  s.map Char.toLower

def sameLetters (s t : String) : Bool :=
  upper s == upper t

end ServiceRegistry.Text
