/-!
# Blanks and line ends of a YAML text

A gap is a run of blanks and line ends between the visible parts of a text. Inside a scalar a
gap on one line stands as it is, and a gap over several lines is folded.
-/

namespace ServiceRegistry.Yaml

set_option autoImplicit false

/-- Characters that may stand in a text; other controls and two code points at the end of the
basic plane may not. -/
def isAllowed (c : Char) : Bool :=
  let n := c.toNat
  n == 0x09 || n == 0x0A || n == 0x0D || (0x20 ≤ n && n ≤ 0x7E) || n == 0x85 ||
    (0xA0 ≤ n && n ≤ 0xFFFD) || 0x10000 ≤ n

/-- Writes the usual line ends as one line feed each; the line and paragraph separators stay. -/
def normalizeBreaks : List Char → List Char
  | '\r' :: '\n' :: rest => '\n' :: normalizeBreaks rest
  | c :: rest => (if c = '\r' ∨ c = '\u0085' then '\n' else c) :: normalizeBreaks rest
  | [] => []

def isBreak (c : Char) : Bool :=
  c == '\n' || c == '\r' || c == '\x85' || c == '\u2028' || c == '\u2029'

def isSpace (c : Char) : Bool := c == ' ' || c == '\t'

def isGap (c : Char) : Bool := isSpace c || isBreak c

def endsHere (cs : List Char) : Bool := cs.head?.all isGap

def restOfLine (cs : List Char) : List Char := cs.takeWhile (!isBreak ·)

def dropLine (cs : List Char) : List Char := cs.dropWhile (!isBreak ·)

def dropComment (cs : List Char) : List Char :=
  match cs.dropWhile isSpace with
  | '#' :: rest => dropLine rest
  | rest => rest

def isDocumentMark : List Char → Bool
  | '-' :: '-' :: '-' :: rest => endsHere rest
  | '.' :: '.' :: '.' :: rest => endsHere rest
  | _ => false

def columnAfter (column : Nat) (cs : List Char) : Nat :=
  cs.foldl (fun k c => if isBreak c then 0 else k + 1) column

def tabBeforeMargin (margin : Nat) (gap : List Char) : Bool :=
  go 0 (gap.dropWhile (!isBreak ·))
where
  go (column : Nat) : List Char → Bool
    | [] => false
    | c :: rest =>
      if isBreak c then go 0 rest else (c == '\t' && column < margin) || go (column + 1) rest

/-- What a gap inside a scalar stands for: one line feed is a blank, of several the first does
not count, and blanks beside a line end are dropped. -/
def foldGap (gap : List Char) : List Char :=
  match gap.filter isBreak with
  | [] => gap
  | ['\n'] => [' ']
  | '\n' :: more => more
  | breaks => breaks

end ServiceRegistry.Yaml
