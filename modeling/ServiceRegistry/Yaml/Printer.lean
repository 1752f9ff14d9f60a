import ServiceRegistry.Decimal.Shortest
import ServiceRegistry.Json.Basic
import ServiceRegistry.Yaml.Gap
import ServiceRegistry.Yaml.Scalar

/-!
# Writing YAML text

Block style with two blanks for each level; a list inside an object is not indented. Strings
are written plain where that reads back as the same string, else quoted, and over several
lines if they have line feeds.
-/

namespace ServiceRegistry.Yaml

set_option autoImplicit false

def endsWord : Option Char → Bool
  | none => true
  | some c => c == ' ' || c == '\t' || c == '\x00' || isBreak c

def isPrintable (c : Char) : Bool :=
  let n := c.toNat
  n == 0x0A || (0x20 ≤ n && n ≤ 0x7E) || (0xA0 ≤ n && n ≤ 0xFFFD && n != 0xFEFF) || 0x10000 ≤ n

/-- Whether a character that starts a plain text would be taken for something else. -/
def startsOther (c : Char) (next : Option Char) : Bool :=
  "#,[]\x7b\x7d&*!|>'\"%@\x60".toList.contains c ||
    (endsWord next && (c == '?' || c == ':' || c == '-'))

def meansOther (before c : Char) (next : Option Char) : Bool :=
  (c == ':' && endsWord next) || (c == '#' && endsWord (some before))

def anyMeansOther : Char → List Char → Bool
  | _, [] => false
  | before, c :: rest => meansOther before c rest.head? || anyMeansOther c rest

structure Shape where
  indicators : Bool
  breaks : Bool
  special : Bool
  blankEdge : Bool
  trailingBlank : Bool
  blankAfterBreak : Bool
  blankBeforeBreak : Bool
  deriving DecidableEq, Repr

def anyPair (p : Char → Char → Bool) : List Char → Bool
  | a :: b :: rest => p a b || anyPair p (b :: rest)
  | _ => false

def shapeOf (cs : List Char) : Shape :=
  let isEdge (c : Option Char) := c.any fun c => c == ' ' || isBreak c
  { indicators :=
      cs.take 3 = ['-', '-', '-'] || cs.take 3 = ['.', '.', '.'] ||
        match cs with
        | [] => false
        | c :: rest => startsOther c rest.head? || anyMeansOther c rest
    breaks := cs.any isBreak
    special := cs.any fun c => !isPrintable c
    blankEdge := isEdge cs.head? || isEdge cs.getLast?
    trailingBlank := cs.getLast? = some ' '
    blankAfterBreak := anyPair (fun a b => isBreak a && b == ' ') cs
    blankBeforeBreak := anyPair (fun a b => a == ' ' && isBreak b) cs }

inductive Style where
  | plain
  | single
  | double
  | literal
  deriving DecidableEq, Repr

def styleOf (s : String) : Style :=
  let cs := s.toList
  let shape := shapeOf cs
  let quoted : Style :=
    if shape.special || shape.blankAfterBreak || shape.blankBeforeBreak then .double else .single
  if cs.contains '\n' then
    if shape.special || shape.blankBeforeBreak || shape.trailingBlank then .double else .literal
  else
    match resolve s with
    | .text =>
      if isZeroPadded cs || shape.indicators || shape.blankEdge || shape.breaks || shape.special
        then quoted
      else .plain
    | _ => quoted

def upperHex (n : Nat) : Char := (Text.hexDigit n).toUpper

def hexText : Nat → Nat → List Char
  | 0, _ => []
  | digits + 1, n => hexText digits (n / 16) ++ [upperHex (n % 16)]

def escapeChar (c : Char) : List Char :=
  let n := c.toNat
  match n with
  | 0 => ['\\', '0']
  | 7 => ['\\', 'a']
  | 8 => ['\\', 'b']
  | 9 => ['\\', 't']
  | 10 => ['\\', 'n']
  | 11 => ['\\', 'v']
  | 12 => ['\\', 'f']
  | 13 => ['\\', 'r']
  | 0x1B => ['\\', 'e']
  | 0x22 => ['\\', '"']
  | 0x5C => ['\\', '\\']
  | 0x85 => ['\\', 'N']
  | 0x2028 => ['\\', 'L']
  | 0x2029 => ['\\', 'P']
  | _ =>
    if isPrintable c then [c]
    else if n ≤ 0xFF then '\\' :: 'x' :: hexText 2 n
    else if n ≤ 0xFFFF then '\\' :: 'u' :: hexText 4 n
    else '\\' :: 'U' :: hexText 8 n

def blanks (n : Nat) : List Char := List.replicate n ' '

/-- The inside of single quotes. A line feed is doubled to outlast folding, and lines after a
break are indented. -/
def singleQuoted (indent : Nat) : Bool → List Char → List Char
  | atBreak, [] => if atBreak then blanks indent else []
  | atBreak, c :: rest =>
    if isBreak c then
      (if !atBreak && c == '\n' then ['\n'] else []) ++ c :: singleQuoted indent true rest
    else
      (if atBreak then blanks indent else []) ++
        (if c == '\x27' then ['\x27', '\x27'] else [c]) ++ singleQuoted indent false rest

def literalLines (indent : Nat) : Bool → List Char → List Char
  | _, [] => []
  | atBreak, c :: rest =>
    if isBreak c then c :: literalLines indent true rest
    else (if atBreak then blanks indent else []) ++ c :: literalLines indent false rest

/-- How a literal text starts and ends: a leading blank needs the indentation said, a text
without a final break or with more than one needs that said. -/
def literalHeader (cs : List Char) : List Char :=
  let hint := if cs.head?.any fun c => c == ' ' || isBreak c then ['2'] else []
  let chomp := match cs.reverse with
    | [] => ['-']
    | [c] => if isBreak c then ['+'] else ['-']
    | c :: d :: _ => if !isBreak c then ['-'] else if isBreak d then ['+'] else []
  '|' :: hint ++ chomp ++ ['\n']

def stringText (s : String) (indent : Nat) : List Char :=
  let cs := s.toList
  match styleOf s with
  | .plain => cs
  | .single => '\x27' :: singleQuoted indent false cs ++ ['\x27']
  | .double => '"' :: cs.flatMap escapeChar ++ ['"']
  | .literal => literalHeader cs ++ literalLines indent true cs

def endLine (cs : List Char) : List Char :=
  if cs.getLast?.any isBreak then cs else cs ++ ['\n']

def floatLiteral (x : Float) : String :=
  if x.isNaN then ".nan"
  else if x.isInf then (if x < 0 then "-.inf" else ".inf")
  else Decimal.compactText x

/-- A name stands in front of its colon if it is short and on one line. -/
def isSimpleName (s : String) : Bool := s.utf8ByteSize ≤ 128 && !s.toList.any isBreak

inductive Place where
  | root
  | named
  | marked
  deriving DecidableEq, Repr

def Place.blockIndent (place : Place) (indent : Nat) (isList : Bool) : Nat :=
  match place with
  | .root => 0
  | .named => if isList then indent else indent + 2
  | .marked => indent + 2

def Place.lead : Place → List Char
  | .root => []
  | .named => ['\n']
  | .marked => [' ']

def Place.firstIndent (place : Place) (indent : Nat) : Nat :=
  match place with
  | .named => indent
  | _ => 0

def inline (place : Place) (cs : List Char) : List Char :=
  endLine ((if place = .root then [] else [' ']) ++ cs)

mutual

def block (v : Json) (indent : Nat) (place : Place) : List Char :=
  match v with
  | .null => inline place "null".toList
  | .bool b => inline place (if b then "true".toList else "false".toList)
  | .int n => inline place (toString n).toList
  | .float x => inline place (floatLiteral x).toList
  | .str s => inline place (stringText s (if place = .root then 2 else indent + 2))
  | .arr [] => inline place ['[', ']']
  | .obj [] => inline place ['\x7b', '\x7d']
  | .arr items =>
    let inner := place.blockIndent indent true
    place.lead ++ blockItems items inner (place.firstIndent inner)
  | .obj entries =>
    let inner := place.blockIndent indent false
    place.lead ++ blockEntries entries inner (place.firstIndent inner)
  | .unreadable _ => inline place "null".toList

def blockItems (items : List Json) (indent first : Nat) : List Char :=
  match items with
  | [] => []
  | v :: rest => blanks first ++ '-' :: block v indent .marked ++ blockItems rest indent indent

def blockEntries (entries : List (String × Json)) (indent first : Nat) : List Char :=
  match entries with
  | [] => []
  | (name, v) :: rest =>
    blanks first ++
      (if isSimpleName name then stringText name (indent + 2) ++ ':' :: block v indent .named
       else
        '?' :: inline .marked (stringText name (indent + 2)) ++
          blanks indent ++ ':' :: block v indent .marked) ++
      blockEntries rest indent indent

end

def render (v : Json) : String := String.ofList (block v 0 .root)

end ServiceRegistry.Yaml
