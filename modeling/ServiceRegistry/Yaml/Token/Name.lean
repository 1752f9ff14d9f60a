import ServiceRegistry.Text.Percent
import ServiceRegistry.Yaml.Gap
import ServiceRegistry.Yaml.Token

/-!
# Anchors, tags and directives

Each reader takes the text behind the indicator and gives what it has read with the rest.
-/

namespace ServiceRegistry.Yaml

set_option autoImplicit false

def isWordChar (c : Char) : Bool := c.isAlphanum || c == '_' || c == '-'

def wordAt (cs : List Char) : List Char × List Char :=
  (cs.takeWhile isWordChar, cs.dropWhile isWordChar)

def anchorName (cs : List Char) : Option (String × List Char) :=
  let (name, rest) := wordAt cs
  let ended := endsHere rest || rest.head?.any ("?:,]\x7d%@\x60".toList.contains ·)
  if name.isEmpty ∨ ¬ ended then none else some (String.ofList name, rest)

def isTagChar (verbatim : Bool) (c : Char) : Bool :=
  isWordChar c || ";/?:@&=+$.%!~*\x27()".toList.contains c || (verbatim && ",[]".toList.contains c)

def percentsHold : List Char → Bool
  | [] => true
  | '%' :: a :: b :: rest =>
    (Text.hexValue a).isSome && (Text.hexValue b).isSome && percentsHold rest
  | c :: rest => c != '%' && percentsHold rest

def tagText (verbatim : Bool) (cs : List Char) : Option (String × List Char) :=
  let text := cs.takeWhile (isTagChar verbatim)
  if percentsHold text then
    (Text.percentDecode? text).map (·, cs.dropWhile (isTagChar verbatim))
  else none

/-- A word between exclamation marks, the first of which has been read. -/
def tagHandle (cs : List Char) : Option (String × List Char) :=
  match wordAt cs with
  | (word, '!' :: rest) => some ("!" ++ String.ofList word ++ "!", rest)
  | _ => none

def nonempty (t : String × List Char) : Option (String × List Char) :=
  if t.1.isEmpty then none else some t

def tagParts : List Char → Option ((String × String) × List Char)
  | '<' :: cs =>
    match (tagText true cs).bind nonempty with
    | some (suffix, '>' :: rest) => some (("", suffix), rest)
    | _ => none
  | cs =>
    match tagHandle cs with
    | some (handle, rest) =>
      ((tagText false rest).bind nonempty).map fun (suffix, rest) => ((handle, suffix), rest)
    | none => (tagText false cs).map fun (suffix, rest) =>
        (if suffix.isEmpty then ("", "!") else ("!", suffix), rest)

/-- A tag ends at a gap or, between brackets, at a comma. -/
def tagAt (inFlow : Bool) (cs : List Char) : Option (Token × List Char) := do
  let ((handle, suffix), rest) ← tagParts cs
  if endsHere rest ∨ (inFlow ∧ rest.head? = some ',') then some (.tag handle suffix, rest) else none

def versionNumber (cs : List Char) : Option (Nat × List Char) :=
  let digits := cs.takeWhile Char.isDigit
  if digits.isEmpty ∨ 9 < digits.length then none
  else some (digits.foldl (fun n c => 10 * n + (c.toNat - '0'.toNat)) 0, cs.dropWhile Char.isDigit)

def versionAt (cs : List Char) : Option (Token × List Char) := do
  let (major, rest) ← versionNumber cs
  match rest with
  | '.' :: rest =>
    let (minor, rest) ← versionNumber rest
    return (.version major minor, rest)
  | _ => none

def handleAt : List Char → Option (Token × List Char)
  | '!' :: cs => do
    let (handle, rest) := (tagHandle cs).getD ("!", cs)
    if ¬ rest.head?.any isSpace then none
    let (expansion, rest) ← (tagText true (rest.dropWhile isSpace)).bind nonempty
    if endsHere rest then some (.tagHandle handle expansion, rest) else none
  | _ => none

def directiveAt (cs : List Char) : Option (Token × List Char) := do
  let (name, rest) := wordAt cs
  let argument := rest.dropWhile isSpace
  let (token, rest) ←
    if ¬ endsHere rest then none
    else if name = "YAML".toList then versionAt argument
    else if name = "TAG".toList then handleAt argument
    else none
  let rest := dropComment rest
  if rest.head?.all isBreak then some (token, rest) else none

end ServiceRegistry.Yaml
