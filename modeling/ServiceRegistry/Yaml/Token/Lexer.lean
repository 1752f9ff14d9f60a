import ServiceRegistry.Yaml.Indented
import ServiceRegistry.Yaml.Quoted
import ServiceRegistry.Yaml.Token.Name
import ServiceRegistry.Yaml.Unquoted

/-!
# From a text to its tokens

The lexer keeps the columns of the open block collections and, for each open collection, the
token that a colon would make a key. Such a key lies on one line and within 1024 characters of
its colon; where a block mapping cannot go on without one, it is required.
-/

namespace ServiceRegistry.Yaml

set_option autoImplicit false

structure Mark where
  index : Nat := 0
  line : Nat := 0
  column : Nat := 0
  deriving DecidableEq, Repr

def Mark.past (m : Mark) (c : Char) : Mark :=
  if isBreak c then ⟨m.index + 1, m.line + 1, 0⟩ else ⟨m.index + 1, m.line, m.column + 1⟩

/-- A token that may turn out to start a key. -/
structure PossibleKey where
  required : Bool
  place : Nat
  mark : Mark
  deriving DecidableEq, Repr

structure Lexer where
  rest : List Char
  mark : Mark := {}
  columns : List Nat := []
  blockKey : Option PossibleKey := none
  flowKeys : List (Option PossibleKey) := []
  keyAllowed : Bool := true
  tokens : Array Token := #[]

namespace Lexer

def inFlow (l : Lexer) : Bool := !l.flowKeys.isEmpty

def margin (l : Lexer) : Nat := (l.columns.head?.map (· + 1)).getD 0

def moveTo (l : Lexer) (rest : List Char) : Lexer :=
  { l with rest, mark := (l.rest.take (l.rest.length - rest.length)).foldl Mark.past l.mark }

def push (l : Lexer) (t : Token) : Lexer := { l with tokens := l.tokens.push t }

def possibleKey (l : Lexer) : Option PossibleKey := l.flowKeys.head?.getD l.blockKey

def setKey (l : Lexer) (k : Option PossibleKey) : Lexer :=
  match l.flowKeys with
  | [] => { l with blockKey := k }
  | _ :: outer => { l with flowKeys := k :: outer }

/-- Gives up the possible key of the innermost collection, unless it is required. -/
def removeKey (l : Lexer) : Option Lexer :=
  if l.possibleKey.any (·.required) then none else some (l.setKey none)

def saveKey (l : Lexer) : Option Lexer :=
  if l.keyAllowed then
    l.removeKey.map (·.setKey (some
      { required := !l.inFlow && l.columns.head? == some l.mark.column
        place := l.tokens.size, mark := l.mark }))
  else some l

def refreshKey (now : Mark) : Option PossibleKey → Option (Option PossibleKey)
  | none => some none
  | some k =>
    if k.mark.line < now.line ∨ k.mark.index + 1024 < now.index then
      if k.required then none else some none
    else some (some k)

def refreshKeys (l : Lexer) : Option Lexer := do
  let blockKey ← refreshKey l.mark l.blockKey
  let flowKeys ← l.flowKeys.mapM (refreshKey l.mark)
  return { l with blockKey, flowKeys }

def closeBlocks (beyond : Nat → Bool) (l : Lexer) : Lexer :=
  if l.inFlow then l
  else
    { l with
      columns := l.columns.dropWhile beyond
      tokens := (l.columns.takeWhile beyond).foldl (fun ts _ => ts.push .blockEnd) l.tokens }

/-- Opens a block collection at a column, unless that is the innermost one already. -/
def openBlock (l : Lexer) (t : Token) (column place : Nat) : Lexer :=
  if l.inFlow ∨ column < l.margin then l
  else { l with columns := column :: l.columns, tokens := l.tokens.insertIdxIfInBounds place t }

def skipGap : Nat → Lexer → Lexer
  | 0, l => l
  | fuel + 1, l =>
    match l.rest with
    | [] => l
    | c :: rest =>
      if c = ' ' ∨ (c = '\t' ∧ (l.inFlow ∨ ¬ l.keyAllowed)) then skipGap fuel (l.moveTo rest)
      else if c = '#' then skipGap fuel (l.moveTo (dropLine rest))
      else if isBreak c then
        skipGap fuel { l.moveTo rest with keyAllowed := l.keyAllowed || !l.inFlow }
      else l

def separator (l : Lexer) (t : Token) (rest : List Char) : Option Lexer := do
  let l ← (l.closeBlocks fun _ => true).removeKey
  return ({ l with keyAllowed := false }.push t).moveTo rest

def openFlow (l : Lexer) (t : Token) (rest : List Char) : Option Lexer := do
  let l ← l.saveKey
  return ({ l with flowKeys := none :: l.flowKeys, keyAllowed := true }.push t).moveTo rest

def closeFlow (l : Lexer) (t : Token) (rest : List Char) : Option Lexer := do
  let l ← l.removeKey
  return ({ l with flowKeys := l.flowKeys.tail, keyAllowed := false }.push t).moveTo rest

def comma (l : Lexer) (rest : List Char) : Option Lexer := do
  let l ← l.removeKey
  return ({ l with keyAllowed := true }.push .comma).moveTo rest

def blockStart (l : Lexer) (t : Token) : Option Lexer :=
  if l.inFlow then some l
  else if l.keyAllowed then some (l.openBlock t l.mark.column l.tokens.size)
  else none

def dash (l : Lexer) (rest : List Char) : Option Lexer := do
  let l ← (← l.blockStart .blockSequence).removeKey
  return ({ l with keyAllowed := true }.push .entry).moveTo rest

def question (l : Lexer) (rest : List Char) : Option Lexer := do
  let l ← (← l.blockStart .blockMapping).removeKey
  return ({ l with keyAllowed := !l.inFlow }.push .key).moveTo rest

def colon (l : Lexer) (rest : List Char) : Option Lexer := do
  let l ← match l.possibleKey with
    | some k =>
      let l := { l with tokens := l.tokens.insertIdxIfInBounds k.place .key, keyAllowed := false }
      pure ((l.openBlock .blockMapping k.mark.column k.place).setKey none)
    | none =>
      let l ← l.blockStart .blockMapping
      pure { l with keyAllowed := !l.inFlow }
  return (l.push .value).moveTo rest

def keyToken (l : Lexer) (t : Token) (rest : List Char) : Option Lexer := do
  let l ← l.saveKey
  return ({ l with keyAllowed := false }.push t).moveTo rest

def named (l : Lexer) (t : String → Token) (cs : List Char) : Option Lexer := do
  let (name, rest) ← anchorName cs
  l.keyToken (t name) rest

def quotedToken (l : Lexer) (text : Option (List Char × List Char)) : Option Lexer := do
  let (text, rest) ← text
  l.keyToken (.scalar (String.ofList text) .quoted) rest

def indentedToken (l : Lexer) (style : ScalarStyle) (cs : List Char) : Option Lexer := do
  let l ← l.removeKey
  let (text, rest) ← indented (style = .folded) l.margin cs
  let l := { l with keyAllowed := true }
  return (l.push (.scalar (String.ofList text) style)).moveTo rest

def plainToken (l : Lexer) : Option Lexer := do
  let word ← unquoted l.inFlow l.margin l.mark.column l.rest
  let l ← l.keyToken (.scalar (String.ofList word.text) .plain) word.rest
  return { l with keyAllowed := word.broken }

def isIndicator (c : Char) : Bool := "-?:,[]\x7b\x7d#&*!|>\x27\"%@\x60".toList.contains c

def startsPlain (inFlow : Bool) : List Char → Bool
  | [] => false
  | c :: rest =>
    !(isGap c || isIndicator c) || (c == '-' && !rest.head?.any isSpace) ||
      (!inFlow && (c == '?' || c == ':') && !endsHere rest)

def token (l : Lexer) (c : Char) (rest : List Char) : Option Lexer :=
  let alone := endsHere rest
  if l.mark.column = 0 ∧ c = '%' then
    (directiveAt rest).bind fun (t, rest) => l.separator t rest
  else if l.mark.column = 0 ∧ isDocumentMark l.rest then
    l.separator (if c = '-' then .documentStart else .documentEnd) (rest.drop 2)
  else match c with
    | '[' => l.openFlow .flowSequence rest
    | '\x7b' => l.openFlow .flowMapping rest
    | ']' => l.closeFlow .flowSequenceEnd rest
    | '\x7d' => l.closeFlow .flowMappingEnd rest
    | ',' => l.comma rest
    | '*' => l.named .alias rest
    | '&' => l.named .anchor rest
    | '!' => (tagAt l.inFlow rest).bind fun (t, rest) => l.keyToken t rest
    | '\x27' => l.quotedToken (readSingle rest)
    | '"' => l.quotedToken (readDouble rest)
    | _ =>
      if c = '-' ∧ alone then l.dash rest
      else if c = '?' ∧ (l.inFlow ∨ alone) then l.question rest
      else if c = ':' ∧ (l.inFlow ∨ alone) then l.colon rest
      else if c = '|' ∧ ¬ l.inFlow then l.indentedToken .literal rest
      else if c = '>' ∧ ¬ l.inFlow then l.indentedToken .folded rest
      else if startsPlain l.inFlow (c :: rest) then l.plainToken
      else none

def run : Nat → Lexer → Option (Array Token)
  | 0, _ => none
  | fuel + 1, l => do
    let l ← (l.skipGap (l.rest.length + 1)).refreshKeys
    match l.rest with
    | [] => return (← (l.closeBlocks fun _ => true).removeKey).tokens
    | c :: rest => run fuel (← (l.closeBlocks (l.mark.column < ·)).token c rest)
where
  skipGap (l : Lexer) (fuel : Nat) : Lexer := Lexer.skipGap fuel l

end Lexer

/-- The tokens of a text; a mark of the byte order in front does not count. -/
def tokensOf (text : String) : Option (List Token) :=
  let cs := match text.toList with
    | '\ufeff' :: rest => rest
    | rest => rest
  if cs.all isAllowed then
    let cs := normalizeBreaks cs
    (Lexer.run (cs.length + 1) { rest := cs }).map Array.toList
  else none

end ServiceRegistry.Yaml
