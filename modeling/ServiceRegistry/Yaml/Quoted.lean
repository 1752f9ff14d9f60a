import ServiceRegistry.Text.Units
import ServiceRegistry.Yaml.Gap

/-!
# Quoted scalars

Between single quotes a quote is written twice. Between double quotes a backslash starts an
escape; at the end of a line it joins the next line without a blank.
-/

namespace ServiceRegistry.Yaml

set_option autoImplicit false

/-- A part of a quoted scalar that holds no gap, and whether an escaped line end follows it. -/
structure QuotedRun where
  text : List Char
  joined : Bool
  rest : List Char

def QuotedRun.cons (c : Char) (r : QuotedRun) : QuotedRun := { r with text := c :: r.text }

def singleRun : List Char → QuotedRun
  | '\x27' :: '\x27' :: rest => (singleRun rest).cons '\x27'
  | c :: rest =>
    if c = '\x27' ∨ isGap c then ⟨[], false, c :: rest⟩ else (singleRun rest).cons c
  | [] => ⟨[], false, []⟩

def escapes : List (Char × Char) :=
  [('0', '\x00'), ('a', '\x07'), ('b', '\x08'), ('t', '\t'), ('\t', '\t'), ('n', '\n'),
   ('v', '\x0b'), ('f', '\x0c'), ('r', '\r'), ('e', '\x1b'), (' ', ' '), ('"', '"'), ('/', '/'),
   ('\\', '\\'), ('N', '\u0085'), ('_', '\u00a0'), ('L', '\u2028'), ('P', '\u2029')]

def codePoint (digits : List Char) : Option Char :=
  (Text.hexNumber digits).bind fun n => if n.isValidChar then some (Char.ofNat n) else none

def doubleRun : List Char → Option QuotedRun
  | '\\' :: 'x' :: a :: b :: rest => escaped [a, b] (doubleRun rest)
  | '\\' :: 'u' :: a :: b :: c :: d :: rest => escaped [a, b, c, d] (doubleRun rest)
  | '\\' :: 'U' :: a :: b :: c :: d :: e :: f :: g :: h :: rest =>
    escaped [a, b, c, d, e, f, g, h] (doubleRun rest)
  | '\\' :: c :: rest =>
    if isBreak c then some ⟨[], true, rest⟩
    else (escapes.lookup c).bind fun d => (doubleRun rest).map (·.cons d)
  | c :: rest =>
    if c = '\\' then none
    else if c = '"' ∨ isGap c then some ⟨[], false, c :: rest⟩
    else (doubleRun rest).map (·.cons c)
  | [] => some ⟨[], false, []⟩
where
  escaped (digits : List Char) (r : Option QuotedRun) : Option QuotedRun :=
    (codePoint digits).bind fun c => r.map (·.cons c)

/-- Reads runs and the gaps between them up to the closing quote. A mark between documents may
not stand at the start of a line. -/
def quotedRuns (close : Char) (run : List Char → Option QuotedRun) :
    Nat → Bool → List Char → Option (List Char × List Char)
  | 0, _, _ => none
  | fuel + 1, atLineStart, cs =>
    if cs.isEmpty ∨ (atLineStart ∧ isDocumentMark cs) then none
    else do
      let r ← run cs
      if r.rest.head? = some close then return (r.text, r.rest.tail)
      let gap := r.rest.takeWhile isGap
      let joint := if r.joined then gap.filter isBreak else foldGap gap
      let atLineStart := (gap.getLast?.map isBreak).getD r.joined
      let (more, rest) ← quotedRuns close run fuel atLineStart (r.rest.dropWhile isGap)
      return (r.text ++ joint ++ more, rest)

def readSingle (cs : List Char) : Option (List Char × List Char) :=
  quotedRuns '\x27' (fun cs => some (singleRun cs)) (cs.length + 2) false cs

def readDouble (cs : List Char) : Option (List Char × List Char) :=
  quotedRuns '"' doubleRun (cs.length + 2) false cs

end ServiceRegistry.Yaml
