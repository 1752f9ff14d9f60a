import ServiceRegistry.Yaml.Gap

/-!
# Scalars without quotes

They end at a colon or a comment that stands apart, at an indicator of the collection around
them, or at a line that is not indented enough.
-/

namespace ServiceRegistry.Yaml

set_option autoImplicit false

def isFlowIndicator (c : Char) : Bool := [',', '[', ']', '\x7b', '\x7d'].contains c

/-- The visible characters up to the next gap or end of the scalar. Between brackets a colon
may not touch an indicator. -/
def visibleRun (inFlow : Bool) : List Char → Option (List Char × List Char)
  | [] => some ([], [])
  | c :: rest =>
    if isGap c then some ([], c :: rest)
    else if c = ':' ∧ inFlow ∧ rest.head?.any (fun d => isFlowIndicator d || d == '?') then none
    else if (c = ':' ∧ endsHere rest) ∨ (inFlow ∧ isFlowIndicator c) then some ([], c :: rest)
    else (visibleRun inFlow rest).map fun (run, rest) => (c :: run, rest)

structure Unquoted where
  text : List Char
  broken : Bool
  rest : List Char

def unquotedRuns (inFlow : Bool) (margin : Nat) :
    Nat → Nat → List Char → List Char → Option Unquoted
  | 0, _, _, _ => none
  | fuel + 1, column, gap, cs =>
    if (column = 0 ∧ isDocumentMark cs) ∨ cs.head? = some '#' then
      some ⟨[], gap.any isBreak, cs⟩
    else do
      let (run, rest) ← visibleRun inFlow cs
      let text := if run.isEmpty then [] else foldGap gap ++ run
      let after := rest.takeWhile isGap
      if after.isEmpty then return ⟨text, run.isEmpty && gap.any isBreak, rest⟩
      else if tabBeforeMargin margin after then none
      else
        let column := columnAfter (column + run.length) after
        let rest := rest.dropWhile isGap
        if ¬ inFlow ∧ column < margin then return ⟨text, after.any isBreak, rest⟩
        else
          let more ← unquotedRuns inFlow margin fuel column after rest
          return { more with text := text ++ more.text }

def unquoted (inFlow : Bool) (margin column : Nat) (cs : List Char) : Option Unquoted :=
  unquotedRuns inFlow margin (cs.length + 1) column [] cs

end ServiceRegistry.Yaml
