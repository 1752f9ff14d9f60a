import ServiceRegistry.Http.Message
import ServiceRegistry.Text.Percent
import ServiceRegistry.Text.Pieces
import ServiceRegistry.Text.Whole

/-!
# Paths and queries

The path is cut at its slashes before anything in it is decoded. In a query the pairs are cut
first, then names from values; a plus sign is a blank.
-/

namespace ServiceRegistry.Http

set_option autoImplicit false

/-- Controls, blanks and angle brackets have no place in a request line. -/
def isTarget (target : String) : Bool :=
  target.toList.all fun c => ' ' < c && c ≠ '<' && c ≠ '>' && c ≠ '\x7f'

def segments (target : String) : List (List Char) :=
  match Text.upTo '?' (Text.upTo '#' target.toList) with
  | '/' :: rest => Text.pieces '/' rest
  | _ => []

def queryText (target : String) : List Char :=
  ((Text.upTo '#' target.toList).dropWhile (· ≠ '?')).drop 1

abbrev Query := List (String × String)

def decodeField (cs : List Char) : String :=
  Text.percentDecodeLossy (cs.map fun c => if c = '+' then ' ' else c)

def decodePair (cs : List Char) : String × String :=
  (decodeField (Text.upTo '=' cs), decodeField ((cs.dropWhile (· ≠ '=')).drop 1))

def Query.ofTarget (target : String) : Query :=
  ((Text.pieces '&' (queryText target)).filter (!·.isEmpty)).map decodePair

def decodeSegment (cs : List Char) : Except Rejection String :=
  match Text.percentDecode? cs with
  | some s => .ok s
  | none => .error .path

namespace Query

/-- The value of a name, which may be given once. -/
def text? (q : Query) (name : String) : Except Rejection (Option String) :=
  match q.filter (·.1 = name) with
  | [] => .ok none
  | [(_, v)] => .ok (some v)
  | _ => .error .query

def within (q : Query) (name : String) (signed : Bool) (low high : Int) :
    Except Rejection (Option Int) := do
  match ← q.text? name with
  | none => return none
  | some v =>
    match Text.wholeNumber signed v with
    | some n => if low ≤ n ∧ n ≤ high then return some n else throw .query
    | none => throw .query

def uint64? (q : Query) (name : String) : Except Rejection (Option UInt64) := do
  return (← q.within name false 0 (UInt64.size - 1)).map fun n => UInt64.ofNat n.toNat

def int64? (q : Query) (name : String) : Except Rejection (Option Int64) := do
  return (← q.within name true Int64.minValue.toInt Int64.maxValue.toInt).map Int64.ofInt

end Query

end ServiceRegistry.Http
