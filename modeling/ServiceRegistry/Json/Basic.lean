/-!
# JSON values

Whole numbers and other numbers are kept apart, and an object keeps its entries in the order
of the text, repeated names included. `unreadable` stands where a text offers no value: what
it is read as is always refused, but a reader that passes over it may go on if it is skippable.
-/

namespace ServiceRegistry

set_option autoImplicit false

inductive Json where
  | null
  | bool (b : Bool)
  | int (n : Int)
  | float (x : Float)
  | str (s : String)
  | arr (items : List Json)
  | obj (entries : List (String × Json))
  | unreadable (skippable : Bool)
  deriving Inhabited

namespace Json

mutual

def intact : Json → Bool
  | .unreadable skippable => skippable
  | .arr items => intactItems items
  | .obj entries => intactEntries entries
  | _ => true

def intactItems : List Json → Bool
  | [] => true
  | v :: rest => intact v && intactItems rest

def intactEntries : List (String × Json) → Bool
  | [] => true
  | (_, v) :: rest => intact v && intactEntries rest

end

mutual

def readable (levels : Nat) : Json → Bool
  | .unreadable _ => false
  | .arr items =>
    match levels with
    | 0 => false
    | levels + 1 => readableItems levels items
  | .obj entries =>
    match levels with
    | 0 => false
    | levels + 1 => readableEntries levels entries
  | _ => true

def readableItems (levels : Nat) : List Json → Bool
  | [] => true
  | v :: rest => readable levels v && readableItems levels rest

def readableEntries (levels : Nat) : List (String × Json) → Bool
  | [] => true
  | (_, v) :: rest => readable levels v && readableEntries levels rest

end

/-- Puts an entry in its place by name, instead of an earlier one of that name. -/
def putEntry (name : String) (v : Json) : List (String × Json) → List (String × Json)
  | [] => [(name, v)]
  | (n, w) :: rest =>
    if name < n then (name, v) :: (n, w) :: rest
    else if name = n then (name, v) :: rest
    else (n, w) :: putEntry name v rest

def sortEntries (entries : List (String × Json)) : List (String × Json) :=
  entries.foldl (fun sorted (name, v) => putEntry name v sorted) []

mutual

/-- Every object with its names in order, the last of each name standing for all. -/
def sorted : Json → Json
  | .arr items => .arr (sortedItems items)
  | .obj entries => .obj (sortEntries (sortedEntries entries))
  | v => v

def sortedItems : List Json → List Json
  | [] => []
  | v :: rest => sorted v :: sortedItems rest

def sortedEntries : List (String × Json) → List (String × Json)
  | [] => []
  | (name, v) :: rest => (name, sorted v) :: sortedEntries rest

end

def get? (v : Json) (name : String) : Option Json :=
  match v with
  | .obj entries => (entries.reverse.find? (·.1 == name)).map (·.2)
  | _ => none

end Json

end ServiceRegistry
