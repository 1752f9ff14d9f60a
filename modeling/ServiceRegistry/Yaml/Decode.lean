import ServiceRegistry.Yaml.Node
import ServiceRegistry.Yaml.Scalar

/-!
# Typed reading of YAML documents

A plain scalar is read as the type that is asked for; a quoted one is a text and nothing else.
Where nothing is written, an optional value is missing, and a list or structure is empty.
-/

namespace ServiceRegistry.Yaml

set_option autoImplicit false

abbrev Decoder (α : Type) := Node → Option α

variable {α : Type}

def coreTag (name : String) : String := "tag:yaml.org,2002:" ++ name

/-- The text of a scalar that may stand for a value of another type: a plain one, or a literal
one with the tag of the type. -/
def untyped (type : String) : Decoder String
  | .scalar text .plain _ => some text
  | .scalar text .literal tag => if tag = some (coreTag type) then some text else none
  | _ => none

def string : Decoder String
  | .scalar text _ _ => some text
  | _ => none

def boolean : Decoder Bool := fun n => (untyped "bool" n).bind boolWord

def below (bound : Nat) : Decoder Nat := fun n => do
  let k ← unsignedInt (← untyped "int" n).toList
  if k < bound then some k else none

def uint16 : Decoder UInt16 := fun n => (below UInt16.size n).map UInt16.ofNat

def uint32 : Decoder Nat := below UInt32.size

def uint64 : Decoder Nat := below UInt64.size

def float : Decoder Float := fun n => (untyped "float" n).bind floatText

/-- A value, or a plain word for none. The tag of none admits nothing else. -/
def optional (decode : Decoder α) : Decoder (Option α)
  | .scalar text .plain tag =>
    if tag = some (coreTag "null") then if isNullWord text then some none else none
    else if text.isEmpty || isNullWord text then some none
    else (decode (.scalar text .plain tag)).map some
  | n => (decode n).map some

def list (decode : Decoder α) : Decoder (List α)
  | .sequence items => items.mapM decode
  | .scalar "" .plain _ => some []
  | _ => none

abbrev Fields := List (String × Node)

def fields : Decoder Fields
  | .mapping entries => entries.mapM fun (k, v) => (string k).map (·, v)
  | .scalar "" .plain _ => some []
  | _ => none

def Fields.get (fs : Fields) (names : List String) (decode : Decoder α) (absent : α) : Option α :=
  match fs.filter fun f => names.contains f.1 with
  | [] => some absent
  | [(_, n)] => decode n
  | _ => none

end ServiceRegistry.Yaml
