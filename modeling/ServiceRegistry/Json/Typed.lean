import ServiceRegistry.Json.Decode

/-!
# Types with a JSON form

`ToJson` and `FromJson` name the form of a type, so that a caller can write `toJson a` and read
back whatever type is asked for.
-/

namespace ServiceRegistry

set_option autoImplicit false

namespace Json

variable {α : Type}

def ofNat (n : Nat) : Json := .int n

def ofUInt16 (n : UInt16) : Json := .int n.toNat

def ofUInt64 (n : UInt64) : Json := .int n.toNat

def ofInt64 (n : Int64) : Json := .int n.toInt

def ofOption (toJson : α → Json) : Option α → Json
  | none => .null
  | some a => toJson a

def ofList (toJson : α → Json) (items : List α) : Json := .arr (items.map toJson)

end Json

class ToJson (α : Type) where
  toJson : α → Json

class FromJson (α : Type) where
  fromJson : Json.Decoder α

export ToJson (toJson)

export FromJson (fromJson)

variable {α : Type}

instance : ToJson Json := ⟨id⟩

instance : ToJson String := ⟨.str⟩

instance : ToJson Bool := ⟨.bool⟩

instance : ToJson Nat := ⟨Json.ofNat⟩

instance : ToJson Int := ⟨.int⟩

instance : ToJson UInt16 := ⟨Json.ofUInt16⟩

instance : ToJson UInt64 := ⟨Json.ofUInt64⟩

instance : ToJson Int64 := ⟨Json.ofInt64⟩

instance [ToJson α] : ToJson (Option α) := ⟨Json.ofOption toJson⟩

instance [ToJson α] : ToJson (List α) := ⟨Json.ofList toJson⟩

instance : FromJson String := ⟨Json.string⟩

instance : FromJson Bool := ⟨Json.boolean⟩

instance : FromJson Nat := ⟨Json.count⟩

instance : FromJson UInt16 := ⟨Json.uint16⟩

instance : FromJson UInt64 := ⟨Json.uint64⟩

instance : FromJson Int64 := ⟨Json.int64⟩

instance : FromJson Float := ⟨Json.number⟩

instance [FromJson α] : FromJson (Option α) := ⟨Json.optional fromJson⟩

instance [FromJson α] : FromJson (List α) := ⟨Json.list fromJson⟩

end ServiceRegistry
