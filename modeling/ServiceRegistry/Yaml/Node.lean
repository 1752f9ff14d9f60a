import ServiceRegistry.Yaml.Token

/-!
# YAML documents

The value of a document, with its aliases replaced by what they stand for. Tags are kept where
they can change what a scalar is read as.
-/

namespace ServiceRegistry.Yaml

set_option autoImplicit false

inductive Node where
  | scalar (text : String) (style : ScalarStyle) (tag : Option String)
  | sequence (items : List Node)
  | mapping (entries : List (Node × Node))
  | enclosing
  deriving Inhabited

def Node.empty : Node := .scalar "" .plain none

end ServiceRegistry.Yaml
