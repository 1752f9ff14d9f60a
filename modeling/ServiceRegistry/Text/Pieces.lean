/-!
# Pieces of a text

A text is cut at every occurrence of a separator, so there is one piece more than there are
separators.
-/

namespace ServiceRegistry.Text

set_option autoImplicit false

def pieces (separator : Char) : List Char → List (List Char)
  | [] => [[]]
  | c :: rest =>
    if c = separator then [] :: pieces separator rest
    else match pieces separator rest with
      | [] => [[c]]
      | first :: more => (c :: first) :: more

def upTo (separator : Char) (cs : List Char) : List Char := cs.takeWhile (· ≠ separator)

def contains (needle : List Char) : List Char → Bool
  | [] => needle.isEmpty
  | c :: rest => needle.isPrefixOf (c :: rest) || contains needle rest

end ServiceRegistry.Text
