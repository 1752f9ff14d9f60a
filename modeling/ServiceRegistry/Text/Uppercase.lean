import ServiceRegistry.Text.Blank

/-!
# Upper case

Full upper-casing as far as it can lead to a text of ASCII characters. Letters whose upper case
has other characters are left alone: either form differs from every ASCII text.
-/

namespace ServiceRegistry.Text

set_option autoImplicit false

def asciiCapitals : List (Char × List Char) :=
  [('\u00df', ['S', 'S']), ('\u0131', ['I']), ('\u017f', ['S']), ('\ufb00', ['F', 'F']),
   ('\ufb01', ['F', 'I']), ('\ufb02', ['F', 'L']), ('\ufb03', ['F', 'F', 'I']),
   ('\ufb04', ['F', 'F', 'L']), ('\ufb05', ['S', 'T']), ('\ufb06', ['S', 'T'])]

def capitals (c : Char) : List Char := (asciiCapitals.lookup c).getD [c.toUpper]

def uppercase (s : String) : String := String.ofList (s.toList.flatMap capitals)

end ServiceRegistry.Text
