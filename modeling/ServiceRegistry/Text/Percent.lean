import ServiceRegistry.Text.Units
import ServiceRegistry.Text.Utf8

/-!
# Percent-encoded text

A percent sign and two hexadecimal digits stand for a byte; all else stands for its own bytes,
a percent sign without digits too.
-/

namespace ServiceRegistry.Text

set_option autoImplicit false

def percentBytes : List Char → List Nat
  | '%' :: a :: b :: rest =>
    match hexValue a, hexValue b with
    | some high, some low => (16 * high + low) :: percentBytes rest
    | _, _ => '%'.toNat :: percentBytes (a :: b :: rest)
  | c :: rest => encodeUtf8 [c] ++ percentBytes rest
  | [] => []

def percentDecode? (cs : List Char) : Option String :=
  ((decodeUtf8 (percentBytes cs)).mapM id).map String.ofList

/-- The text with a replacement character for each fault in it. -/
def percentDecodeLossy (cs : List Char) : String :=
  String.ofList ((decodeUtf8 (percentBytes cs)).map (·.getD '\ufffd'))

end ServiceRegistry.Text
