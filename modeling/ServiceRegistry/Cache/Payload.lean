import ServiceRegistry.Json.Printer
import ServiceRegistry.Text.Blank
import ServiceRegistry.Text.Pieces
import ServiceRegistry.Yaml.Printer

/-!
# Payloads

A payload is a value written out for readers. The body is the text before compression; the
encoding only tells how it travels.
-/

namespace ServiceRegistry

set_option autoImplicit false

inductive Format where
  | json
  | yaml
  deriving DecidableEq, Repr

namespace Format

def name : Format → String
  | json => "Json"
  | yaml => "Yaml"

/-- JSON unless the reader asks for YAML by any of its names. -/
def ofAccept (accept : Option String) : Format :=
  if accept.any fun v => Text.contains "yaml".toList v.toList then .yaml else .json

def contentType : Format → String
  | json => "application/json"
  | yaml => "application/yaml"

end Format

inductive Encoding where
  | identity
  | gzip
  deriving DecidableEq, Repr

namespace Encoding

def name : Encoding → String
  | identity => "Identity"
  | gzip => "Gzip"

def acceptedName (part : List Char) : List Char := Text.upTo ';' (Text.trimChars part)

/-- Compressed if the reader lists `gzip`, whatever weight it gives to it. -/
def ofAcceptEncoding (accept : Option String) : Encoding :=
  if accept.any fun v => (Text.pieces ',' v.toList).any fun p => acceptedName p == "gzip".toList
  then .gzip
  else .identity

def headerValue? : Encoding → Option String
  | identity => none
  | gzip => some "gzip"

end Encoding

structure Payload where
  body : String
  format : Format
  encoding : Encoding
  version : Nat
  deriving DecidableEq, Repr

def Payload.of (v : Json) (format : Format) (encoding : Encoding) (version : Nat) : Payload :=
  { body := match format with
      | .json => v.render
      | .yaml => Yaml.render v
    format, encoding, version }

end ServiceRegistry
