import ServiceRegistry.Json.Basic
import ServiceRegistry.Decimal.Shortest
import ServiceRegistry.Text.Units

/-!
# Writing JSON text

The compact form: no blanks, names and strings quoted with the short escapes where there are
any, and four hexadecimal digits for the other control characters.
-/

namespace ServiceRegistry.Json

set_option autoImplicit false

def escapeChar (c : Char) : List Char :=
  if c = '"' then ['\\', '"']
  else if c = '\\' then ['\\', '\\']
  else if c = '\n' then ['\\', 'n']
  else if c = '\r' then ['\\', 'r']
  else if c = '\t' then ['\\', 't']
  else if c = '\x08' then ['\\', 'b']
  else if c = '\x0c' then ['\\', 'f']
  else if c.toNat < 0x20 then
    ['\\', 'u', '0', '0', Text.hexDigit (c.toNat / 16), Text.hexDigit (c.toNat % 16)]
  else [c]

def quote (s : String) : String :=
  "\"" ++ String.ofList (s.toList.flatMap escapeChar) ++ "\""

mutual

def render : Json → String
  | .null => "null"
  | .bool b => if b then "true" else "false"
  | .int n => toString n
  | .float x => if x.isFinite then Decimal.compactText x else "null"
  | .str s => quote s
  | .arr items => "[" ++ renderItems items ++ "]"
  | .obj entries => "\x7b" ++ renderEntries entries ++ "\x7d"
  | .unreadable _ => "null"

def renderItems : List Json → String
  | [] => ""
  | [v] => render v
  | v :: rest => render v ++ "," ++ renderItems rest

def renderEntries : List (String × Json) → String
  | [] => ""
  | [(name, v)] => quote name ++ ":" ++ render v
  | (name, v) :: rest => quote name ++ ":" ++ render v ++ "," ++ renderEntries rest

end

end ServiceRegistry.Json
