import ServiceRegistry.Text.Blank

/-!
# Peers

The place of another registry node, written `host:port`. A parsed peer may carry a scheme in
front and slashes behind, which are not kept.
-/

namespace ServiceRegistry

set_option autoImplicit false

structure Peer where
  host : String
  port : UInt16
  deriving DecidableEq, Repr

namespace Peer

def display (p : Peer) : String := p.host ++ ":" ++ toString p.port

def baseUrl (p : Peer) : String := "http://" ++ p.display

def le (p q : Peer) : Bool :=
  decide (p.host < q.host) || (p.host == q.host && decide (p.port ≤ q.port))

inductive PortError where
  | empty
  | digit
  | tooLarge
  deriving DecidableEq, Repr

def PortError.message : PortError → String
  | empty => "cannot parse integer from empty string"
  | digit => "invalid digit found in string"
  | tooLarge => "number too large to fit in target type"

/-- Reads decimal digits into a port; a digit that does not belong is met before an overflow
that comes behind it. -/
def portDigits : Nat → List Char → Except PortError UInt16
  | n, [] => .ok (UInt16.ofNat n)
  | n, c :: rest =>
    if !c.isDigit then .error .digit
    else
      let n := 10 * n + (c.toNat - '0'.toNat)
      if n < UInt16.size then portDigits n rest else .error .tooLarge

def parsePort (text : List Char) : Except PortError UInt16 :=
  match text with
  | [] => .error .empty
  | ['+'] => .error .digit
  | '+' :: rest => portDigits 0 rest
  | cs => portDigits 0 cs

inductive ParseError where
  | form (text : String)
  | emptyHost (text : String)
  | port (text : String) (e : PortError)
  deriving DecidableEq, Repr

def ParseError.message : ParseError → String
  | form text => "peer '" ++ text ++ "' must be in host:port form"
  | emptyHost text => "peer '" ++ text ++ "' has an empty host"
  | port text e => "peer '" ++ text ++ "' has an invalid port: " ++ e.message

/-- Removes the scheme, as often as it is repeated. -/
def dropSchemes : List Char → List Char
  | 'h' :: 't' :: 't' :: 'p' :: ':' :: '/' :: '/' :: rest => dropSchemes rest
  | cs => cs

def splitLastColon : List Char → Option (List Char × List Char)
  | [] => none
  | c :: rest =>
    match splitLastColon rest with
    | some (before, behind) => some (c :: before, behind)
    | none => if c = ':' then some ([], rest) else none

def parse (text : String) : Except ParseError Peer :=
  let bare := Text.dropEndWhile (· == '/') (dropSchemes (Text.trimChars text.toList))
  match splitLastColon bare with
  | none => .error (.form text)
  | some (host, port) =>
    if host.isEmpty then .error (.emptyHost text)
    else match parsePort port with
      | .error e => .error (.port text e)
      | .ok n => .ok ⟨String.ofList host, n⟩

end Peer

end ServiceRegistry
