import ServiceRegistry.Instance

/-!
# Admissible names, ids and leases

`check` reports the first rule that a submitted record breaks. Lengths are in bytes.
-/

namespace ServiceRegistry

set_option autoImplicit false

def maxLeaseSeconds : UInt64 := 86400

def maxNameBytes : Nat := 255

inductive Invalid where
  | emptyApp
  | longApp (app : String)
  | appStart (app : String)
  | appCharacters (app : String)
  | emptyId
  | longId (id : String)
  | idCharacters (id : String)
  | emptyHost (id : String)
  | zeroLease (id : String)
  | longLease (id : String) (seconds : UInt64)
  | zeroRenewalInterval (id : String)
  deriving DecidableEq, Repr

namespace Invalid

def message : Invalid → String
  | emptyApp => "application name must not be empty"
  | longApp app =>
    "application name '" ++ app ++ "' exceeds " ++ toString maxNameBytes ++ " characters (got "
      ++ toString app.utf8ByteSize ++ ")"
  | appStart app => "application name '" ++ app ++ "' must start with a letter or digit"
  | appCharacters app =>
    "application name '" ++ app ++ "' must contain only letters, digits, '.', '_' and '-'"
  | emptyId => "instance id must not be empty"
  | longId id => "instance id '" ++ id ++ "' exceeds " ++ toString maxNameBytes ++ " characters"
  | idCharacters id => "instance id '" ++ id ++ "' must not contain whitespace or '/'"
  | emptyHost id => "instance '" ++ id ++ "' has an empty host name"
  | zeroLease id => "instance '" ++ id ++ "' requested a zero lease duration"
  | longLease id seconds =>
    "instance '" ++ id ++ "' requested a " ++ toString seconds ++ "s lease, the maximum is "
      ++ toString maxLeaseSeconds ++ "s"
  | zeroRenewalInterval id => "instance '" ++ id ++ "' requested a zero renewal interval"

def requestMessage (e : Invalid) : String := "invalid request: " ++ e.message

end Invalid

def isNameChar (c : Char) : Bool := c.isAlphanum || c == '-' || c == '_' || c == '.'

def isIdChar (c : Char) : Bool := !(Text.isBlank c || c == '/' || Text.isControl c)

def checkApp (app : String) : Except Invalid Unit :=
  if app.isEmpty then .error .emptyApp
  else if maxNameBytes < app.utf8ByteSize then .error (.longApp app)
  else if !(app.toList.head?.any Char.isAlphanum) then .error (.appStart app)
  else if !(app.toList.all isNameChar) then .error (.appCharacters app)
  else .ok ()

def checkId (id : String) : Except Invalid Unit :=
  if id.isEmpty then .error .emptyId
  else if maxNameBytes < id.utf8ByteSize then .error (.longId id)
  else if !(id.toList.all isIdChar) then .error (.idCharacters id)
  else .ok ()

def checkLease (id : String) (seconds : UInt64) : Except Invalid Unit :=
  if seconds = 0 then .error (.zeroLease id)
  else if maxLeaseSeconds < seconds then .error (.longLease id seconds)
  else .ok ()

def checkKey (app id : String) : Except Invalid Unit := do
  checkApp app
  checkId id

def Instance.check (r : Instance) : Except Invalid Unit := do
  checkApp r.app
  checkId r.id
  if (Text.trim r.host).isEmpty then throw (.emptyHost r.id)
  checkLease r.id r.terms.duration
  if r.terms.renewalInterval = 0 then throw (.zeroRenewalInterval r.id)

end ServiceRegistry
