import ServiceRegistry.Json.Printer
import ServiceRegistry.Text.Blank

/-!
# Requests and replies
-/

namespace ServiceRegistry.Http

set_option autoImplicit false

abbrev Headers := List (String × String)

def Headers.get? (hs : Headers) (name : String) : Option String :=
  (hs.find? fun h => Text.sameLetters h.1 name).map (·.2)

structure Request where
  method : String
  target : String
  headers : Headers := []
  body : String := ""
  deriving DecidableEq, Repr

structure Reply where
  status : Nat
  headers : Headers := []
  body : String := ""
  deriving DecidableEq, Repr

namespace Reply

def ofStatus (status : Nat) : Reply := { status }

def ofText (status : Nat) (contentType text : String) : Reply :=
  { status, headers := [("content-type", contentType)], body := text }

def ofJson (status : Nat) (v : Json) : Reply := ofText status "application/json" v.render

def isInterim (r : Reply) : Bool := decide (r.status < 200) && r.status != 101

/-- The body as it is read: a reply that says "no content" or "not modified" has none. -/
def content (r : Reply) : String := if r.status = 204 ∨ r.status = 304 then "" else r.body

end Reply

inductive Rejection where
  | path
  | query
  | contentType
  | jsonText
  | jsonValue
  deriving DecidableEq, Repr

namespace Rejection

def status : Rejection → Nat
  | path => 400
  | query => 400
  | contentType => 415
  | jsonText => 400
  | jsonValue => 422

def message : Rejection → String
  | path => "path is not valid UTF-8"
  | query => "query does not fit"
  | contentType => "expected a body of type application/json"
  | jsonText => "body is not JSON"
  | jsonValue => "body does not fit"

def toReply (r : Rejection) : Reply :=
  .ofText r.status "text/plain; charset=utf-8" r.message

end Rejection

end ServiceRegistry.Http
