import ServiceRegistry.Http.Target

/-!
# Routes

The resources of the interface and the methods that each of them takes. A name that stands for
itself goes before a placeholder, and a placeholder takes any segment that is not empty.
-/

namespace ServiceRegistry.Api

set_option autoImplicit false

inductive Route where
  | applications
  | delta
  | application (app : List Char)
  | lease (app id : List Char)
  | status (app id : List Char)
  | batches
  | node
  | watch
  | metrics
  deriving DecidableEq, Repr

namespace Route

def below (rest : List (List Char)) : Option Route :=
  match rest with
  | [] => some .applications
  | [app] =>
    if app = "delta".toList then some .delta
    else if app.isEmpty then none
    else some (.application app)
  | [app, id] => if app.isEmpty ∨ id.isEmpty then none else some (.lease app id)
  | [app, id, last] =>
    if app.isEmpty ∨ id.isEmpty ∨ last ≠ "status".toList then none else some (.status app id)
  | _ => none

def ofSegments : List (List Char) → Option Route
  | [one] => if one = "metrics".toList then some .metrics else none
  | api :: version :: resource :: rest =>
    if api ≠ "api".toList ∨ version ≠ "v1".toList then none
    else if resource = "apps".toList then below rest
    else if resource = "status".toList ∧ rest = [] then some .node
    else if resource = "watch".toList ∧ rest = [] then some .watch
    else if resource = "peerreplication".toList ∧ rest = ["batch".toList] then some .batches
    else none
  | _ => none

def methods : Route → List String
  | applications => ["GET", "HEAD"]
  | delta => ["GET", "HEAD", "POST"]
  | application _ => ["POST", "GET", "HEAD"]
  | lease .. => ["PUT", "DELETE"]
  | status .. => ["PUT", "DELETE"]
  | batches => ["POST"]
  | node => ["GET", "HEAD"]
  | watch => ["GET", "HEAD"]
  | metrics => ["GET", "HEAD"]

end Route

end ServiceRegistry.Api
