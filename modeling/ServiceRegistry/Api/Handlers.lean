import ServiceRegistry.Api.NodeReport
import ServiceRegistry.Api.Route
import ServiceRegistry.Http.Body
import ServiceRegistry.Replication.Transport
import ServiceRegistry.Watch
import ServiceRegistry.Wire.Replication

/-!
# Serving requests

Each request is one operation of the node. A header tells a peer's operation from a client's.
-/

namespace ServiceRegistry.Api

set_option autoImplicit false

open Http

/-- The answer, the node afterwards, and the stream that was opened if there is one. -/
structure Served where
  reply : Reply
  node : Node
  watch : Option Watch := none

def originOf (r : Request) : Origin :=
  if (r.headers.get? Replication.originHeader).any (Text.sameLetters · "true") then .peer
  else .client

def badRequest (message : String) : Reply := .ofJson 400 (.obj [("error", .str message)])

def formatOf (r : Request) : Format := .ofAccept (r.headers.get? "accept")

def encodingOf (r : Request) : Encoding := .ofAcceptEncoding (r.headers.get? "accept-encoding")

def payloadReply (p : Payload) : Reply :=
  { status := 200
    headers := ("content-type", p.format.contentType) ::
      (p.encoding.headerValue?.map ("content-encoding", ·)).toList ++
      [("vary", "accept, accept-encoding"), ("x-registry-version", toString p.version)]
    body := p.body }

def applications (n : Node) (r : Request) : Reply × Node :=
  let (p, cache) := n.cache.catalog (formatOf r) (encodingOf r)
  (payloadReply p, { n with cache })

def application (n : Node) (r : Request) (app : String) : Reply × Node :=
  let (p, cache) := n.cache.application? app (formatOf r) (encodingOf r)
  ((p.map payloadReply).getD (.ofStatus 404), { n with cache })

def delta (n : Node) (r : Request) : Except Rejection (Reply × Node) := do
  let version := ((← (Query.ofTarget r.target).uint64? "version").map (·.toNat)).getD 0
  let (p, cache) := n.cache.delta version (formatOf r) (encodingOf r)
  return (payloadReply p, { n with cache })

/-- Registers the record of the body. It may leave out the application that the path names. -/
def register (n : Node) (r : Request) (app : String) : Except Rejection (Reply × Node) := do
  let duration ← (Query.ofTarget r.target).uint64? "lease_duration"
  let record ← r.json Instance.decode
  if ¬ record.app.isEmpty ∧ ¬ Text.sameLetters record.app app then
    return (badRequest ("record names application '" ++ record.app ++ "' but was posted to '" ++
      app ++ "'"), n)
  match n.register (originOf r) { record with app } duration with
  | .ok n => return (.ofStatus 204, n)
  | .error e => return (badRequest e.requestMessage, n)

def renew (n : Node) (r : Request) (app id : String) : Except Rejection (Reply × Node) := do
  let dirtyAt ← (Query.ofTarget r.target).int64? "last_dirty_timestamp"
  let (answer, n) := n.renew (originOf r) app id dirtyAt
  match answer with
  | .renewed => return (.ofStatus 200, n)
  | .notFound => return (.ofStatus 404, n)
  | .conflict record => return (.ofJson 409 record.toJson, n)

def cancel (n : Node) (r : Request) (app id : String) : Reply × Node :=
  let (found, n) := n.cancel (originOf r) app id
  (.ofStatus (if found then 200 else 404), n)

def verdictReply (n : Node) (app id : String) : Verdict → Reply
  | .success => .ofStatus 200
  | .notFound => .ofStatus 404
  | .conflict =>
    match n.registry.instance? app id with
    | some record => .ofJson 409 record.toJson
    | none => .ofStatus 409

def updateStatus (n : Node) (r : Request) (app id : String) :
    Except Rejection (Reply × Node) := do
  let query := Query.ofTarget r.target
  let value ← query.text? "value"
  let dirtyAt ← query.int64? "last_dirty_timestamp"
  match value with
  | none => return (badRequest "missing 'value' query parameter", n)
  | some text =>
    let s := Status.parse text
    if s = .unknown ∧ ¬ Text.sameLetters text "unknown" then
      return (badRequest ("unknown status '" ++ text ++ "'"), n)
    let (verdict, n) := n.updateStatus (originOf r) app id s dirtyAt
    return (verdictReply n app id verdict, n)

def deleteOverride (n : Node) (r : Request) (app id : String) :
    Except Rejection (Reply × Node) := do
  let query := Query.ofTarget r.target
  let value ← query.text? "value"
  let dirtyAt ← query.int64? "last_dirty_timestamp"
  let s := (value.map Status.parse).getD .unknown
  let (verdict, n) := n.deleteOverride (originOf r) app id s dirtyAt
  return (verdictReply n app id verdict, n)

def batch (n : Node) (r : Request) : Except Rejection (Reply × Node) := do
  let items ← r.json Replication.Batch.decode
  let (outcomes, n) := n.receiveAll items
  return (.ofJson 200 (Replication.Reply.toJson outcomes), n)

def metrics (n : Node) : Reply × Node :=
  let (text, n) := n.scrape
  (.ofText 200 "text/plain; version=0.0.4" text, n)

def watch (n : Node) (r : Request) : Except Rejection (Reply × Watch) := do
  let query := Query.ofTarget r.target
  let app := (← query.text? "app").getD ""
  let version := ((← query.uint64? "version").map (·.toNat)).getD 0
  return ({ status := 200, headers := [("content-type", "text/event-stream")] },
    .start n.registry.log n.events app version)

def operate (n : Node) (r : Request) : Route → Except Rejection (Reply × Node)
  | .applications => .ok (applications n r)
  | .delta => if r.method = "POST" then register n r "delta" else delta n r
  | .application app => do
    let app ← decodeSegment app
    if r.method = "POST" then register n r app else return application n r app
  | .lease app id => do
    let app ← decodeSegment app
    let id ← decodeSegment id
    if r.method = "PUT" then renew n r app id else return cancel n r app id
  | .status app id => do
    let app ← decodeSegment app
    let id ← decodeSegment id
    if r.method = "PUT" then updateStatus n r app id else deleteOverride n r app id
  | .batches => batch n r
  | .node => .ok (.ofJson 200 (nodeReport n), n)
  | .watch => (watch n r).map fun (reply, _) => (reply, n)
  | .metrics => .ok (metrics n)

def methodRefused (route : Route) : Reply :=
  { status := 405, headers := [("allow", ",".intercalate route.methods)] }

/-- Serves a request. `HEAD` is answered as `GET` is, without the body. -/
def serve (n : Node) (r : Request) : Served :=
  match Route.ofSegments (segments r.target) with
  | none => { reply := .ofStatus 404, node := n }
  | some route =>
    if ¬ route.methods.contains r.method then { reply := methodRefused route, node := n }
    else
      let (reply, after) := match operate n r route with
        | .ok served => served
        | .error rejection => (rejection.toReply, n)
      let opened := if route = .watch ∧ r.method = "GET" then (watch n r).toOption else none
      { reply := if r.method = "HEAD" then { reply with body := "" } else reply
        node := after
        watch := opened.map (·.2) }

end ServiceRegistry.Api
