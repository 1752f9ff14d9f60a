import ServiceRegistry.Http.Message
import ServiceRegistry.Http.Reason
import ServiceRegistry.Json.Decode
import ServiceRegistry.Replication.Worker
import ServiceRegistry.Wire.Replication

/-!
# Batches over HTTP

A batch is one request. A peer that cannot be reached, is overloaded or fails by itself may do
better later; one that refuses the batch or answers with something else will not.
-/

namespace ServiceRegistry.Replication

set_option autoImplicit false

def batchPath : String := "/api/v1/peerreplication/batch"

def originHeader : String := "x-registry-replication"

def batchRequest (items : List Item) : Http.Request :=
  { method := "POST", target := batchPath
    headers := [(originHeader, "true"), ("content-type", "application/json")]
    body := (Batch.toJson items).render }

inductive TransportFault where
  | unreachable
  | status (code : Nat)
  | body
  deriving DecidableEq, Repr

namespace TransportFault

def transient : TransportFault → Bool
  | unreachable => true
  | status code => (500 ≤ code && code < 600) || code == 429
  | body => false

def reason : TransportFault → String
  | unreachable => "the peer cannot be reached"
  | status code => "server returned " ++ Http.statusText code
  | body => "invalid response body"

def toFailure (f : TransportFault) (peer : Peer) : Failure :=
  { peer := peer.display, reason := f.reason, transient := f.transient }

end TransportFault

/-- What a peer's reply says; without a final reply the peer was not reached. -/
def outcomesOf : Option Http.Reply → Except TransportFault (List Outcome)
  | none => .error .unreachable
  | some r =>
    if r.isInterim then .error .unreachable
    else if r.status < 200 ∨ 300 ≤ r.status then .error (.status r.status)
    else match Json.decodeDocument Reply.decode (Json.ofText r.content) with
      | .ok outcomes => .ok outcomes
      | .error _ => .error .body

end ServiceRegistry.Replication
