import ServiceRegistry.Broadcast
import ServiceRegistry.ChangeLog
import ServiceRegistry.Event
import ServiceRegistry.Text.Uppercase

/-!
# Watch streams

A watcher is first told of the changes that the log still holds above a version, and then of
every change as it happens. The receiver is taken before the log is read, so that nothing falls
between the two; what is in both is told once.
-/

namespace ServiceRegistry

set_option autoImplicit false

structure WatchEvent where
  version : Nat
  kind : ChangeKind
  app : String
  id : String
  deriving DecidableEq, Repr

def WatchEvent.ofChange (c : Change) : WatchEvent := ⟨c.version, c.kind, c.record.app, c.record.id⟩

structure Watch where
  /-- The application to tell of, in upper case; all of them if it is empty. -/
  app : String
  /-- Changes from the log that are still to be told. -/
  replay : List WatchEvent
  replayed : Nat
  events : Receiver
  deriving DecidableEq, Repr

namespace Watch

def wants (app name : String) : Bool := app.isEmpty || name == app

def start (log : ChangeLog) (events : Broadcast Event) (app : String) (version : Nat) : Watch :=
  let app := Text.uppercase app
  let window := log.since version
  { app
    replay := (window.changes.filter fun c => wants app c.record.app).map .ofChange
    replayed := window.current
    events := events.subscribe }

def live (w : Watch) : Delivery Event → Option WatchEvent
  | .message (.changed version kind _ app id _) =>
    if w.replayed < version ∧ wants w.app app then some ⟨version, kind, app, id⟩ else none
  | _ => none

def read (w : Watch) (events : Broadcast Event) : List WatchEvent × Watch :=
  let (deliveries, receiver) := events.readAll w.events
  (w.replay ++ deliveries.filterMap w.live, { w with replay := [], events := receiver })

end Watch

end ServiceRegistry
