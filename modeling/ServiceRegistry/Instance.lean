import ServiceRegistry.Metadata
import ServiceRegistry.Text.Blank

/-!
# Instances

What a registered instance tells the registry about itself. A status that an operator imposed
wins over the one the instance reports.
-/

namespace ServiceRegistry

set_option autoImplicit false

/-- Milliseconds since the epoch; zero also stands for "never". -/
abbrev Millis := Int64

inductive Status where
  | up
  | down
  | starting
  | outOfService
  | unknown
  deriving DecidableEq, Repr, Inhabited

namespace Status

def all : List Status := [.up, .down, .starting, .outOfService, .unknown]

def name : Status → String
  | .up => "UP"
  | .down => "DOWN"
  | .starting => "STARTING"
  | .outOfService => "OUT_OF_SERVICE"
  | .unknown => "UNKNOWN"

/-- Reads a name in any case and with blanks around it; all other texts mean `unknown`. -/
def parse (text : String) : Status :=
  let word := Text.upper (Text.trim text)
  (all.find? (·.name == word)).getD .unknown

end Status

inductive ChangeKind where
  | added
  | modified
  | deleted
  deriving DecidableEq, Repr

namespace ChangeKind

def all : List ChangeKind := [.added, .modified, .deleted]

def name : ChangeKind → String
  | .added => "ADDED"
  | .modified => "MODIFIED"
  | .deleted => "DELETED"

end ChangeKind

/-- Lease that an instance asks for, in seconds. -/
structure LeaseTerms where
  duration : UInt64 := 90
  renewalInterval : UInt64 := 30
  deriving DecidableEq, Repr

structure Instance where
  app : String
  id : String
  host : String
  ip : String
  port : UInt16
  securePort : Option UInt16 := none
  vip : Option String := none
  status : Status := .up
  overridden : Option Status := none
  metadata : Metadata := .empty
  terms : LeaseTerms := {}
  /-- When the record last changed at its origin; the newer of two records wins. -/
  dirtyAt : Millis := 0
  updatedAt : Millis := 0
  lastChange : Option ChangeKind := none
  deriving DecidableEq, Repr

namespace Instance

def named (app id host : String) (port : UInt16) : Instance :=
  { app, id, host, ip := host, port }

def effectiveStatus (r : Instance) : Status := r.overridden.getD r.status

def address (r : Instance) : String := r.ip ++ ":" ++ toString r.port

def key (r : Instance) : String × String := (r.app, r.id)

end Instance

end ServiceRegistry
