import ServiceRegistry.Instance
import ServiceRegistry.KeyMap

/-!
# Catalogs

A catalog is a view of the whole registry at one version: applications in the order of their
names, instances in the order of their ids. Its hash code is the histogram of the effective
statuses, by which a reader can tell that its own copy has drifted.
-/

namespace ServiceRegistry

set_option autoImplicit false

structure Application where
  name : String
  instances : List Instance
  deriving DecidableEq, Repr

namespace Application

def find? (a : Application) (id : String) : Option Instance :=
  a.instances.find? (·.id == id)

def sorted (a : Application) : Application :=
  { a with instances := a.instances.mergeSort fun r s => decide (r.id ≤ s.id) }

end Application

def statusCounts (instances : List Instance) : List (Status × Nat) :=
  let counts := KeyMap.histogram (instances.map (·.effectiveStatus))
  counts.entries.mergeSort fun e e' => decide (Status.all.idxOf e.1 ≤ Status.all.idxOf e'.1)

/-- Name and number of each effective status that occurs, in the order of the names. -/
def hashCode (instances : List Instance) : String :=
  let counts := KeyMap.histogram (instances.map (·.effectiveStatus.name))
  String.join <| (counts.entries.mergeSort fun e e' => decide (e.1 ≤ e'.1)).map fun (name, n) =>
    name ++ "_" ++ toString n ++ "_"

structure Catalog where
  version : Nat
  hashCode : String
  applications : List Application
  deriving DecidableEq, Repr

namespace Catalog

def instances (c : Catalog) : List Instance := c.applications.flatMap (·.instances)

def build (version : Nat) (applications : List Application) : Catalog :=
  let sorted := (applications.mergeSort fun a b => decide (a.name ≤ b.name)).map
    Application.sorted
  { version
    hashCode := ServiceRegistry.hashCode (sorted.flatMap (·.instances))
    applications := sorted }

def empty : Catalog := build 0 []

/-- Application by name, ignoring the case of letters. -/
def find? (c : Catalog) (name : String) : Option Application :=
  c.applications.find? fun a => Text.sameLetters a.name name

def instanceCount (c : Catalog) : Nat := c.instances.length

end Catalog

/-- One entry of the change log: the record as it was left, or as it was when removed. -/
structure Change where
  version : Nat
  kind : ChangeKind
  time : Millis
  record : Instance
  deriving DecidableEq, Repr

inductive Delta where
  | changes (since upTo : Nat) (hashCode : String) (changes : List Change)
  | startOver (version : Nat)
  deriving DecidableEq, Repr

end ServiceRegistry
