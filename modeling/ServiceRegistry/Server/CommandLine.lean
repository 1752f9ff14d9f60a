import ServiceRegistry.Text.Whole

/-!
# The command line

Options with a value take it from the same word, behind an equals sign, or from the next word,
which may not look like an option. Only peers may be given more than once.
-/

namespace ServiceRegistry.Server

set_option autoImplicit false

structure CommandLine where
  config : Option String := none
  port : Option UInt16 := none
  peers : List String := []
  advertise : Option String := none
  logJson : Bool := false
  deriving DecidableEq, Repr

def CommandLine.configPath (c : CommandLine) : String := c.config.getD "/etc/regis/config.yaml"

inductive ValueOption where
  | config
  | port
  | peer
  | advertise
  deriving DecidableEq, Repr

inductive UsageError where
  | unknownArgument
  | missingValue
  | invalidValue
  | repeated
  | unneededValue
  | help
  deriving DecidableEq, Repr

def UsageError.message : UsageError → String
  | unknownArgument => "unexpected argument"
  | missingValue => "a value is required but none was supplied"
  | invalidValue => "invalid value"
  | repeated => "the argument cannot be used multiple times"
  | unneededValue => "unexpected value"
  | help => "Usage: regis-server [--config PATH] [--port PORT] [--peer HOST:PORT]... " ++
      "[--advertise HOST:PORT] [--log-json]"

namespace CommandLine

def portOf? (text : String) : Option UInt16 :=
  match Text.wholeNumber true text with
  | some n => if 0 ≤ n ∧ n < UInt16.size then some (UInt16.ofNat n.toNat) else none
  | none => none

/-- Takes the value of an option. That it is repeated is found before its value is read. -/
def assign (c : CommandLine) (o : ValueOption) (value : String) : Except UsageError CommandLine :=
  match o with
  | .config => if c.config.isSome then .error .repeated else .ok { c with config := some value }
  | .port =>
    if c.port.isSome then .error .repeated
    else match portOf? value with
      | some port => .ok { c with port := some port }
      | none => .error .invalidValue
  | .peer => .ok { c with peers := c.peers ++ [value] }
  | .advertise =>
    if c.advertise.isSome then .error .repeated else .ok { c with advertise := some value }

/-- An option whose word has been read, and its value as far as that has been read. A value in
a word of its own is taken only when the next option or the end is met. -/
abbrev Pending := Option (ValueOption × Option String)

def settle (c : CommandLine) : Pending → Except UsageError CommandLine
  | none => .ok c
  | some (_, none) => .error .missingValue
  | some (o, some value) => c.assign o value

def valueOption? (name : String) : Option ValueOption :=
  [("config", .config), ("port", .port), ("peer", .peer), ("advertise", .advertise)].lookup name

def give (c : CommandLine) (pending : Pending) (o : ValueOption) (value : Option String) :
    Except UsageError (CommandLine × Pending) := do
  let c ← c.settle pending
  match value with
  | some value => return (← c.assign o value, none)
  | none => return (c, some (o, none))

def longOption (c : CommandLine) (pending : Pending) (word : List Char) :
    Except UsageError (CommandLine × Pending) := do
  let name := String.ofList (word.takeWhile (· ≠ '='))
  let value := match word.dropWhile (· ≠ '=') with
    | [] => none
    | _ :: value => some (String.ofList value)
  match valueOption? name with
  | some o => c.give pending o value
  | none =>
    if name ≠ "log-json" ∧ name ≠ "help" then .error .unknownArgument
    else if value.isSome then .error .unneededValue
    else
      let c ← c.settle pending
      if name = "help" then .error .help
      else if c.logJson then .error .repeated
      else return ({ c with logJson := true }, none)

def shortOption (c : CommandLine) (pending : Pending) :
    List Char → Except UsageError (CommandLine × Pending)
  | ['c'] => c.give pending .config none
  | 'c' :: '=' :: value | 'c' :: value => c.give pending .config (some (String.ofList value))
  | 'h' :: _ => do
    let _ ← c.settle pending
    .error .help
  | _ => .error .unknownArgument

def bareWord (c : CommandLine) (word : String) :
    Pending → Except UsageError (CommandLine × Pending)
  | some (o, none) => .ok (c, some (o, some word))
  | _ => .error .unknownArgument

def read (c : CommandLine) (pending : Pending) : List String → Except UsageError CommandLine
  | [] => c.settle pending
  | word :: rest =>
    match word.toList with
    | ['-', '-'] => if rest.isEmpty then c.settle pending else .error .unknownArgument
    | '-' :: '-' :: name => do
      let (c, pending) ← c.longOption pending name
      read c pending rest
    | '-' :: d :: more => do
      let (c, pending) ← c.shortOption pending (d :: more)
      read c pending rest
    | _ => do
      let (c, pending) ← c.bareWord word pending
      read c pending rest

def parse (words : List String) : Except UsageError CommandLine := read {} none words

end CommandLine

end ServiceRegistry.Server
