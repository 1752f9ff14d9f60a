import ServiceRegistry.Api.Handlers
import ServiceRegistry.Cluster
import ServiceRegistry.Server.Launch

/-!
# The program

Reads the command line and the settings file, launches a node and serves the requests on
standard input: each line is a method, a target and, if there is one, a JSON body.
-/

open ServiceRegistry

set_option autoImplicit false

/-- The settings file; one that does not exist is empty. -/
def readSettings (path : String) : IO (Except String Server.File) := do
  try
    let text ← IO.FS.readFile path
    return (Server.File.parse? text).elim (.error "the settings file is malformed") .ok
  catch
    | .noFileOrDirectory .. => return .ok {}
    | e => return .error (toString e)

def requestOf (line : String) : Http.Request :=
  let cs := (Text.trim line).toList
  let method := cs.takeWhile (· ≠ ' ')
  let rest := (cs.dropWhile (· ≠ ' ')).drop 1
  let body := (rest.dropWhile (· ≠ ' ')).drop 1
  { method := String.ofList method, target := String.ofList (rest.takeWhile (· ≠ ' '))
    headers := if body.isEmpty then [] else [("content-type", "application/json")]
    body := String.ofList body }

def passTime (c : Cluster) (now : Nat) : Cluster :=
  let nodes := c.nodes.map fun n => { n with clock := Int64.ofNat now }
  Cluster.run { c with nodes } (now - c.now)

partial def serveLines (input output : IO.FS.Stream) (c : Cluster) (start : Nat) : IO Unit := do
  let line ← input.getLine
  if line.isEmpty then return
  let c := passTime c ((← IO.monoMsNow) - start)
  match c.node? 0 with
  | none => return
  | some n =>
    let served := Api.serve n (requestOf line)
    output.putStrLn (Http.statusText served.reply.status)
    unless served.reply.body.isEmpty do output.putStrLn served.reply.body
    output.flush
    serveLines input output (c.setNode 0 served.node) start

def banner (c : Server.CommandLine) (s : Server.Settings) : List String :=
  ["Config file: " ++ c.configPath, "Starting regis-server", "  Listen:       " ++ s.address,
   "  Peers:        " ++ ", ".intercalate s.peers,
   "  Lease:        " ++ toString s.registry.defaultLease ++ "s",
   "  Eviction:     every " ++ toString (s.eviction.interval / 1000) ++ "s, self-preservation=" ++
     toString s.eviction.selfPreservation,
   "  Cache mode:   " ++ s.cache.mode.name]

def main (words : List String) : IO UInt32 := do
  let out ← IO.getStdout
  match Server.CommandLine.parse words with
  | .error .help => out.putStrLn Server.UsageError.help.message; return 0
  | .error e => IO.eprintln ("error: " ++ e.message); return 2
  | .ok line =>
    match ← readSettings line.configPath with
    | .error e => IO.eprintln ("Error: " ++ e); return 1
    | .ok file =>
      match Server.Settings.assemble line file with
      | .error e => IO.eprintln ("Error: " ++ e.message); return 1
      | .ok settings =>
        (banner line settings).forM IO.eprintln
        match Server.launch settings 0 with
        | .error e => IO.eprintln ("Error: " ++ e.message); return 1
        | .ok node =>
          serveLines (← IO.getStdin) out { nodes := [node] } (← IO.monoMsNow)
          return 0
