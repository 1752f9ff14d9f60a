import ServiceRegistry.Yaml.Node
import ServiceRegistry.Yaml.Token.Lexer

/-!
# From tokens to a document

A text holds at most one document. A key or value without content is empty, and an alias stands
for the latest node with its anchor.
-/

namespace ServiceRegistry.Yaml

set_option autoImplicit false

structure Reader where
  tokens : List Token
  anchors : List (String × Node) := []
  handles : List (String × String) := []

abbrev Read (α : Type) := StateT Reader Option α

namespace Read

def peek : Read (Option Token) := return (← get).tokens.head?

def skip : Read Unit := modify fun r => { r with tokens := r.tokens.tail }

def fail {α : Type} : Read α := StateT.lift none

def nextIs (ts : List Token) : Read Bool := return (← peek).any ts.contains

def expect (t : Token) : Read Unit := do
  if ← nextIs [t] then skip else fail

def anchor? : Read (Option String) := do
  match ← peek with
  | some (.anchor name) => skip; return some name
  | _ => return none

def tag? : Read (Option String) := do
  match ← peek with
  | some (.tag handle suffix) =>
    skip
    if handle.isEmpty then return some suffix
    else
      match (← get).handles.lookup handle with
      | some expansion => return some (expansion ++ suffix)
      | none => fail
  | _ => return none

def properties : Read (Option String × Option String) := do
  match ← anchor? with
  | some name => return (some name, ← tag?)
  | none =>
    match ← tag? with
    | some tag => return (← anchor?, some tag)
    | none => return (none, none)

/-- Reads a node under its anchor, which stands for the node as a whole only behind it. -/
def anchored (name : Option String) (content : Read Node) : Read Node := do
  match name with
  | none => content
  | some name =>
    let place := (← get).anchors.length
    modify fun r => { r with anchors := (name, .enclosing) :: r.anchors }
    let n ← content
    modify fun r =>
      { r with anchors := r.anchors.set (r.anchors.length - 1 - place) (name, n) }
    return n

/-- Where a node may stand: what can be a block collection, and whether its dashes may stand at
the column of the mapping around it. -/
structure Place where
  block : Bool
  indentless : Bool := false

mutual

def node : Nat → Place → Read Node
  | 0, _ => fail
  | fuel + 1, place => do
    match ← peek with
    | some (.alias name) =>
      skip
      match (← get).anchors.lookup name with
      | some n => return n
      | none => fail
    | _ =>
      let (name, tag) ← properties
      anchored name (content fuel place (if tag = some "!" then none else tag)
        (name.isSome || tag.isSome))

/-- The content of a node, which may be missing behind an anchor or a tag. -/
def content : Nat → Place → Option String → Bool → Read Node
  | 0, _, _, _ => fail
  | fuel + 1, place, tag, mayMiss => do
    match ← peek with
    | some (.scalar text style) => skip; return .scalar text style tag
    | some .flowSequence => skip; return .sequence (← flowItems fuel true)
    | some .flowMapping => skip; return .mapping (← flowEntries fuel true)
    | some .blockSequence =>
      if place.block then do skip; return .sequence (← blockItems fuel) else missing tag mayMiss
    | some .blockMapping =>
      if place.block then do skip; return .mapping (← blockEntries fuel) else missing tag mayMiss
    | some .entry =>
      if place.indentless then return .sequence (← indentlessItems fuel) else missing tag mayMiss
    | _ => missing tag mayMiss

def blockItems : Nat → Read (List Node)
  | 0 => fail
  | fuel + 1 => do
    match ← peek with
    | some .entry =>
      skip
      let n ← nodeUnless fuel [.entry, .blockEnd] ⟨true, false⟩
      return n :: (← blockItems fuel)
    | some .blockEnd => skip; return []
    | _ => fail

def indentlessItems : Nat → Read (List Node)
  | 0 => fail
  | fuel + 1 => do
    match ← peek with
    | some .entry =>
      skip
      let n ← nodeUnless fuel [.entry, .key, .value, .blockEnd] ⟨true, false⟩
      return n :: (← indentlessItems fuel)
    | _ => return []

def blockEntries : Nat → Read (List (Node × Node))
  | 0 => fail
  | fuel + 1 => do
    match ← peek with
    | some .key =>
      skip
      let k ← nodeUnless fuel [.key, .value, .blockEnd] ⟨true, true⟩
      let v ← valueUnless fuel [.key, .value, .blockEnd] ⟨true, true⟩
      return (k, v) :: (← blockEntries fuel)
    | some .blockEnd => skip; return []
    | _ => fail

def flowItems : Nat → Bool → Read (List Node)
  | 0, _ => fail
  | fuel + 1, first => do
    if ← nextIs [.flowSequenceEnd] then skip; return []
    unless first do expect .comma
    if ← nextIs [.flowSequenceEnd] then skip; return []
    let n ← flowItem fuel
    return n :: (← flowItems fuel false)

def flowItem : Nat → Read Node
  | 0 => fail
  | fuel + 1 => do
    if ← nextIs [.key] then
      skip
      let k ← if ← nextIs [.value, .comma, .flowSequenceEnd] then do skip; pure .empty
        else node fuel ⟨false, false⟩
      let v ← valueUnless fuel [.comma, .flowSequenceEnd] ⟨false, false⟩
      return .mapping [(k, v)]
    else node fuel ⟨false, false⟩

def flowEntries : Nat → Bool → Read (List (Node × Node))
  | 0, _ => fail
  | fuel + 1, first => do
    if ← nextIs [.flowMappingEnd] then skip; return []
    unless first do expect .comma
    if ← nextIs [.flowMappingEnd] then skip; return []
    let entry ←
      if ← nextIs [.key] then do
        skip
        let k ← nodeUnless fuel [.value, .comma, .flowMappingEnd] ⟨false, false⟩
        pure (k, ← valueUnless fuel [.comma, .flowMappingEnd] ⟨false, false⟩)
      else pure (← node fuel ⟨false, false⟩, .empty)
    return entry :: (← flowEntries fuel false)

def valueUnless : Nat → List Token → Place → Read Node
  | 0, _, _ => fail
  | fuel + 1, ends, place => do
    if ← nextIs [.value] then
      skip
      nodeUnless fuel ends place
    else return .empty

def nodeUnless : Nat → List Token → Place → Read Node
  | 0, _, _ => fail
  | fuel + 1, ends, place => do
    if ← nextIs ends then return .empty else node fuel place

def missing (tag : Option String) (mayMiss : Bool) : Read Node :=
  if mayMiss then return .scalar "" .plain tag else fail

end

def commonHandles : List (String × String) := [("!", "!"), ("!!", "tag:yaml.org,2002:")]

/-- Directives in front of a document: one version at most, and each handle once. -/
def directives : Nat → Bool → Read Unit
  | 0, _ => fail
  | fuel + 1, versioned => do
    match ← peek with
    | some (.version major minor) =>
      if versioned ∨ major ≠ 1 ∨ (minor ≠ 1 ∧ minor ≠ 2) then fail
      skip
      directives fuel true
    | some (.tagHandle handle expansion) =>
      if ((← get).handles.lookup handle).isSome then fail
      skip
      modify fun r => { r with handles := (handle, expansion) :: r.handles }
      directives fuel versioned
    | _ => return ()

def isDirective : Token → Bool
  | .version .. | .tagHandle .. => true
  | _ => false

def dropDocumentEnds : Read Unit :=
  modify fun r => { r with tokens := r.tokens.dropWhile (· == .documentEnd) }

def document : Read Node := do
  let fuel := 4 * (← get).tokens.length + 4
  let n ← match ← peek with
    | none => return .empty
    | some t => do
      let opened := isDirective t || t == .documentStart
      if opened then
        directives fuel false
        expect .documentStart
      modify fun r => { r with handles := r.handles ++ commonHandles }
      let bare := match ← peek with
        | none => true
        | some t => isDirective t || t == .documentStart || t == .documentEnd
      if opened && bare then pure .empty else node fuel ⟨true, false⟩
  dropDocumentEnds
  if (← peek).isSome then fail else return n

end Read

def Node.parse? (text : String) : Option Node := do
  let tokens ← tokensOf text
  let (n, _) ← Read.document.run { tokens }
  return n

end ServiceRegistry.Yaml
