/-
Marginalia.Yaml.Node — a document as a graph of nodes.

Nodes are numbered in the order in which they begin. A collection lists the
numbers of what it holds, so an alias is nothing but a second mention of a
number, and a collection may hold itself.

`Graph.ofTokens?` reads the tokens of one document by the grammar of blocks
and flows. Whatever is left out — a key, a value, an entry — is an empty plain
scalar. A stream without any document has no graph; a stream with more than
one is refused.
-/
import Marginalia.Yaml.Tag
import Marginalia.Yaml.Token

namespace Marginalia.Yaml

/-- A node: a scalar with its text, or a collection of numbered nodes. -/
inductive Node where
  | scalar (tag : Tag) (text : Text)
  | sequence (tag : Tag) (items : List Nat)
  | mapping (tag : Tag) (entries : List (Nat × Nat))
  deriving Repr, DecidableEq

namespace Node

/-- The tag of a node. -/
def tag : Node → Tag
  | scalar t _ => t
  | sequence t _ => t
  | mapping t _ => t

end Node

/-- The nodes of a document and the number of the outermost one. -/
structure Graph where
  nodes : Array Node
  root : Nat
  deriving Repr

/-- What is known while a document is read: the tokens that are left, the nodes so far, the
anchors with their nodes, and the handles of tags with what they stand for. -/
structure Reader where
  tokens : List Token
  nodes : Array Node := #[]
  anchors : List (Text × Nat) := []
  handles : List (Text × Text) := []

namespace Reader

/-- A step of reading. -/
abbrev Step := StateT Reader (Except Error)

/-- The next token; the text may be broken there. -/
def peek : Step (Option Token) := do
  match (← get).tokens with
  | [] => return none
  | .broken e :: _ => throw e
  | t :: _ => return some t

/-- Skips the next token. -/
def advance : Step Unit := modify fun s => { s with tokens := s.tokens.tail }

/-- Skips the next token if it is the given one. -/
def accept (t : Token) : Step Bool := do
  if (← peek) = some t then
    advance
    return true
  return false

/-- Skips the next token, which has to be the given one. -/
def expect (t : Token) : Step Unit := do
  if !(← accept t) then throw Error.malformed

/-- Whether the next token is one of the given ones. -/
def sees (ts : List Token) : Step Bool := return (← peek).any (ts.contains ·)

/-- Adds a node and gives its number. -/
def add (node : Node) : Step Nat := do
  let s ← get
  set { s with nodes := s.nodes.push node }
  return s.nodes.size

/-- Adds the node of something that was left out. -/
def addEmpty : Step Nat := add (.scalar (Tag.ofPlain []) [])

/-- Adds a node under an anchor, which has to be new. -/
def addAnchored (anchor : Option Text) (node : Node) : Step Nat := do
  let id ← add node
  match anchor with
  | none => return id
  | some name =>
    if (← get).anchors.any (·.1 = name) then throw Error.malformed
    modify fun s => { s with anchors := (name, id) :: s.anchors }
    return id

/-- Stores a node whose number was taken before. -/
def store (id : Nat) (node : Node) : Step Unit :=
  modify fun s => { s with nodes := s.nodes.setIfInBounds id node }

/-- An anchor in front of a node. -/
def anchor? : Step (Option Text) := do
  match ← peek with
  | some (.anchor name) =>
    advance
    return some name
  | _ => return none

/-- A tag in front of a node, with its handle replaced by what that stands for. -/
def tag? : Step (Option Text) := do
  match ← peek with
  | some (.tag handle suffix) =>
    advance
    match handle with
    | none => return some suffix
    | some name =>
      match (← get).handles.lookup name with
      | none => throw Error.malformed
      | some expansion => return some (expansion ++ suffix)
  | _ => return none

/-- An anchor and a tag in front of a node, in either order. -/
def properties : Step (Option Text × Option Text) := do
  match ← anchor? with
  | some name => return (some name, ← tag?)
  | none =>
    match ← tag? with
    | none => return (none, none)
    | some tag => return (← anchor?, some tag)

/-- The tag that leaves the type of a node to its form. -/
def openTag : Text := ['!']

/-- The tag of a scalar. -/
def scalarTag (tag : Option Text) (plain : Bool) (text : Text) : Tag :=
  match tag with
  | none => if plain then Tag.ofPlain text else .str
  | some t => if t = openTag then Tag.ofPlain text else Tag.ofText t

/-- The tag of a collection whose form gives it a tag. -/
def collectionTag (tag : Option Text) (form : Tag) : Tag :=
  match tag with
  | none => form
  | some t => if t = openTag then form else Tag.ofText t

/-! ## 1. Blocks and flows -/

mutual

/-- A node. Blocks may be left out of flows, and a sequence without indentation of its own may
stand only as part of a mapping. -/
def node (fuel : Nat) (inBlock unindented : Bool) : Step Nat := do
  match fuel with
  | 0 => throw Error.malformed
  | fuel + 1 =>
    if let some (.alias name) ← peek then
      advance
      match (← get).anchors.lookup name with
      | some id => return id
      | none => throw Error.malformed
    let (anchor, tag) ← properties
    let sequence := fun (items : Step (List Nat)) => do
      let tag := collectionTag tag .seq
      let id ← addAnchored anchor (.sequence tag [])
      store id (.sequence tag (← items))
      return id
    let mapping := fun (entries : Step (List (Nat × Nat))) => do
      let tag := collectionTag tag .map
      let id ← addAnchored anchor (.mapping tag [])
      store id (.mapping tag (← entries))
      return id
    match ← peek with
    | some .entry =>
      if unindented then sequence (unindentedItems fuel) else nothing anchor tag
    | some (.scalar text plain) =>
      advance
      addAnchored anchor (.scalar (scalarTag tag plain text) text)
    | some .flowSequenceStart =>
      advance
      sequence (flowItems fuel true)
    | some .flowMappingStart =>
      advance
      mapping (flowEntries fuel true)
    | some .blockSequenceStart =>
      if inBlock then
        advance
        sequence (blockItems fuel)
      else nothing anchor tag
    | some .blockMappingStart =>
      if inBlock then
        advance
        mapping (blockEntries fuel)
      else nothing anchor tag
    | _ => nothing anchor tag

/-- A node of which there is nothing but an anchor or a tag. -/
def nothing (anchor tag : Option Text) : Step Nat := do
  if anchor.isNone && tag.isNone then throw Error.malformed
  addAnchored anchor (.scalar (scalarTag tag true []) [])

/-- A node, unless one of the given tokens shows that it was left out. -/
def nodeUnless (fuel : Nat) (ends : List Token) (inBlock unindented : Bool) : Step Nat := do
  match fuel with
  | 0 => throw Error.malformed
  | fuel + 1 => if ← sees ends then addEmpty else node fuel inBlock unindented

/-- The entries of a block sequence. -/
def blockItems (fuel : Nat) : Step (List Nat) := do
  match fuel with
  | 0 => throw Error.malformed
  | fuel + 1 =>
    if ← accept .entry then
      let item ← nodeUnless fuel [.entry, .blockEnd] true false
      return item :: (← blockItems fuel)
    expect .blockEnd
    return []

/-- The entries of a sequence that is indented like the key before it. -/
def unindentedItems (fuel : Nat) : Step (List Nat) := do
  match fuel with
  | 0 => throw Error.malformed
  | fuel + 1 =>
    if ← accept .entry then
      let item ← nodeUnless fuel [.entry, .key, .value, .blockEnd] true false
      return item :: (← unindentedItems fuel)
    return []

/-- The entries of a block mapping. -/
def blockEntries (fuel : Nat) : Step (List (Nat × Nat)) := do
  match fuel with
  | 0 => throw Error.malformed
  | fuel + 1 =>
    let ends := [.key, .value, .blockEnd]
    if ← accept .key then
      let key ← nodeUnless fuel ends true true
      let value ← if ← accept .value then nodeUnless fuel ends true true else addEmpty
      return (key, value) :: (← blockEntries fuel)
    expect .blockEnd
    return []

/-- A single entry of a mapping inside a flow sequence. -/
def flowPair (fuel : Nat) : Step Nat := do
  match fuel with
  | 0 => throw Error.malformed
  | fuel + 1 =>
    let id ← add (.mapping .map [])
    let key ← nodeUnless fuel [.value, .separator, .flowSequenceEnd] false false
    let value ←
      if ← accept .value then nodeUnless fuel [.separator, .flowSequenceEnd] false false
      else addEmpty
    store id (.mapping .map [(key, value)])
    return id

/-- The entries of a flow sequence; all but the first need a comma in front. -/
def flowItems (fuel : Nat) (first : Bool) : Step (List Nat) := do
  match fuel with
  | 0 => throw Error.malformed
  | fuel + 1 =>
    if ← accept .flowSequenceEnd then return []
    if !first then expect .separator
    if ← accept .flowSequenceEnd then return []
    let item ← if ← accept .key then flowPair fuel else node fuel false false
    return item :: (← flowItems fuel false)

/-- The entries of a flow mapping; all but the first need a comma in front. -/
def flowEntries (fuel : Nat) (first : Bool) : Step (List (Nat × Nat)) := do
  match fuel with
  | 0 => throw Error.malformed
  | fuel + 1 =>
    if ← accept .flowMappingEnd then return []
    if !first then expect .separator
    if ← accept .flowMappingEnd then return []
    let ends := [.separator, .flowMappingEnd]
    let entry ←
      if ← accept .key then do
        let key ← nodeUnless fuel (.value :: ends) false false
        let value ← if ← accept .value then nodeUnless fuel ends false false else addEmpty
        pure (key, value)
      else do
        let key ← node fuel false false
        pure (key, ← addEmpty)
    return entry :: (← flowEntries fuel false)

end

/-! ## 2. Documents -/

/-- The handles that every document knows. -/
def commonHandles : List (Text × Text) := [(['!'], ['!']), (['!', '!'], Tag.standard)]

/-- Reads the directives in front of a document: at most one version, which has to be 1, and
handles that differ. -/
def directives (fuel : Nat) (versioned : Bool) (handles : List (Text × Text)) :
    Step (List (Text × Text)) := do
  match fuel with
  | 0 => return handles
  | fuel + 1 =>
    match ← peek with
    | some (.directive d) =>
      advance
      match d with
      | .version major =>
        if versioned || major ≠ 1 then throw Error.malformed
        directives fuel true handles
      | .handle name expansion =>
        if handles.any (·.1 = name) then throw Error.malformed
        directives fuel versioned ((name, expansion) :: handles)
      | .other => directives fuel versioned handles
    | _ => return handles

/-- Skips marks at the end of a document. -/
def documentEnds (fuel : Nat) : Step Unit := do
  match fuel with
  | 0 => return
  | fuel + 1 => if ← accept .documentEnd then documentEnds fuel

/-- The document of a stream; a second one is refused. -/
def document (fuel : Nat) : Step (Option Nat) := do
  let root ← do
    match ← peek with
    | none => return none
    | some (.directive _) | some .documentStart =>
      let own ← directives fuel false []
      expect .documentStart
      modify fun s => { s with handles := own ++ commonHandles }
      match ← peek with
      | none | some (.directive _) | some .documentStart | some .documentEnd => addEmpty
      | _ => node fuel true false
    | _ =>
      modify fun s => { s with handles := commonHandles }
      node fuel true false
  documentEnds fuel
  if (← peek).isSome then throw Error.malformed
  return some root

end Reader

/-- The graph of the one document that tokens write; `none` if they write none. Each call of the
grammar reads a token or is followed by one that does. -/
def Graph.ofTokens? (tokens : List Token) : Except Error (Option Graph) := do
  let (root, s) ← (Reader.document (4 * tokens.length + 4)).run { tokens }
  return root.map fun id => ⟨s.nodes, id⟩

end Marginalia.Yaml
