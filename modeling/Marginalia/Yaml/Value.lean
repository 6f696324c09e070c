/-
Marginalia.Yaml.Value — what a document says.

`Value` is the meaning of a node. Collections nest without bound, and a
document may refer to itself, so a value is taken down to a given depth:
collections below it are `folded`, and nothing is said about what they hold.

The whole document is checked, whatever the depth. Nodes are checked level by
level: the scalars of a collection are checked with it, its collections after
all others of the same level. What is wrong first in that order is reported.

* A key may not be a collection.
* `<<` takes over the entries of another mapping, or of a list of mappings of
  which the first has precedence. The entries of the mapping itself come last,
  so they win.
* `=` is an ordinary text as a key, and has no value anywhere else.
-/
import Marginalia.Yaml.Node

namespace Marginalia.Yaml

/-- The meaning of a node. -/
inductive Value where
  | null
  | bool (b : Bool)
  | int (n : Int)
  /-- A real number, as it is written. -/
  | real (written : Text)
  /-- A point in time, as it is written. -/
  | time (written : Text)
  /-- Bytes, as they are written to base 64. -/
  | binary (written : Text)
  | text (t : Text)
  | list (items : List Value)
  | pair (first second : Value)
  | set (members : List Value)
  | mapping (entries : List (Value × Value))
  /-- A collection below the depth that was asked for. -/
  | folded
  deriving Repr

/-! ## 1. Scalars -/

/-- A whole number with underscores, a base mark or colons. -/
def intOf (t : Text) : Except ScalarError Int := do
  let (negative, body) := Number.splitSign (t.filter (· ≠ '_'))
  let sign := fun (n : Int) => if negative then -n else n
  let read := fun base t =>
    match Number.readInt base t with
    | .ok n => .ok n
    | .error e => .error (ScalarError.integer e)
  match body with
  | [] => throw .emptyNumber
  | ['0'] => return 0
  | '0' :: 'b' :: rest => return sign (← read 2 rest)
  | '0' :: 'x' :: rest => return sign (← read 16 rest)
  | '0' :: _ => return sign (← read 8 body)
  | _ =>
    let digits ← (body.splitOn ':').mapM (read 10)
    return sign (digits.foldl (fun n d => n * 60 + d) 0)

/-- A real number, perhaps in sixtieths. -/
def realOf (t : Text) : Except ScalarError Value := do
  let body := (Number.splitSign ((t.filter (· ≠ '_')).map Char.toLower)).2
  if body.isEmpty then throw .emptyNumber
  if body = ".inf".toList || body = ".nan".toList then return .real t
  match (body.splitOn ':').find? (!Number.isReal ·) with
  | some part => throw (.real part)
  | none => return .real t

/-- The truth values in lower case. -/
def boolWords : List (Text × Bool) :=
  [("yes", true), ("no", false), ("true", true), ("false", false), ("on", true),
    ("off", false)].map fun e => (e.1.toList, e.2)

/-- A truth value. -/
def boolOf (t : Text) : Except ScalarError Value :=
  let word := t.map Char.toLower
  match boolWords.lookup word with
  | some b => .ok (.bool b)
  | none => .error (.boolean word)

/-- The number that ASCII digits write. -/
def numberOf (t : Text) : Nat := t.foldl (fun n c => n * 10 + (c.toNat - '0'.toNat)) 0

/-- Whether a year has a day more. -/
def isLeap (year : Nat) : Bool := year % 4 = 0 && (year % 100 ≠ 0 || year % 400 = 0)

/-- The number of days of a month. -/
def daysIn (year month : Nat) : Nat :=
  if month = 2 then (if isLeap year then 29 else 28)
  else if month = 4 || month = 6 || month = 9 || month = 11 then 30 else 31

/-- The seconds of a day. -/
def secondsPerDay : Nat := 86400

/-- An offset from universal time has to be shorter than a day. -/
def checkZone (sign : Char) (hours minutes : Nat) : Except ScalarError Unit :=
  let seconds := hours * 3600 + minutes * 60
  if seconds < secondsPerDay then .ok ()
  else
    let signed : Int := if sign = '-' then -seconds else seconds
    .error (.zone (signed.fdiv secondsPerDay) (signed.fmod secondsPerDay).toNat)

/-- The parts of a point in time have to be in their ranges; the offset is checked first, then the
day, then the time of day. -/
def checkTime (time : Tag.TimeText) : Except ScalarError Unit := do
  let year := numberOf time.year
  let month := numberOf time.month
  let day := numberOf time.day
  if let some (sign, hours, minutes) := time.zone then
    checkZone sign (numberOf hours) (numberOf minutes)
  if year = 0 then throw (.year year)
  if month = 0 || month > 12 then throw .month
  if day = 0 || day > daysIn year month then throw .day
  if let some (hour, minute, second) := time.clock then
    if numberOf hour > 23 then throw .hour
    if numberOf minute > 59 then throw .minute
    if numberOf second > 59 then throw .second

/-- A point in time; one line feed may follow it. -/
def timeOf (t : Text) : Except ScalarError Value :=
  let line := if t.getLast? = some '\n' then t.dropLast else t
  match (Tag.time? t).orElse fun _ => Tag.time? line with
  | none => .error .notTime
  | some time => (checkTime time).map fun _ => .time t

/-- A character that stands for six bits. -/
def isBase64Char (c : Char) : Bool := c.isAlphanum || c = '+' || c = '/'

/-- Whether a text writes bytes to base 64. Other characters are passed over. `phase` counts the
characters of the present group and `pads` the equals signs in it. -/
def isBase64 (phase pads : Nat) : Text → Bool
  | [] => phase = 0
  | c :: rest =>
    if c = '=' then
      if phase ≥ 2 then (if phase + pads + 1 ≥ 4 then true else isBase64 phase (pads + 1) rest)
      else isBase64 phase pads rest
    else if isBase64Char c then isBase64 ((phase + 1) % 4) 0 rest
    else isBase64 phase pads rest

/-- The value of a scalar's text under a tag; `none` if the tag is none of a scalar's. -/
def scalarValue? (tag : Tag) (t : Text) : Option (Except Error Value) :=
  let lift := fun (r : Except ScalarError Value) => some (r.mapError Error.scalar)
  match tag with
  | .null => some (.ok .null)
  | .bool => lift (boolOf t)
  | .int => lift ((intOf t).map .int)
  | .float => lift (realOf t)
  | .timestamp => lift (timeOf t)
  | .str => some (.ok (.text t))
  | .binary =>
    some (if t.all (·.toNat < 128) && isBase64 0 0 t then .ok (.binary t)
      else .error .malformed)
  | _ => none

/-! ## 2. Graphs -/

namespace Graph

/-- The node of a number. -/
def node (g : Graph) (id : Nat) : Node := g.nodes.getD id (.scalar .null [])

/-- The text of a scalar node. A mapping with the key `=` stands for the scalar of that key. -/
def scalarText (g : Graph) (fuel : Nat) (id : Nat) : Option Text :=
  match fuel, g.node id with
  | 0, _ => none
  | _, .scalar _ t => some t
  | fuel + 1, .mapping _ entries =>
    match entries.find? fun e => (g.node e.1).tag = .value with
    | some e => g.scalarText fuel e.2
    | none => none
  | _, .sequence .. => none

/-- The value of a node under a scalar's tag; `none` if its tag is a collection's. -/
def scalarOf? (g : Graph) (id : Nat) : Option (Except Error Value) :=
  let tag := (g.node id).tag
  (scalarValue? tag []).map fun _ =>
    match g.scalarText (g.nodes.size + 1) id with
    | none => .error .malformed
    | some t => (scalarValue? tag t).getD (.error .malformed)

/-- Stores a node under its number. -/
def store (g : Graph) (id : Nat) (node : Node) : Graph :=
  { g with nodes := g.nodes.setIfInBounds id node }

/-- The graph with a key written `=` as text. -/
def settleKey (g : Graph) (id : Nat) : Graph :=
  match g.node id with
  | .scalar .value t => g.store id (.scalar .str t)
  | .sequence .value items => g.store id (.sequence .str items)
  | .mapping .value entries => g.store id (.mapping .str entries)
  | _ => g

/-- The entries of a mapping node. -/
def entries? (g : Graph) (id : Nat) : Option (List (Nat × Nat)) :=
  match g.node id with
  | .mapping _ entries => some entries
  | _ => none

/-- Replaces the entries of a mapping node. -/
def setEntries (g : Graph) (id : Nat) (entries : List (Nat × Nat)) : Graph :=
  match g.node id with
  | .mapping tag _ => g.store id (.mapping tag entries)
  | _ => g

mutual

/-- Takes over the entries that the keys `<<` of a mapping name. `taken` are those found so far and
`passed` counts the entries that were passed. An entry is removed before its mapping is looked at, so
a mapping that names itself takes over what else it has. -/
def mergeFrom (fuel : Nat) (g : Graph) (id passed : Nat) (taken : List (Nat × Nat)) :
    Except Error (Graph × List (Nat × Nat)) :=
  match fuel with
  | 0 => .error .malformed
  | fuel + 1 =>
    let entries := (g.entries? id).getD []
    match entries[passed]? with
    | none => .ok (g, taken)
    | some (key, value) =>
      match (g.node key).tag with
      | .merge => do
        let g := g.setEntries id (entries.eraseIdx passed)
        match g.node value with
        | .mapping .. =>
          let g ← flatten fuel g value
          mergeFrom fuel g id passed (taken ++ (g.entries? value).getD [])
        | .sequence _ items =>
          let (g, found) ← mergeItems fuel g items
          mergeFrom fuel g id passed (taken ++ found)
        | .scalar .. => .error .malformed
      | .value => mergeFrom fuel (g.settleKey key) id (passed + 1) taken
      | _ => mergeFrom fuel g id (passed + 1) taken

/-- The entries of a list of mappings, those of the last one first. -/
def mergeItems (fuel : Nat) (g : Graph) (items : List Nat) :
    Except Error (Graph × List (Nat × Nat)) :=
  match fuel, items with
  | 0, _ => .error .malformed
  | _, [] => .ok (g, [])
  | fuel + 1, item :: rest =>
    match g.node item with
    | .mapping .. => do
      let g ← flatten fuel g item
      let own := (g.entries? item).getD []
      let (g, others) ← mergeItems fuel g rest
      return (g, others ++ own)
    | _ => .error .malformed

/-- The graph in which a mapping holds the entries that its keys `<<` name, in front of its own. -/
def flatten (fuel : Nat) (g : Graph) (id : Nat) : Except Error Graph :=
  match fuel with
  | 0 => .error .malformed
  | fuel + 1 => do
    let (g, taken) ← mergeFrom fuel g id 0 []
    return g.setEntries id (taken ++ (g.entries? id).getD [])

end

/-- The number of steps that suffices to flatten a mapping: each step passes an entry, removes one,
or looks at an item of a list of mappings. -/
def flattenFuel (g : Graph) : Nat :=
  let sizes := g.nodes.toList.map fun n =>
    match n with
    | .scalar .. => 1
    | .sequence _ items => items.length + 1
    | .mapping _ entries => entries.length + 1
  4 * (sizes.foldr (· + ·) 0 + 1) * (g.nodes.size + 1)

/-! ## 3. Checking -/

/-- The state of a check: the graph, and the collections that were met, in order. -/
structure Check where
  graph : Graph
  met : Array Nat := #[]

/-- Whether a tag is a collection's. -/
def isCollectionTag : Tag → Bool
  | .seq | .omap | .pairs | .set | .map => true
  | _ => false

/-- Checks a node as part of a collection: a scalar at once, a collection later. -/
def meet (c : Check) (id : Nat) : Except Error Check :=
  if isCollectionTag (c.graph.node id).tag then
    .ok (if c.met.contains id then c else { c with met := c.met.push id })
  else
    match c.graph.scalarOf? id with
    | some (.ok _) => .ok c
    | some (.error e) => .error e
    | none => .error .malformed

/-- Checks the entries of a mapping, the key of an entry before its value. -/
def meetEntries (keys : Bool) (c : Check) (entries : List (Nat × Nat)) : Except Error Check :=
  entries.foldlM (fun c e => do
    let c ← meet c e.1
    if keys && isCollectionTag (c.graph.node e.1).tag then throw Error.malformed
    meet c e.2) c

/-- Checks an entry of a list of pairs, which is a mapping with one entry. -/
def meetPair (c : Check) (id : Nat) : Except Error Check :=
  match c.graph.node id with
  | .mapping _ [e] => meetEntries false c [e]
  | _ => .error .malformed

/-- Checks what a collection holds. -/
def visit (c : Check) (id : Nat) : Except Error Check :=
  match (c.graph.node id).tag, c.graph.node id with
  | .seq, .sequence _ items => items.foldlM meet c
  | .omap, .sequence _ items | .pairs, .sequence _ items => items.foldlM meetPair c
  | .map, .mapping .. | .set, .mapping .. => do
    let g ← flatten (flattenFuel c.graph) c.graph id
    meetEntries true { c with graph := g } ((g.entries? id).getD [])
  | _, _ => .error .malformed

/-- Checks the collections that were met, from the `done`-th on. -/
def visitAll (fuel : Nat) (c : Check) (done : Nat) : Except Error Graph :=
  match fuel, c.met[done]? with
  | 0, _ | _, none => .ok c.graph
  | fuel + 1, some id => do visitAll fuel (← visit c id) (done + 1)

/-- The graph with all mappings flattened, if every node has a value. -/
def check (g : Graph) : Except Error Graph := do
  visitAll (g.nodes.size + 1) (← meet { graph := g } g.root) 0

/-! ## 4. Values -/

/-- The value of a node in a checked graph, down to a depth. -/
def value (g : Graph) (depth : Nat) (id : Nat) : Value :=
  match g.scalarOf? id with
  | some r => r.toOption.getD .folded
  | none =>
    match depth with
    | 0 => .folded
    | depth + 1 =>
      match (g.node id).tag, g.node id with
      | .seq, .sequence _ items => .list (items.map (g.value depth))
      | .set, .mapping _ entries => .set (entries.map fun e => g.value depth e.1)
      | .map, .mapping _ entries =>
        .mapping (entries.map fun e => (g.value depth e.1, g.value depth e.2))
      | _, .sequence _ items =>
        .list ((items.flatMap fun item => (g.entries? item).getD []).map
          fun e => .pair (g.value depth e.1) (g.value depth e.2))
      | _, _ => .folded

end Graph

/-- The value of the one document of a text, down to a depth; an empty text says nothing. -/
def read (depth : Nat) (t : Text) : Except Error Value := do
  match ← Graph.ofTokens? (tokensOf t) with
  | none => return .null
  | some g =>
    let g ← g.check
    return g.value depth g.root

/-- The value of the last entry of a mapping whose key is a given text. -/
def Value.field? (v : Value) (name : Text) : Option Value :=
  match v with
  | .mapping entries =>
    (entries.reverse.find? fun e =>
      match e.1 with
      | .text t => t = name
      | _ => false).map (·.2)
  | _ => none

end Marginalia.Yaml
