import EtlFlow.Yaml.Token.Lexer
/-!
# YAML nodes

The tree of a document: scalars, sequences and mappings with their tags, each alias replaced by what it
stands for.
-/

namespace EtlFlow.Yaml

/-- A node of a document. -/
inductive Node where
  | scalar (text : String) (plain : Bool) (tag : Option String)
  | sequence (items : List Node) (tag : Option String)
  | mapping (entries : List (Node × Node)) (tag : Option String)
  deriving Inhabited, Repr

namespace Node

/-! ### Reading state -/

/-- What is left to read, and what was named so far. -/
structure Reading where
  tokens : List Token
  anchors : List (String × Node) := []
  handles : List (String × String)

/-- A reader of nodes. -/
abbrev Reader (α : Type) := StateT Reading (Except SyntaxError) α

/-- The next token. -/
def peek : Reader (Option Token) := return (← get).tokens.head?

/-- Goes on behind the next token. -/
def skip : Reader Unit := modify fun s => { s with tokens := s.tokens.drop 1 }

/-- Goes on behind the next token if it is `t`. -/
def accept (t : Token) : Reader Bool := do
  if (← peek) = some t then
    skip
    return true
  else return false

/-- The next token is one of `ts`, or there is none. -/
def nextAmong (ts : List Token) : Reader Bool := do
  match ← peek with
  | none => return true
  | some t => return ts.contains t

/-- The node of nothing. -/
def empty : Node := .scalar "" true none

/-- How deep collections may be nested. -/
def maxDepth : Nat := 128

/-- The depth that is left inside one more collection. -/
def deeper : Nat → Reader Nat
  | 0 => throw .tooDeep
  | depth + 1 => return depth

/-! ### Properties -/

/-- The full tag of a handle and a suffix. -/
def resolveTag (handle suffix : String) : Reader String := do
  if handle = "" then return suffix
  match (← get).handles.lookup handle with
  | some start => return start ++ suffix
  | none => throw (.undefinedHandle handle)

/-- The anchor and the tag in front of a node, in either order. -/
def properties : Reader (Option String × Option String) := do
  match ← peek with
  | some (.anchor name) =>
    skip
    match ← peek with
    | some (.tag h x) =>
      skip
      return (some name, some (← resolveTag h x))
    | _ => return (some name, none)
  | some (.tag h x) =>
    skip
    match ← peek with
    | some (.anchor name) =>
      skip
      return (some name, some (← resolveTag h x))
    | _ => return (none, some (← resolveTag h x))
  | _ => return (none, none)

/-- Names a node. -/
def remember (anchor : Option String) (n : Node) : Reader Node := do
  if let some name := anchor then
    modify fun s => { s with anchors := (name, n) :: s.anchors }
  return n

/-! ### Nodes -/

/-- A node of properties alone. -/
def bare (anchor tag : Option String) : Reader Node := do
  if anchor.isNone && tag.isNone then throw (.expected "node content")
  remember anchor (.scalar "" true (tag.filter (· != "!")))

mutual

/-- A node.  `block` admits block collections, `dashes` a block sequence without a margin of its own. -/
def node : (fuel depth : Nat) → (block dashes : Bool) → Reader Node
  | 0, _, _, _ => throw .tooDeep
  | fuel + 1, depth, block, dashes => do
    if let some (.aliasOf name) ← peek then
      skip
      match (← get).anchors.lookup name with
      | some n => return n
      | none => throw (.undefinedAlias name)
    let (anchor, tag) ← properties
    match ← peek with
    | some .entry =>
      if dashes then remember anchor (.sequence (← dashed fuel (← deeper depth)) tag)
      else bare anchor tag
    | some (.scalar text plain) =>
      skip
      let tag := tag.filter (· != "!")
      remember anchor (.scalar text plain tag)
    | some .flowSequence =>
      skip
      remember anchor (.sequence (← flowItems fuel (← deeper depth) true) tag)
    | some .flowMapping =>
      skip
      remember anchor (.mapping (← flowEntries fuel (← deeper depth) true) tag)
    | some .blockSequence =>
      if block then
        skip
        remember anchor (.sequence (← blockItems fuel (← deeper depth)) tag)
      else bare anchor tag
    | some .blockMapping =>
      if block then
        skip
        remember anchor (.mapping (← blockEntries fuel (← deeper depth)) tag)
      else bare anchor tag
    | _ => bare anchor tag
termination_by structural fuel _ _ _ => fuel

/-- A node, or an empty one before a token of `stops`. -/
def nodeBefore (stops : List Token) : (fuel depth : Nat) → (block dashes : Bool) → Reader Node
  | 0, _, _, _ => throw .tooDeep
  | fuel + 1, depth, block, dashes => do
    if ← nextAmong stops then return empty else node fuel depth block dashes
termination_by structural fuel _ _ _ => fuel

/-- The items of a block sequence. -/
def blockItems : (fuel depth : Nat) → Reader (List Node)
  | 0, _ => throw .tooDeep
  | fuel + 1, depth => do
    if ← accept .entry then
      let n ← nodeBefore [.entry, .blockEnd] fuel depth true false
      return n :: (← blockItems fuel depth)
    else if ← accept .blockEnd then return []
    else throw (.expected "'-' indicator")
termination_by structural fuel _ => fuel

/-- The items of a block sequence at the margin of the mapping around it. -/
def dashed : (fuel depth : Nat) → Reader (List Node)
  | 0, _ => throw .tooDeep
  | fuel + 1, depth => do
    if ← accept .entry then
      let n ← nodeBefore [.entry, .key, .value, .blockEnd] fuel depth true false
      return n :: (← dashed fuel depth)
    else return []
termination_by structural fuel _ => fuel

/-- The entries of a block mapping. -/
def blockEntries : (fuel depth : Nat) → Reader (List (Node × Node))
  | 0, _ => throw .tooDeep
  | fuel + 1, depth => do
    if ← accept .key then
      let k ← nodeBefore [.key, .value, .blockEnd] fuel depth true true
      let v ← if ← accept .value then nodeBefore [.key, .value, .blockEnd] fuel depth true true
        else pure empty
      return (k, v) :: (← blockEntries fuel depth)
    else if ← accept .blockEnd then return []
    else throw (.expected "key")
termination_by structural fuel _ => fuel

/-- The items of a flow sequence.  An item with a colon is a mapping of one entry. -/
def flowItems : (fuel depth : Nat) → (first : Bool) → Reader (List Node)
  | 0, _, _ => throw .tooDeep
  | fuel + 1, depth, first => do
    if ← accept .flowSequenceEnd then return []
    if !first then
      if !(← accept .comma) then throw (.expected "',' or ']'")
    if ← accept .flowSequenceEnd then return []
    if ← accept .key then
      let k ← nodeBefore [.value, .comma, .flowSequenceEnd] fuel depth false false
      let v ← if ← accept .value then
          nodeBefore [.comma, .flowSequenceEnd] fuel depth false false
        else pure empty
      return .mapping [(k, v)] none :: (← flowItems fuel depth false)
    else
      let n ← node fuel depth false false
      return n :: (← flowItems fuel depth false)
termination_by structural fuel _ _ => fuel

/-- The entries of a flow mapping. -/
def flowEntries : (fuel depth : Nat) → (first : Bool) → Reader (List (Node × Node))
  | 0, _, _ => throw .tooDeep
  | fuel + 1, depth, first => do
    if ← accept .flowMappingEnd then return []
    if !first then
      if !(← accept .comma) then throw (.expected "',' or '\x7d'")
    if ← accept .flowMappingEnd then return []
    if ← accept .key then
      let k ← nodeBefore [.value, .comma, .flowMappingEnd] fuel depth false false
      let v ← if ← accept .value then
          nodeBefore [.comma, .flowMappingEnd] fuel depth false false
        else pure empty
      return (k, v) :: (← flowEntries fuel depth false)
    else
      let k ← node fuel depth false false
      return (k, empty) :: (← flowEntries fuel depth false)
termination_by structural fuel _ _ => fuel

end

/-! ### Documents -/

/-- The handles that every document knows. -/
def defaultHandles : List (String × String) := [("!", "!"), ("!!", "tag:yaml.org,2002:")]

/-- The directives in front of a document: the handles that they define. -/
def directives (versions : Nat) (handles : List (String × String)) :
    List Token → Except SyntaxError (List (String × String) × List Token)
  | .version major minor :: ts =>
    if versions ≠ 0 ∨ major ≠ 1 ∨ (minor ≠ 1 ∧ minor ≠ 2) then .error (.directive "YAML")
    else directives 1 handles ts
  | .handle name start :: ts =>
    if (handles.lookup name).isSome then .error (.directive "TAG")
    else directives versions ((name, start) :: handles) ts
  | ts => .ok (handles, ts)

/-- The content of a document behind its start, and the tokens behind it. -/
def content (handles : List (String × String)) (ts : List Token) :
    Except SyntaxError (Node × List Token) := do
  match ts with
  | [] | .documentStart :: _ | .documentEnd :: _ | .version _ _ :: _ | .handle _ _ :: _ =>
    return (empty, ts)
  | ts =>
    let handles := handles ++ defaultHandles.filter fun d => (handles.lookup d.1).isNone
    let (n, s) ← (node (3 * ts.length + 3) maxDepth true false).run { tokens := ts, handles }
    return (n, s.tokens)

/-- The node of the only document of a text; none for a text without a document. -/
def parse? (text : String) : Except SyntaxError (Option Node) := do
  match ← Token.scan text with
  | [] => return none
  | ts =>
    let (handles, rest) ← directives 0 [] ts
    let explicit := rest.head? == some .documentStart
    if !explicit ∧ rest.length ≠ ts.length then throw (.expected "<document start>")
    if rest.head? == some .documentEnd then throw (.expected "node content")
    let (n, rest) ← content handles (if explicit then rest.drop 1 else rest)
    match rest.dropWhile (· == .documentEnd) with
    | [] => return some n
    | .documentStart :: _ | .version _ _ :: _ | .handle _ _ :: _ => throw .severalDocuments
    | _ => throw (.expected "<document start>")

end Node

end EtlFlow.Yaml
