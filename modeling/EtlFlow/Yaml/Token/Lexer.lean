import EtlFlow.Yaml.Token.Scalar
/-!
# Reading YAML tokens

The tokens of a text: the marks of documents, collections, entries, keys and values, the properties of
nodes, and scalars.  The ends of block collections are tokens of their own.  Two things make them
depend on what came before: the margins of the block collections that are open, and the last place
where a key may have started, for a colon tells only afterwards that it did.
-/

namespace EtlFlow.Yaml

/-- A token of YAML text. -/
inductive Token where
  | version (major minor : Nat)
  | handle (name start : String)
  | documentStart
  | documentEnd
  | blockSequence
  | blockMapping
  | blockEnd
  | flowSequence
  | flowSequenceEnd
  | flowMapping
  | flowMappingEnd
  /-- The dash of a block sequence. -/
  | entry
  | comma
  | key
  | value
  | aliasOf (name : String)
  | anchor (name : String)
  | tag (handle suffix : String)
  | scalar (text : String) (plain : Bool)
  deriving DecidableEq, Repr

namespace Scan

/-! ### State -/

/-- A place where a key may have started. -/
structure KeyPlace where
  /-- The token there can be nothing but a key. -/
  required : Bool
  /-- How many tokens come before it. -/
  before : Nat
  column : Nat
  line : Nat
  index : Nat
  deriving DecidableEq, Repr

/-- The state of reading. -/
structure State where
  /-- The tokens so far, the last one first. -/
  tokens : List Token := []
  /-- The margin of the innermost block collection. -/
  margin : Int := -1
  /-- The margins around it. -/
  outer : List Int := []
  /-- Where a key may have started, in the innermost flow collection. -/
  key : Option KeyPlace := none
  /-- The same for the collections around it. -/
  flow : List (Option KeyPlace) := []
  keyAllowed : Bool := true
  rest : List Glyph

namespace State

/-- No flow collection is open. -/
def inBlock (s : State) : Bool := s.flow.isEmpty

/-- The state with one more token. -/
def push (t : Token) (s : State) : State := { s with tokens := t :: s.tokens }

/-- The state with a token behind the first `n`. -/
def insert (n : Nat) (t : Token) (s : State) : State :=
  let later := s.tokens.length - n
  { s with tokens := s.tokens.take later ++ t :: s.tokens.drop later }

/-- The state in front of `rest`. -/
def at_ (rest : List Glyph) (s : State) : State := { s with rest }

/-- The state in which a key may start next, or may not. -/
def allowKey (b : Bool) (s : State) : State := { s with keyAllowed := b }

/-- No key started where one may have. -/
def forgetKey (s : State) : Except SyntaxError State :=
  if s.key.any (·.required) then .error .missingColon else .ok { s with key := none }

/-- A key may start at `g`. -/
def saveKey (g : Glyph) (s : State) : Except SyntaxError State :=
  if s.keyAllowed then do
    let s ← s.forgetKey
    let required := s.inBlock && s.margin == g.column
    return { s with key := some ⟨required, s.tokens.length, g.column, g.line, g.index⟩ }
  else return s

/-- The longest key, in characters. -/
def maxKey : Nat := 1024

/-- A key that started at `k` cannot reach `g`: it would be on two lines or too long. -/
def isStale (g : Glyph) (k : KeyPlace) : Bool := k.line < g.line || k.index + maxKey < g.index

/-- The state without the places where no key can have started that reaches `g`. -/
def dropStale (g : Glyph) (s : State) : Except SyntaxError State :=
  if (s.key :: s.flow).any (·.any fun k => isStale g k && k.required) then .error .missingColon
  else
    let fresh := fun k : Option KeyPlace => k.filter fun k => !isStale g k
    .ok { s with key := fresh s.key, flow := s.flow.map fresh }

/-! ### Margins -/

/-- A block collection opens at a column that lies beyond the margin; its token goes behind the first
`before` tokens. -/
def openBlock (column before : Nat) (t : Token) (s : State) : State :=
  if s.inBlock && s.margin < column then
    let s := s.insert before t
    { s with margin := column, outer := s.margin :: s.outer }
  else s

/-- Ends the block collections with margins beyond `column`. -/
def closeMargins (column : Int) : (margin : Int) → (outer : List Int) → List Token →
    Int × List Int × List Token
  | margin, [], tokens => (margin, [], tokens)
  | margin, m :: outer, tokens =>
    if column < margin then closeMargins column m outer (.blockEnd :: tokens)
    else (margin, m :: outer, tokens)

/-- The block collections beyond `column` end. -/
def closeBlocks (column : Int) (s : State) : State :=
  if s.inBlock then
    let (margin, outer, tokens) := closeMargins column s.margin s.outer s.tokens
    { s with margin, outer, tokens }
  else s

end State

/-! ### Between tokens -/

/-- What follows the spaces and comments in front of a token, and whether a key may start there.  A line
break lets a key start; until then a tab counts as a space. -/
def skipIdle (inBlock : Bool) : (allowed comment : Bool) → List Glyph → Bool × List Glyph
  | allowed, _, [] => (allowed, [])
  | allowed, comment, g :: r =>
    if g.isBreak then skipIdle inBlock (allowed || inBlock) false r
    else if comment then skipIdle inBlock allowed true r
    else if g.char == ' ' || (g.char == '\t' && !(inBlock && allowed)) ||
        (g.char.toNat == 0xFEFF && g.column == 0) then skipIdle inBlock allowed false r
    else if g.char == '#' then skipIdle inBlock allowed true r
    else (allowed, g :: r)

/-! ### Properties of nodes -/

/-- The character may stand in the name of an anchor or a handle. -/
def inName (c : Char) : Bool := c.isAlphanum || c == '_' || c == '-'

/-- The name of an anchor, and what follows it. -/
def anchorName (gs : List Glyph) : Except SyntaxError (String × List Glyph) :=
  let name := (gs.takeWhile (inName ·.char)).map (·.char)
  let r := gs.dropWhile (inName ·.char)
  if name.isEmpty ∨ !(atSpace r || nextIn "?:,]\x7d%@`" r) then .error (.expected "anchor name")
  else .ok (String.ofList name, r)

/-- The character may stand in a tag. -/
def inTag (verbatim : Bool) (c : Char) : Bool :=
  inName c || ";/?:@&=+$.%!~*'()".toList.contains c || (verbatim && ",[]".toList.contains c)

/-- The bytes of a tag, where a percent sign and two digits stand for one byte. -/
def tagBytes : List Char → Option (List UInt8)
  | [] => some []
  | '%' :: a :: b :: s => do
    let n ← hexValue? [a, b]
    return UInt8.ofNat n :: (← tagBytes s)
  | c :: s => if c = '%' then none else do return c.toString.toUTF8.toList ++ (← tagBytes s)

/-- The text of a tag. -/
def tagText (s : List Char) : Except SyntaxError String :=
  match (tagBytes s).bind fun bs => String.fromUTF8? ⟨bs.toArray⟩ with
  | some t => .ok t
  | none => .error (.expected "tag")

/-- The characters of a tag at the front, and what follows them. -/
def tagChars (verbatim : Bool) (gs : List Glyph) : List Char × List Glyph :=
  ((gs.takeWhile (inTag verbatim ·.char)).map (·.char), gs.dropWhile (inTag verbatim ·.char))

/-- A tag behind its exclamation mark: its token and what follows. -/
def tag (gs : List Glyph) : Except SyntaxError (Token × List Glyph) :=
  match gs with
  | g :: r =>
    if g.char = '<' then
      let (cs, r) := tagChars true r
      if cs.isEmpty ∨ !nextIs '>' r then .error (.expected "tag")
      else (tagText cs).map fun t => (.tag "" t, r.drop 1)
    else handled
  | [] => handled
where
  /-- The handle is `!` or stands between two exclamation marks. -/
  handled : Except SyntaxError (Token × List Glyph) :=
    let name := (gs.takeWhile (inName ·.char)).map (·.char)
    let r := gs.dropWhile (inName ·.char)
    if nextIs '!' r then
      let (cs, r) := tagChars false (r.drop 1)
      if cs.isEmpty then .error (.expected "tag")
      else (tagText cs).map fun t => (.tag (String.ofList ('!' :: name ++ ['!'])) t, r)
    else
      let (cs, r) := tagChars false gs
      (tagText cs).map fun t => (if t = "" then .tag "" "!" else .tag "!" t, r)

/-! ### Directives -/

/-- A number of at most nine digits, and what follows it. -/
def versionNumber (gs : List Glyph) : Except SyntaxError (Nat × List Glyph) :=
  let ds := (gs.takeWhile (·.char.isDigit)).map (·.char)
  if ds.isEmpty ∨ 9 < ds.length then .error (.directive "YAML")
  else .ok (Number.Real64.digitsValue ds, gs.dropWhile (·.char.isDigit))

/-- A handle with the exclamation marks around it, and what follows it. -/
def directiveHandle (gs : List Glyph) : Except SyntaxError (String × List Glyph) :=
  if !nextIs '!' gs then .error (.directive "TAG")
  else
    let name := ((gs.drop 1).takeWhile (inName ·.char)).map (·.char)
    let r := (gs.drop 1).dropWhile (inName ·.char)
    if nextIs '!' r then .ok (String.ofList ('!' :: name ++ ['!']), r.drop 1)
    else if name.isEmpty then .ok ("!", r)
    else .error (.directive "TAG")

/-- A directive behind its percent sign: its token and what follows its line. -/
def directive (gs : List Glyph) : Except SyntaxError (Token × List Glyph) := do
  let name := String.ofList ((gs.takeWhile (inName ·.char)).map (·.char))
  let r := gs.dropWhile (inName ·.char)
  if !atSpace r then throw (.directive name)
  let r := r.dropWhile Glyph.isBlank
  match name with
  | "YAML" =>
    let (major, r) ← versionNumber r
    if !nextIs '.' r then throw (.directive name)
    let (minor, r) ← versionNumber (r.drop 1)
    return (.version major minor, ← lineEnd r)
  | "TAG" =>
    let (handle, r) ← directiveHandle r
    if !r.head?.any Glyph.isBlank then throw (.directive name)
    let (cs, r) := tagChars true (r.dropWhile Glyph.isBlank)
    if cs.isEmpty ∨ !atSpace r then throw (.directive name)
    return (.handle handle (← tagText cs), ← lineEnd r)
  | _ => throw (.directive name)

/-! ### One token -/

/-- A collection opens in flow style. -/
def openFlow (g : Glyph) (r : List Glyph) (t : Token) (s : State) : Except SyntaxError State := do
  let s ← s.saveKey g
  return { s.push t with key := none, flow := s.key :: s.flow, keyAllowed := true, rest := r }

/-- A collection in flow style closes. -/
def closeFlow (r : List Glyph) (t : Token) (s : State) : Except SyntaxError State := do
  let s ← s.forgetKey
  let (key, flow) := match s.flow with
    | [] => (none, [])
    | k :: ks => (k, ks)
  return { s.push t with key, flow, keyAllowed := false, rest := r }

/-- A dash, a question mark or a colon opens a block collection where a key may start. -/
def openEntry (g : Glyph) (what : String) (collection : Token) (s : State) :
    Except SyntaxError State :=
  if !s.inBlock then .ok s
  else if !s.keyAllowed then .error (.misplaced what)
  else .ok (s.openBlock g.column s.tokens.length collection)

/-- A dash before an entry of a block sequence. -/
def entry (g : Glyph) (r : List Glyph) (s : State) : Except SyntaxError State := do
  let s ← (← openEntry g "block sequence entries" .blockSequence s).forgetKey
  return (s.push .entry).allowKey true |>.at_ r

/-- A question mark before a key. -/
def explicitKey (g : Glyph) (r : List Glyph) (s : State) : Except SyntaxError State := do
  let s ← (← openEntry g "mapping keys" .blockMapping s).forgetKey
  return (s.push .key).allowKey s.inBlock |>.at_ r

/-- A colon before a value. -/
def value (g : Glyph) (r : List Glyph) (s : State) : Except SyntaxError State := do
  match s.key with
  | some k =>
    let s := (s.insert k.before .key).openBlock k.column k.before .blockMapping
    return { s.push .value with key := none, keyAllowed := false, rest := r }
  | none =>
    let s ← openEntry g "mapping values" .blockMapping s
    return (s.push .value).allowKey s.inBlock |>.at_ r

/-- A node, or a property of one, that starts at `g`. -/
def node (g : Glyph) (t : Token) (r : List Glyph) (s : State) : Except SyntaxError State := do
  let s ← s.saveKey g
  return (s.push t).allowKey false |>.at_ r

/-- A directive or a mark of a document. -/
def ofDocument (t : Token) (r : List Glyph) (s : State) : Except SyntaxError State := do
  let s ← (s.closeBlocks (-1)).forgetKey
  return (s.push t).allowKey false |>.at_ r

/-- A comma between entries. -/
def comma (r : List Glyph) (s : State) : Except SyntaxError State := do
  let s ← s.forgetKey
  return (s.push .comma).allowKey true |>.at_ r

/-- A block scalar behind its bar. -/
def blockScalar (literal : Bool) (r : List Glyph) (s : State) : Except SyntaxError State := do
  let s ← s.forgetKey
  let (text, r) ← block literal s.margin r
  return (s.push (.scalar (String.ofList text) false)).allowKey true |>.at_ r

/-- A scalar in quotes behind its first quote. -/
def quotedScalar (g : Glyph) (r : List Glyph) (s : State) : Except SyntaxError State := do
  let (text, r) ← quoted g.char r
  node g (.scalar (String.ofList text) false) r s

/-- A plain scalar. -/
def plainScalar (g : Glyph) (r : List Glyph) (s : State) : Except SyntaxError State := do
  let (text, broken, r) ← plain (!s.inBlock) (s.margin + 1) (g :: r)
  let s ← node g (.scalar (String.ofList text) true) r s
  return s.allowKey broken

/-- The marks that no plain scalar starts with. -/
def indicators : String := "-?:,[]\x7b\x7d#&*!|>'\"%@`"

/-- A plain scalar starts at `g`. -/
def startsPlain (inBlock : Bool) (g : Glyph) (r : List Glyph) : Bool :=
  !(g.isSpace || indicators.toList.contains g.char) ||
    (g.char == '-' && !r.head?.any Glyph.isBlank) ||
    (inBlock && (g.char == '?' || g.char == ':') && !atSpace r)

/-- The state behind the token that starts at `g`. -/
def step (g : Glyph) (r : List Glyph) (s : State) : Except SyntaxError State := do
  let s := (← s.dropStale g).closeBlocks g.column
  if g.column = 0 ∧ g.char = '%' then
    let (t, r) ← directive r
    ofDocument t r s
  else if g.column = 0 ∧ atMark '-' (g :: r) then ofDocument .documentStart (r.drop 2) s
  else if g.column = 0 ∧ atMark '.' (g :: r) then ofDocument .documentEnd (r.drop 2) s
  else if g.char = '[' then openFlow g r .flowSequence s
  else if g.char = '\x7b' then openFlow g r .flowMapping s
  else if g.char = ']' then closeFlow r .flowSequenceEnd s
  else if g.char = '\x7d' then closeFlow r .flowMappingEnd s
  else if g.char = ',' then comma r s
  else if g.char = '-' ∧ atSpace r then entry g r s
  else if g.char = '?' ∧ (!s.inBlock ∨ atSpace r) then explicitKey g r s
  else if g.char = ':' ∧ (!s.inBlock ∨ atSpace r) then value g r s
  else if g.char = '*' then
    let (name, r) ← anchorName r
    node g (.aliasOf name) r s
  else if g.char = '&' then
    let (name, r) ← anchorName r
    node g (.anchor name) r s
  else if g.char = '!' then
    let (t, r) ← tag r
    if !(atSpace r || (!s.inBlock && nextIs ',' r)) then throw (.expected "whitespace")
    node g t r s
  else if g.char = '|' ∧ s.inBlock then blockScalar true r s
  else if g.char = '>' ∧ s.inBlock then blockScalar false r s
  else if g.char = '\'' ∨ g.char = '"' then quotedScalar g r s
  else if startsPlain s.inBlock g r then plainScalar g r s
  else throw (.character g.char)

/-! ### All tokens -/

/-- The tokens of what is left, of which there are at most `most`. -/
def run : (most : Nat) → State → Except SyntaxError (List Token)
  | 0, _ => .error .tooDeep
  | most + 1, s =>
    let (keyAllowed, rest) := skipIdle s.inBlock s.keyAllowed false s.rest
    match rest with
    | [] => ((s.closeBlocks (-1)).forgetKey).map (·.tokens.reverse)
    | g :: r =>
      match step g r { s with keyAllowed, rest } with
      | .error e => .error e
      | .ok s => run most s

end Scan

/-- The tokens of a text. -/
def Token.scan (text : String) : Except SyntaxError (List Token) := do
  let gs ← Glyph.ofChars 0 0 0 text.toList
  Scan.run (gs.length + 1) { rest := gs }

end EtlFlow.Yaml
