import EtlFlow.Number.Real64
import EtlFlow.Yaml.Glyph
/-!
# The text of scalars

Scalars in quotes, plain scalars and block scalars: what their text is, lines folded, and what follows
them.
-/

namespace EtlFlow.Yaml.Scan

/-! ### Folding -/

/-- The line breaks of a run of spaces. -/
def breaks (run : List Glyph) : List Char := (run.filter Glyph.isBreak).map (·.char)

/-- What a run of spaces inside a scalar stands for: one line break is a space, several lose the first,
and blanks on one line stay. -/
def folded (run : List Glyph) : List Char :=
  match breaks run with
  | [] => run.map (·.char)
  | '\n' :: [] => [' ']
  | '\n' :: more => more
  | more => more

/-! ### Quoted scalars -/

/-- The characters that stand for themselves or another one behind a backslash. -/
def simpleEscapes : List (Char × Nat) := [
  ('0', 0), ('a', 7), ('b', 8), ('t', 9), ('\t', 9), ('n', 10), ('v', 11), ('f', 12), ('r', 13),
  ('e', 27), (' ', 32), ('"', 34), ('/', 47), ('\\', 92), ('N', 0x85), ('_', 0xA0), ('L', 0x2028),
  ('P', 0x2029)]

/-- How many hexadecimal digits follow a letter behind a backslash. -/
def escapeDigits? (c : Char) : Option Nat :=
  if c = 'x' then some 2 else if c = 'u' then some 4 else if c = 'U' then some 8 else none

/-- The value of hexadecimal digits. -/
def hexValue? : List Char → Option Nat
  | [] => some 0
  | ds => ds.foldlM (fun n c =>
      if c.isDigit then some (16 * n + (c.toNat - '0'.toNat))
      else if 'a' ≤ c ∧ c ≤ 'f' then some (16 * n + (c.toNat - 'a'.toNat + 10))
      else if 'A' ≤ c ∧ c ≤ 'F' then some (16 * n + (c.toNat - 'A'.toNat + 10))
      else none) 0

/-- The character that an escape stands for, and what follows; `c` comes behind the backslash. -/
def escape (c : Char) (r : List Glyph) : Except SyntaxError (Char × List Glyph) :=
  match simpleEscapes.lookup c, escapeDigits? c with
  | some n, _ => .ok (Char.ofNat n, r)
  | none, none => .error (.escape c)
  | none, some k =>
    let ds := (r.take k).map (·.char)
    match hexValue? ds with
    | none => .error (.escape c)
    | some n =>
      if ds.length = k ∧ n.isValidChar then .ok (Char.ofNat n, r.drop k) else .error (.escape c)

/-- What an escape leaves is no longer than what it was read from. -/
theorem escape_length {c d : Char} {r r' : List Glyph} (h : escape c r = .ok (d, r')) :
    r'.length ≤ r.length := by
  unfold escape at h
  split at h
  · cases h
    exact Nat.le_refl _
  · cases h
  · simp only at h
    split at h
    · cases h
    · split at h
      · cases h
        simp
      · cases h

/-- The spaces at the front. -/
def spaces (gs : List Glyph) : List Glyph := gs.takeWhile Glyph.isSpace

/-- What follows the spaces at the front. -/
def behindSpaces (gs : List Glyph) : List Glyph := gs.dropWhile Glyph.isSpace

theorem behindSpaces_length (gs : List Glyph) : (behindSpaces gs).length ≤ gs.length :=
  (List.dropWhile_suffix _).length_le

/-- The text of a quoted scalar up to its closing quote, and what follows that. -/
def quoted (quote : Char) (gs : List Glyph) : Except SyntaxError (List Char × List Glyph) :=
  match gs with
  | [] => .error .openScalar
  | g :: r =>
    if atDocumentMark (g :: r) then .error .openScalar
    else if g.char = quote then
      if quote = '\'' then
        match r with
        | h :: r' =>
          if h.char = '\'' then (quoted quote r').map fun (v, t) => ('\'' :: v, t) else .ok ([], r)
        | [] => .ok ([], r)
      else .ok ([], r)
    else if g.char = '\\' ∧ quote = '"' then
      match r with
      | [] => .error .openScalar
      | h :: r' =>
        if h.isBreak then
          (quoted quote (behindSpaces r')).map fun (v, t) => (breaks (spaces r') ++ v, t)
        else
          match _h : escape h.char r' with
          | .error e => .error e
          | .ok (c, r'') => (quoted quote r'').map fun (v, t) => (c :: v, t)
    else if g.isSpace then
      (quoted quote (behindSpaces r)).map fun (v, t) => (folded (g :: spaces r) ++ v, t)
    else (quoted quote r).map fun (v, t) => (g.char :: v, t)
termination_by gs.length
decreasing_by
  · simp only [List.length_cons]
    omega
  · have := behindSpaces_length r'
    simp only [List.length_cons]
    omega
  · have := escape_length _h
    simp only [List.length_cons]
    omega
  · have := behindSpaces_length r
    simp only [List.length_cons]
    omega
  · simp only [List.length_cons]
    omega

/-! ### Plain scalars -/

/-- The characters that part the entries of flow collections. -/
def flowMarks : String := ",[]\x7b\x7d"

/-- One word of a plain scalar.  It ends at a space, at a colon before a space, and inside flow
collections at their marks. -/
def word (flow : Bool) : List Glyph → Except SyntaxError (List Char × List Glyph)
  | [] => .ok ([], [])
  | g :: r =>
    if g.isSpace then .ok ([], g :: r)
    else if flow && g.char == ':' && nextIn (flowMarks ++ "?") r then .error (.character ':')
    else if (g.char == ':' && atSpace r) || (flow && flowMarks.toList.contains g.char) then
      .ok ([], g :: r)
    else (word flow r).map fun (v, t) => (g.char :: v, t)

theorem word_length {flow : Bool} {gs r : List Glyph} {v : List Char}
    (h : word flow gs = .ok (v, r)) : r.length ≤ gs.length := by
  induction gs generalizing v r with
  | nil =>
    simp only [word] at h
    cases h
    exact Nat.le_refl _
  | cons g gs ih =>
    unfold word at h
    split at h
    · cases h
      exact Nat.le_refl _
    · split at h
      · cases h
      · split at h
        · cases h
          exact Nat.le_refl _
        · match hw : word flow gs with
          | .error e =>
            rw [hw] at h
            cases h
          | .ok (v', r') =>
            rw [hw] at h
            cases h
            have := ih hw
            simp only [List.length_cons]
            omega

/-- A tab stands in the margin of a later line of a run of spaces. -/
def hasMarginTab (indent : Int) (run : List Glyph) : Bool :=
  (run.dropWhile fun g => !g.isBreak).any fun g => g.char == '\t' && g.column < indent

/-- A plain scalar with lines indented by at least `indent`: its text, whether a line break follows it
before the next token, and what follows it and the spaces behind. -/
def plain (flow : Bool) (indent : Int) (gs : List Glyph) :
    Except SyntaxError (List Char × Bool × List Glyph) :=
  if atDocumentMark gs || nextIs '#' gs then .ok ([], false, gs)
  else
    match _hw : word flow gs with
    | .error e => .error e
    | .ok (v, r) =>
      match r with
      | [] => .ok (v, false, [])
      | g :: r' =>
        if !g.isSpace then .ok (v, false, g :: r')
        else
          let run := g :: spaces r'
          let behind := behindSpaces r'
          if hasMarginTab indent run then .error .tab
          else if !flow && !behind.head?.any fun h => indent ≤ h.column then
            .ok (v, run.any Glyph.isBreak, behind)
          else
            match plain flow indent behind with
            | .error e => .error e
            | .ok ([], _, _) => .ok (v, run.any Glyph.isBreak, behind)
            | .ok (c :: more, broken, t) => .ok (v ++ folded run ++ c :: more, broken, t)
termination_by gs.length
decreasing_by
  have h₁ := word_length _hw
  have h₂ := behindSpaces_length r'
  simp only [List.length_cons] at h₁
  omega

/-! ### Block scalars -/

/-- What becomes of the line breaks at the end of a block scalar. -/
inductive Chomping where
  | strip
  | clip
  | keep
  deriving DecidableEq, Repr

/-- The line breaks and the margins of empty lines at the front.  A margin of zero is not known yet;
`most` is the widest one so far. -/
def margins (indent : Nat) : (most : Nat) → List Glyph →
    Except SyntaxError (List Char × Nat × List Glyph)
  | most, [] => .ok ([], most, [])
  | most, g :: r =>
    let inMargin := indent == 0 || g.column < indent
    if inMargin && g.char == ' ' then margins indent most r
    else if inMargin && g.char == '\t' then .error .tab
    else if g.isBreak then
      (margins indent (max most g.column) r).map fun (v, t) => (g.char :: v, t)
    else .ok ([], max most g.column, g :: r)

theorem margins_length {indent most m : Nat} {gs r : List Glyph} {v : List Char}
    (h : margins indent most gs = .ok (v, m, r)) : r.length ≤ gs.length := by
  induction gs generalizing v most m r with
  | nil =>
    simp only [margins] at h
    cases h
    exact Nat.le_refl _
  | cons g gs ih =>
    unfold margins at h
    simp only at h
    split at h
    · have := ih h
      simp only [List.length_cons]
      omega
    · split at h
      · cases h
      · split at h
        · match hm : margins indent (max most g.column) gs with
          | .error e =>
            rw [hm] at h
            cases h
          | .ok (v', m', r') =>
            rw [hm] at h
            cases h
            have := ih hm
            simp only [List.length_cons]
            omega
        · cases h
          exact Nat.le_refl _

/-- The lines of a block scalar.  `leading` is the break before a line and `trailing` are those of the
empty lines behind that; `blank` says that the line before starts with a blank. -/
def blockLines (literal : Bool) (chomping : Chomping) (indent : Nat) (leading trailing : List Char)
    (blank : Bool) (gs : List Glyph) : Except SyntaxError (List Char × List Glyph) :=
  let atEnd := (if chomping = .strip then [] else leading) ++
    if chomping = .keep then trailing else []
  match gs with
  | [] => .ok (atEnd, [])
  | g :: r =>
    if g.column ≠ indent then .ok (atEnd, g :: r)
    else
      let start :=
        if !literal && leading.head? == some '\n' && !blank && !g.isBlank then
          (if trailing.isEmpty then [' '] else []) ++ trailing
        else leading ++ trailing
      let line := g.char :: (r.takeWhile (!·.isBreak)).map (·.char)
      let rest := r.dropWhile (!·.isBreak)
      match _hm : margins indent 0 (rest.drop 1) with
      | .error e => .error e
      | .ok (more, _, next) =>
        (blockLines literal chomping indent ((rest.take 1).map (·.char)) more g.isBlank next).map
          fun (v, t) => (start ++ line ++ v, t)
termination_by gs.length
decreasing_by
  have h₁ := margins_length _hm
  have h₂ : rest.length ≤ r.length := (List.dropWhile_suffix _).length_le
  simp only [List.length_drop] at h₁
  simp only [List.length_cons]
  omega

/-- The marks behind the bar of a block scalar: what becomes of the last line breaks, and how much the
margin is wider than the one around. -/
def blockHeader (gs : List Glyph) : Except SyntaxError (Chomping × Nat × List Glyph) :=
  let chomp (c : Char) : Option Chomping :=
    if c = '+' then some .keep else if c = '-' then some .strip else none
  let width (c : Char) : Option Nat := if c.isDigit then some (c.toNat - '0'.toNat) else none
  let found : Option Chomping × Option Nat × List Glyph := match gs with
    | a :: b :: r =>
      match chomp a.char, width a.char, chomp b.char, width b.char with
      | some c, _, _, some w => (some c, some w, r)
      | some c, _, _, none => (some c, none, b :: r)
      | none, some w, some c, _ => (some c, some w, r)
      | none, some w, none, _ => (none, some w, b :: r)
      | none, none, _, _ => (none, none, gs)
    | [a] =>
      match chomp a.char, width a.char with
      | some c, _ => (some c, none, [])
      | none, some w => (none, some w, [])
      | none, none => (none, none, gs)
    | [] => (none, none, [])
  if found.2.1 = some 0 then .error (.expected "indentation width")
  else .ok (found.1.getD .clip, found.2.1.getD 0, found.2.2)

/-- What follows the blanks and the comment at the end of a line, and the end itself. -/
def lineEnd (gs : List Glyph) : Except SyntaxError (List Glyph) :=
  let r := gs.dropWhile Glyph.isBlank
  let r := if nextIs '#' r then r.dropWhile (!·.isBreak) else r
  match r with
  | [] => .ok []
  | g :: r => if g.isBreak then .ok r else .error (.expected "comment or line break")

/-- A block scalar behind its bar, inside a collection with margin `indent`. -/
def block (literal : Bool) (indent : Int) (gs : List Glyph) :
    Except SyntaxError (List Char × List Glyph) := do
  let (chomping, wider, r) ← blockHeader gs
  let r ← lineEnd r
  let given : Nat := if wider = 0 then 0 else (max indent 0).toNat + wider
  let (leading, most, r) ← margins given 0 r
  let margin := if given = 0 then max (max most (indent + 1).toNat) 1 else given
  blockLines literal chomping margin [] leading false r

end EtlFlow.Yaml.Scan
