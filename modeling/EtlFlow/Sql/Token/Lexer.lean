import EtlFlow.Sql.Token
import EtlFlow.Text.Letter
/-!
# Reading tokens

`Token.scan` reads a whole text into tokens or names the first thing in it that is not closed.  Each
reader here takes the text behind the character that chose it and gives what it read with the rest;
`step_suffix` says that the rest is always a suffix of that text, so the scan ends.
-/

namespace EtlFlow.Sql

/-- Why a text has no tokens. -/
inductive LexError where
  | openText
  | openEscapedText
  | openName (close : Char)
  | openComment
  | openDollarText
  | openTaggedText
  /-- The text begins an operator without finishing it. -/
  | partOperator (lexeme : String)
  deriving DecidableEq, Repr

/-- The wording of a lexical error. -/
def LexError.message : LexError → String
  | .openText => "Unterminated string literal"
  | .openEscapedText => "Unterminated encoded string literal"
  | .openName close => "Expected close delimiter '" ++ String.singleton close ++ "' before EOF."
  | .openComment => "Unexpected EOF while in a multi-line comment"
  | .openDollarText => "Unterminated dollar-quoted string"
  | .openTaggedText => "Unterminated dollar-quoted, expected $"
  | .partOperator lexeme => "Expected a valid binary operator after '" ++ lexeme ++ "'"

namespace Token

/-! ### Text literals and quoted words -/

/-- What a backslash makes of the character behind it in a plain literal. -/
def unescape : Char → Char
  | '0' => '\x00'
  | 'a' => '\x07'
  | 'b' => '\x08'
  | 'f' => '\x0c'
  | 'n' => '\n'
  | 'r' => '\r'
  | 't' => '\t'
  | 'Z' => '\x1a'
  | c => c

/-- The value of a literal up to its closing quote; a doubled quote stands for one. -/
def readText : List Char → Option (List Char × List Char)
  | [] => none
  | '\\' :: c :: s => (readText s).map fun (v, r) => (unescape c :: v, r)
  | '\'' :: '\'' :: s => (readText s).map fun (v, r) => ('\'' :: v, r)
  | '\'' :: s => some ([], s)
  | c :: s => (readText s).map fun (v, r) => (c :: v, r)

/-- The value of a word up to `close`; a doubled `close` stands for one. -/
def readName (close : Char) : List Char → Option (List Char × List Char)
  | [] => none
  | [c] => if c = close then some ([], []) else none
  | c :: d :: s =>
    if c = close then
      if d = close then (readName close s).map fun (v, r) => (close :: v, r)
      else some ([], d :: s)
    else (readName close (d :: s)).map fun (v, r) => (c :: v, r)

/-- The value of a digit in a base of at most sixteen. -/
def digitValue (c : Char) : Nat :=
  if c.isDigit then c.toNat - 48
  else if 'a' ≤ c ∧ c ≤ 'f' then c.toNat - 87
  else if 'A' ≤ c ∧ c ≤ 'F' then c.toNat - 55
  else 16

/-- The character is a digit in base `base`. -/
def isDigitIn (base : Nat) (c : Char) : Bool := digitValue c < base

/-- The number that digits in base `base` write. -/
def digitsValue (base : Nat) (ds : List Char) : Nat :=
  ds.foldl (fun n c => n * base + digitValue c) 0

/-- The ASCII character of a code, taken modulo 256. -/
def charOfByte? (n : Nat) : Option Char :=
  if n % 256 < 128 then some (Char.ofNat (n % 256)) else none

/-- The character of a code point written in hexadecimal digits, a plus sign allowed in front. -/
def charOfHex? (ds : List Char) : Option Char :=
  let ds := if ds.head? = some '+' then ds.tail else ds
  if ds ≠ [] ∧ ds.all (isDigitIn 16) then
    let n := digitsValue 16 ds
    if n.isValidChar then some (Char.ofNat n) else none
  else none

/-- The character that an escape in an escaped literal stands for, and what follows the escape. -/
def readEscape : List Char → Option (Char × List Char)
  | [] => none
  | 'b' :: s => some ('\x08', s)
  | 'f' :: s => some ('\x0c', s)
  | 'n' :: s => some ('\n', s)
  | 'r' :: s => some ('\r', s)
  | 't' :: s => some ('\t', s)
  | 'u' :: s => if 4 ≤ s.length then (charOfHex? (s.take 4)).map (·, s.drop 4) else none
  | 'U' :: s => if 8 ≤ s.length then (charOfHex? (s.take 8)).map (·, s.drop 8) else none
  | 'x' :: s =>
    let ds := (s.take 2).takeWhile (isDigitIn 16)
    if ds = [] then some ('x', s) else (charOfByte? (digitsValue 16 ds)).map (·, s.drop ds.length)
  | c :: s =>
    if isDigitIn 8 c then
      let ds := (s.take 2).takeWhile (isDigitIn 8)
      (charOfByte? (digitsValue 8 (c :: ds))).map (·, s.drop ds.length)
    else some (c, s)

theorem readEscape_suffix {s r : List Char} {c : Char} (h : readEscape s = some (c, r)) :
    r <:+ s ∧ r.length < s.length := by
  have suffix_cons {d : Char} {t : List Char} (n : Nat) :
      t.drop n <:+ d :: t ∧ (t.drop n).length < (d :: t).length :=
    ⟨(List.drop_suffix n t).trans (List.suffix_cons d t), by simp only [List.length_drop, List.length_cons]; omega⟩
  unfold readEscape at h
  split at h
  · simp at h
  all_goals first
    | (cases h; exact suffix_cons 0)
    | (split at h
       · simp only [Option.map_eq_some_iff, Prod.mk.injEq] at h
         obtain ⟨_, _, _, rfl⟩ := h; exact suffix_cons _
       · simp at h)
    | skip
  · dsimp only at h
    split at h
    · cases h; exact suffix_cons 0
    · simp only [Option.map_eq_some_iff, Prod.mk.injEq] at h
      obtain ⟨_, _, _, rfl⟩ := h; exact suffix_cons _
  · dsimp only at h
    split at h
    · simp only [Option.map_eq_some_iff, Prod.mk.injEq] at h
      obtain ⟨_, _, _, rfl⟩ := h; exact suffix_cons _
    · cases h; exact suffix_cons 0

/-- The value of an escaped literal up to its closing quote.  An escape must not stand for NUL. -/
def readEscapedText : List Char → Option (List Char × List Char)
  | [] => none
  | '\'' :: '\'' :: s => (readEscapedText s).map fun (v, r) => ('\'' :: v, r)
  | '\'' :: s => some ([], s)
  | '\\' :: s =>
    match _h : readEscape s with
    | none => none
    | some (c, r) =>
      if c = '\x00' then none else (readEscapedText r).map fun (v, r) => (c :: v, r)
  | c :: s => (readEscapedText s).map fun (v, r) => (c :: v, r)
termination_by s => s.length
decreasing_by
  · simp only [List.length_cons]
    omega
  · have := (readEscape_suffix _h).2
    simp only [List.length_cons]
    omega
  · simp only [List.length_cons]
    omega

/-! ### Comments and text between dollar signs -/

/-- What follows a block comment. -/
def afterComment : List Char → Option (List Char)
  | [] => none
  | '*' :: '/' :: s => some s
  | _ :: s => afterComment s

/-- The text up to the first copy of `close`, and what follows it. -/
def readUntil (close : List Char) : List Char → Option (List Char × List Char)
  | [] => none
  | c :: s =>
    if close.isPrefixOf (c :: s) then some ([], (c :: s).drop close.length)
    else (readUntil close s).map fun (v, r) => (c :: v, r)

/-! ### Numbers -/

/-- The exponent at the front of the text, empty where there is none, and the rest. -/
def readExponent : List Char → List Char × List Char
  | [] => ([], [])
  | e :: s =>
    let sign := s.takeWhile fun c => c = '+' ∨ c = '-'
    let r := s.drop sign.length
    if (e = 'e' ∨ e = 'E') ∧ sign.length ≤ 1 ∧ (r.head?.any Char.isDigit) then
      (e :: sign ++ r.takeWhile Char.isDigit, r.dropWhile Char.isDigit)
    else ([], e :: s)

/-- The number of which `digits` are read, with its exponent and its L. -/
def finishNumber (digits s : List Char) : Token × List Char :=
  let (exponent, r) := readExponent s
  let text := String.ofList (digits ++ exponent)
  if r.head? = some 'L' then (.number text true, r.tail) else (.number text false, r)

/-- The number that starts with the digit `c`. -/
def readNumber (c : Char) (s : List Char) : Token × List Char :=
  let whole := c :: s.takeWhile Char.isDigit
  let r := s.dropWhile Char.isDigit
  if whole = ['0'] ∧ r.head? = some 'x' then
    (.literal .hex (String.ofList (r.tail.takeWhile (isDigitIn 16))),
      r.tail.dropWhile (isDigitIn 16))
  else if r.head? = some '.' then
    finishNumber (whole ++ '.' :: r.tail.takeWhile Char.isDigit) (r.tail.dropWhile Char.isDigit)
  else finishNumber whole r

/-- The number or the lone period that starts with a period. -/
def readPeriod (s : List Char) : Token × List Char :=
  let digits := s.takeWhile Char.isDigit
  if digits = [] then (.period, s)
  else finishNumber ('.' :: digits) (s.dropWhile Char.isDigit)

/-! ### Operators -/

/-- What becomes of an operator once its characters are read. -/
inductive OperatorForm where
  | shown (text : String)
  /-- The operator takes the character behind it along. -/
  | greedy (text : String)
  /-- The characters only begin an operator. -/
  | part

/-- The operators, each behind those that it begins. -/
def operators : List (String × OperatorForm) := [
  ("->>", .shown "->>"), ("->", .shown "->"), ("-", .shown "-"), ("+", .shown "+"),
  ("*", .shown "*"), ("/", .shown "/"), ("%", .shown "%"), ("\\", .shown "\\"),
  ("]", .shown "]"), ("[", .shown "["), ("\x7b", .shown "\x7b"), ("\x7d", .shown "\x7d"),
  ("||/", .shown "||/"), ("||", .shown "||"), ("|/", .shown "|/"), ("|&>", .shown "|&>"),
  ("|&", .part), ("|>>", .shown "|>>"), ("|>", .part), ("|", .shown "|"),
  ("=>", .shown "=>"), ("==", .shown "=="), ("=", .shown "="),
  ("!=", .shown "<>"), ("!!", .shown "!!"), ("!~~*", .shown "!~~*"), ("!~~", .shown "!~~"),
  ("!~*", .shown "!~*"), ("!~", .shown "!~"), ("!", .shown "!"),
  ("<=>", .shown "<=>"), ("<=", .shown "<="), ("<|", .shown "<<|"), ("<>", .shown "<>"),
  ("<<|", .shown "<<|"), ("<<", .shown "<<"), ("<->", .shown "<->"), ("<-", .part),
  ("<^", .shown "<^"), ("<@", .shown "<@"), ("<", .shown "<"),
  (">=", .shown ">="), (">>", .shown ">>"), (">^", .shown ">^"), (">", .shown ">"),
  ("::", .shown "::"), (":=", .shown ":="), (":", .shown ":"),
  ("&&", .shown "&&"), ("&>", .greedy "&>"), ("&<|", .shown "&<|"), ("&<", .shown "&<"),
  ("&", .shown "&"), ("^@", .shown "^@"), ("^", .shown "^"),
  ("~~*", .shown "~~*"), ("~~", .shown "~~"), ("~*", .shown "~*"), ("~=", .shown "~="),
  ("~", .shown "~"), ("@@", .shown "@@"), ("@-@", .shown "@-@"), ("@-", .part),
  ("@>", .shown "@>"), ("@?", .shown "@?"), ("@", .shown "@"),
  ("?||", .shown "?||"), ("?|", .shown "?|"), ("?&", .shown "?&"), ("?-|", .shown "?-|"),
  ("?-", .shown "?-"), ("?#", .shown "?#"), ("?", .greedy "?"),
  ("#-", .shown "#-"), ("#>>", .shown "#>>"), ("#>", .shown "#>"), ("##", .shown "##")]

/-- The first operator of the list that the text `c :: s` begins with. -/
def operatorAt (c : Char) (s : List Char) : Option (String × OperatorForm) :=
  operators.find? fun entry => entry.1.toList.isPrefixOf (c :: s)

/-! ### Words -/

/-- The character may start a bare word. -/
def startsWord (c : Char) : Bool := Text.isAlphabetic c || c == '_'

/-- The character may stand in a bare word. -/
def inWord (c : Char) : Bool :=
  Text.isAlphabetic c || c.isDigit || c == '$' || c == '_' || c == '#'

/-- The bare word of which `front` is read. -/
def readWord (front s : List Char) : Token × List Char :=
  (.word (String.ofList (front ++ s.takeWhile inWord)) none, s.dropWhile inWord)

/-! ### The scan -/

/-- A reader's answer as a step of the scan. -/
def found (t : Token × List Char) : Except LexError (Option Token × List Char) := .ok (some t.1, t.2)

/-- A literal or a quoted word as a step of the scan. -/
def closed (e : LexError) (make : String → Token) :
    Option (List Char × List Char) → Except LexError (Option Token × List Char)
  | none => .error e
  | some (v, r) => .ok (some (make (String.ofList v)), r)

/-- The step behind an opening bracket: a quoted word when a word or a double-quoted word stands in
the brackets. -/
def bracketStep (s : List Char) : Except LexError (Option Token × List Char) :=
  match Text.trimStart s with
  | '"' :: inner =>
    match readName '"' inner with
    | none => .error (.openName '"')
    | some (v, r) =>
      match Text.trimStart r with
      | ']' :: r => .ok (some (.word (String.ofList ('"' :: v ++ ['"'])) (some '[')), r)
      | _ => .error (.openName ']')
  | c :: _ =>
    if startsWord c || c == '#' then
      closed (.openName ']') (.word · (some '[')) (readName ']' s)
    else .ok (some (.operator "["), s)
  | [] => .ok (some (.operator "["), s)

/-- The step behind a dollar sign. -/
def dollarStep (s : List Char) : Except LexError (Option Token × List Char) :=
  if s.head? = some '$' then
    closed .openDollarText (.literal (.dollar "")) (readUntil ['$', '$'] s.tail)
  else
    let inTag := fun c => Text.isAlphabetic c || Text.isNumeral c || c == '_'
    let tag := s.takeWhile inTag
    match s.dropWhile inTag with
    | '$' :: r =>
      closed .openTaggedText (.literal (.dollar (String.ofList tag)))
        (readUntil ('$' :: tag ++ ['$']) r)
    | r => .ok (some (.placeholder (String.ofList tag)), r)

/-- The step for a character that starts nothing longer than an operator. -/
def operatorStep (c : Char) (s : List Char) : Except LexError (Option Token × List Char) :=
  match operatorAt c s with
  | some (lexeme, .shown t) => .ok (some (.operator t), s.drop (lexeme.length - 1))
  | some (lexeme, .greedy t) => .ok (some (.operator t), s.drop lexeme.length)
  | some (lexeme, .part) => .error (.partOperator lexeme)
  | none => .ok (some (.operator (String.singleton c)), s)

/-- One step of the scan over `c :: s`: the token read there, if any, and the rest. -/
def step (c : Char) (s : List Char) : Except LexError (Option Token × List Char) :=
  if Text.isBlank c then .ok (none, s)
  else if c = ',' then .ok (some .comma, s)
  else if c = ';' then .ok (some .semicolon, s)
  else if c = '(' then .ok (some .lparen, s)
  else if c = ')' then .ok (some .rparen, s)
  else if c = '\'' then closed .openText (.literal .plain) (readText s)
  else if c.toUpper = 'N' ∧ s.head? = some '\'' then
    closed .openText (.literal .national) (readText s.tail)
  else if c.toUpper = 'E' ∧ s.head? = some '\'' then
    closed .openEscapedText (.literal .escaped) (readEscapedText s.tail)
  else if c.toUpper = 'X' ∧ s.head? = some '\'' then
    closed .openText (.literal .hex) (readText s.tail)
  else if c = '"' ∨ c = '`' then closed (.openName c) (.word · (some c)) (readName c s)
  else if c = '[' then bracketStep s
  else if c = '.' then found (readPeriod s)
  else if c.isDigit then found (readNumber c s)
  else if c = '-' ∧ s.head? = some '-' then .ok (none, s.dropWhile (· ≠ '\n'))
  else if c = '/' ∧ s.head? = some '*' then
    match afterComment s.tail with
    | none => .error .openComment
    | some r => .ok (none, r)
  else if c = '$' then dollarStep s
  else if startsWord c then found (readWord [c] s)
  else if c = '#' ∧ (operatorAt c s).isNone ∧ s.head?.any (· ≠ ' ') then
    found (readWord (c :: s.take 1) (s.drop 1))
  else operatorStep c s

/-! ### The rest is a suffix -/

theorem dropWhile_suffix_self {p : Char → Bool} (s : List Char) : s.dropWhile p <:+ s :=
  List.dropWhile_suffix p

theorem trimStart_suffix (s : List Char) : Text.trimStart s <:+ s := List.dropWhile_suffix _

theorem readText_suffix {s v r : List Char} (h : readText s = some (v, r)) : r <:+ s := by
  fun_induction readText s generalizing v r with
  | case1 => simp at h
  | case2 c s ih =>
    simp only [Option.map_eq_some_iff, Prod.exists, Prod.mk.injEq] at h
    obtain ⟨v', r', h', -, rfl⟩ := h
    exact ((ih h').trans (List.suffix_cons c s)).trans (List.suffix_cons _ _)
  | case3 s ih =>
    simp only [Option.map_eq_some_iff, Prod.exists, Prod.mk.injEq] at h
    obtain ⟨v', r', h', -, rfl⟩ := h
    exact ((ih h').trans (List.suffix_cons _ s)).trans (List.suffix_cons _ _)
  | case4 s => cases h; exact List.suffix_cons _ _
  | case5 c s _ _ _ ih =>
    simp only [Option.map_eq_some_iff, Prod.exists, Prod.mk.injEq] at h
    obtain ⟨v', r', h', -, rfl⟩ := h
    exact (ih h').trans (List.suffix_cons _ _)

theorem readName_suffix {q : Char} {s v r : List Char} (h : readName q s = some (v, r)) :
    r <:+ s := by
  fun_induction readName q s generalizing v r with
  | case1 => simp at h
  | case2 => cases h; exact List.suffix_cons _ _
  | case3 => simp at h
  | case4 s ih =>
    simp only [Option.map_eq_some_iff, Prod.exists, Prod.mk.injEq] at h
    obtain ⟨v', r', h', -, rfl⟩ := h
    exact ((ih h').trans (List.suffix_cons _ s)).trans (List.suffix_cons _ _)
  | case5 => cases h; exact List.suffix_cons _ _
  | case6 c d s _ ih =>
    simp only [Option.map_eq_some_iff, Prod.exists, Prod.mk.injEq] at h
    obtain ⟨v', r', h', -, rfl⟩ := h
    exact (ih h').trans (List.suffix_cons _ _)

theorem readEscapedText_suffix {s v r : List Char} (h : readEscapedText s = some (v, r)) :
    r <:+ s := by
  fun_induction readEscapedText s generalizing v r with
  | case1 => simp at h
  | case2 s ih =>
    simp only [Option.map_eq_some_iff, Prod.exists, Prod.mk.injEq] at h
    obtain ⟨v', r', h', -, rfl⟩ := h
    exact ((ih h').trans (List.suffix_cons _ s)).trans (List.suffix_cons _ _)
  | case3 s => cases h; exact List.suffix_cons _ _
  | case4 => simp at h
  | case5 => simp at h
  | case6 s c t he _ ih =>
    simp only [Option.map_eq_some_iff, Prod.exists, Prod.mk.injEq] at h
    obtain ⟨v', r', h', -, rfl⟩ := h
    exact ((ih h').trans (readEscape_suffix he).1).trans (List.suffix_cons _ _)
  | case7 c s _ _ _ ih =>
    simp only [Option.map_eq_some_iff, Prod.exists, Prod.mk.injEq] at h
    obtain ⟨v', r', h', -, rfl⟩ := h
    exact (ih h').trans (List.suffix_cons _ _)

theorem afterComment_suffix {s r : List Char} (h : afterComment s = some r) : r <:+ s := by
  fun_induction afterComment s with
  | case1 => simp at h
  | case2 => cases h; exact (List.suffix_cons _ _).trans (List.suffix_cons _ _)
  | case3 c s _ ih => exact (ih h).trans (List.suffix_cons _ _)

theorem readUntil_suffix {p s v r : List Char} (h : readUntil p s = some (v, r)) : r <:+ s := by
  fun_induction readUntil p s generalizing v r with
  | case1 => simp at h
  | case2 c s => cases h; exact List.drop_suffix _ _
  | case3 c s _ ih =>
    simp only [Option.map_eq_some_iff, Prod.exists, Prod.mk.injEq] at h
    obtain ⟨v', r', h', -, rfl⟩ := h
    exact (ih h').trans (List.suffix_cons _ _)

theorem readExponent_suffix (s : List Char) : (readExponent s).2 <:+ s := by
  cases s with
  | nil => exact List.suffix_refl _
  | cons e s =>
    simp only [readExponent]
    split
    · exact ((dropWhile_suffix_self _).trans (List.drop_suffix _ _)).trans (List.suffix_cons _ _)
    · exact List.suffix_refl _

theorem finishNumber_suffix (d s : List Char) : (finishNumber d s).2 <:+ s := by
  simp only [finishNumber]
  split
  · exact (List.tail_suffix _).trans (readExponent_suffix s)
  · exact readExponent_suffix s

theorem readNumber_suffix (c : Char) (s : List Char) : (readNumber c s).2 <:+ s := by
  simp only [readNumber]
  have tail_dropWhile := (List.tail_suffix (s.dropWhile Char.isDigit)).trans (dropWhile_suffix_self s)
  split
  · exact (dropWhile_suffix_self _).trans tail_dropWhile
  split
  · exact ((finishNumber_suffix _ _).trans (dropWhile_suffix_self _)).trans tail_dropWhile
  · exact (finishNumber_suffix _ _).trans (dropWhile_suffix_self _)

theorem readPeriod_suffix (s : List Char) : (readPeriod s).2 <:+ s := by
  simp only [readPeriod]
  split
  · exact List.suffix_refl _
  · exact (finishNumber_suffix _ _).trans (dropWhile_suffix_self _)

theorem closed_suffix {e : LexError} {make : String → Token} {o : Option (List Char × List Char)}
    {s r : List Char} {t : Option Token} (ho : ∀ v r, o = some (v, r) → r <:+ s)
    (h : closed e make o = .ok (t, r)) : r <:+ s := by
  cases o with
  | none => simp [closed] at h
  | some p => simp only [closed, Except.ok.injEq, Prod.mk.injEq] at h; exact h.2 ▸ ho p.1 p.2 rfl

theorem bracketStep_suffix {s r : List Char} {t : Option Token} (h : bracketStep s = .ok (t, r)) :
    r <:+ s := by
  unfold bracketStep at h
  split at h
  · rename_i inner hs
    have hi : inner <:+ s := (List.suffix_cons _ _).trans (hs ▸ trimStart_suffix s)
    split at h
    · simp at h
    · rename_i v u hu
      split at h
      · rename_i w hw
        simp only [Except.ok.injEq, Prod.mk.injEq] at h
        obtain ⟨-, rfl⟩ := h
        exact (((List.suffix_cons _ _).trans (hw ▸ trimStart_suffix u)).trans
          (readName_suffix hu)).trans hi
      · simp at h
  · split at h
    · exact closed_suffix (fun _ _ => readName_suffix) h
    · simp only [Except.ok.injEq, Prod.mk.injEq] at h; exact h.2 ▸ List.suffix_refl _
  · simp only [Except.ok.injEq, Prod.mk.injEq] at h; exact h.2 ▸ List.suffix_refl _

theorem dollarStep_suffix {s r : List Char} {t : Option Token} (h : dollarStep s = .ok (t, r)) :
    r <:+ s := by
  unfold dollarStep at h
  split at h
  · exact closed_suffix (fun _ _ hv => (readUntil_suffix hv).trans (List.tail_suffix s)) h
  · dsimp only at h
    split at h
    · rename_i u hu
      exact closed_suffix (fun _ _ hv => ((readUntil_suffix hv).trans (List.suffix_cons _ _)).trans
        (hu ▸ dropWhile_suffix_self s)) h
    · simp only [Except.ok.injEq, Prod.mk.injEq] at h
      exact h.2 ▸ dropWhile_suffix_self s

theorem operatorStep_suffix {c : Char} {s r : List Char} {t : Option Token}
    (h : operatorStep c s = .ok (t, r)) : r <:+ s := by
  unfold operatorStep at h
  split at h
  · simp only [Except.ok.injEq, Prod.mk.injEq] at h; exact h.2 ▸ List.drop_suffix _ _
  · simp only [Except.ok.injEq, Prod.mk.injEq] at h; exact h.2 ▸ List.drop_suffix _ _
  · simp at h
  · simp only [Except.ok.injEq, Prod.mk.injEq] at h; exact h.2 ▸ List.suffix_refl _

/-- Whatever the outcome leaves to be read is a suffix of `s`. -/
def LeavesSuffix (s : List Char) (outcome : Except LexError (Option Token × List Char)) : Prop :=
  ∀ t r, outcome = .ok (t, r) → r <:+ s

theorem leavesSuffix_ite {s : List Char} {p : Prop} [Decidable p]
    {a b : Except LexError (Option Token × List Char)} (ha : LeavesSuffix s a)
    (hb : LeavesSuffix s b) : LeavesSuffix s (if p then a else b) := by
  split
  · exact ha
  · exact hb

theorem leavesSuffix_ok {s r : List Char} {t : Option Token} (h : r <:+ s) :
    LeavesSuffix s (.ok (t, r)) := by
  intro t' r' h'
  cases h'
  exact h

theorem leavesSuffix_tail {s : List Char} {e : LexError} {make : String → Token}
    {f : List Char → Option (List Char × List Char)}
    (hf : ∀ {s v r : List Char}, f s = some (v, r) → r <:+ s) :
    LeavesSuffix s (closed e make (f s.tail)) :=
  fun _ _ => closed_suffix fun _ _ hv => (hf hv).trans (List.tail_suffix s)

theorem leavesSuffix_step (c : Char) (s : List Char) : LeavesSuffix s (step c s) := by
  have self {u : Option Token} : LeavesSuffix s (.ok (u, s)) := leavesSuffix_ok (List.suffix_refl s)
  unfold step
  refine leavesSuffix_ite self (leavesSuffix_ite self (leavesSuffix_ite self
    (leavesSuffix_ite self (leavesSuffix_ite self ?_))))
  refine leavesSuffix_ite (fun _ _ => closed_suffix fun _ _ => readText_suffix) ?_
  refine leavesSuffix_ite (leavesSuffix_tail readText_suffix) ?_
  refine leavesSuffix_ite (leavesSuffix_tail readEscapedText_suffix) ?_
  refine leavesSuffix_ite (leavesSuffix_tail readText_suffix) ?_
  refine leavesSuffix_ite (fun _ _ => closed_suffix fun _ _ => readName_suffix) ?_
  refine leavesSuffix_ite (fun _ _ => bracketStep_suffix) ?_
  refine leavesSuffix_ite (leavesSuffix_ok (readPeriod_suffix s)) ?_
  refine leavesSuffix_ite (leavesSuffix_ok (readNumber_suffix c s)) ?_
  refine leavesSuffix_ite (leavesSuffix_ok (dropWhile_suffix_self s)) ?_
  refine leavesSuffix_ite ?_ ?_
  · cases hc : afterComment s.tail with
    | none => intro t r h; cases h
    | some u => exact leavesSuffix_ok ((afterComment_suffix hc).trans (List.tail_suffix s))
  refine leavesSuffix_ite (fun _ _ => dollarStep_suffix) ?_
  refine leavesSuffix_ite (leavesSuffix_ok (dropWhile_suffix_self s)) ?_
  refine leavesSuffix_ite
    (leavesSuffix_ok ((dropWhile_suffix_self _).trans (List.drop_suffix 1 s))) ?_
  exact fun _ _ => operatorStep_suffix

/-- What a step leaves to be read is a suffix of what it was given. -/
theorem step_suffix {c : Char} {s r : List Char} {t : Option Token} (h : step c s = .ok (t, r)) :
    r <:+ s :=
  leavesSuffix_step c s t r h

/-- The tokens of a text. -/
def scanChars : List Char → Except LexError (List Token)
  | [] => .ok []
  | c :: s =>
    match _h : step c s with
    | .error e => .error e
    | .ok (t, r) => (scanChars r).map (t.toList ++ ·)
termination_by s => s.length
decreasing_by
  have := (step_suffix _h).length_le
  simp only [List.length_cons]
  omega

/-- The tokens of a string. -/
def scan (sql : String) : Except LexError (List Token) := scanChars sql.toList

end Token

end EtlFlow.Sql
