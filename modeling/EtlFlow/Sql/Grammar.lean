import EtlFlow.Sql.Error
/-!
# Reading from tokens

The phrases that definitions of tables and views share: names, dotted names, lists of names, and the
end of the text.  A reader gives what it read and the tokens behind it; `Rest n` says that at most
`n` tokens are left by whatever succeeds.
-/

namespace EtlFlow.Sql.Grammar

/-- What a reader of tokens answers: what it read and the tokens behind. -/
abbrev Parsed (α : Type) := Except Error (α × List Token)

/-- A success leaves at most `n` tokens. -/
def Rest {α : Type} (n : Nat) (x : Parsed α) : Prop :=
  ∀ a r, x = .ok (a, r) → r.length ≤ n

section rest

variable {α β : Type} {n : Nat}

theorem rest_ok {a : α} {r : List Token} (h : r.length ≤ n) : Rest n (.ok (a, r)) := by
  intro a' r' h'
  cases h'
  exact h

theorem rest_error {e : Error} : Rest n (.error e : Parsed α) := by
  intro a r h
  cases h

theorem rest_ite {p : Prop} [Decidable p] {x y : Parsed α} (hx : Rest n x) (hy : Rest n y) :
    Rest n (if p then x else y) := by
  split
  · exact hx
  · exact hy

theorem rest_bind {x : Parsed α} {f : α × List Token → Parsed β} {m : Nat} (hx : Rest m x)
    (hf : ∀ a r, r.length ≤ m → Rest n (f (a, r))) : Rest n (bind (m := Except Error) x f) := by
  cases x with
  | error e => exact rest_error
  | ok p => exact hf p.1 p.2 (hx p.1 p.2 rfl)

theorem rest_map {x : Parsed α} {f : α → β} (hx : Rest n x) :
    Rest n (x.map fun (a, r) => (f a, r)) := by
  cases x with
  | error e => exact rest_error
  | ok p => exact rest_ok (hx p.1 p.2 rfl)

theorem rest_mono {x : Parsed α} {m : Nat} (hx : Rest m x) (h : m ≤ n) : Rest n x :=
  fun a r hr => Nat.le_trans (hx a r hr) h

end rest

/-! ### Single tokens -/

/-- The next token is the keyword `k`. -/
def atKeyword (k : String) : List Token → Bool
  | [] => false
  | t :: _ => t.isKeyword k

/-- The next token is the bare word `w`. -/
def atWord (w : String) : List Token → Bool
  | [] => false
  | t :: _ => t.isWord w

/-- The next token is an opening parenthesis. -/
def atParen : List Token → Bool
  | .lparen :: _ => true
  | _ => false

/-- What follows the keyword `k`, which must be next. -/
def keyword (k : String) (ts : List Token) : Except Error (List Token) :=
  if atKeyword k ts then .ok ts.tail else .error (.grammar (.expected k (nextText ts)))

/-! ### Names -/

/-- A name, with its quotes. -/
def name : List Token → Parsed String
  | .word v q :: ts => .ok (Token.nameText v q, ts)
  | ts => .error (.grammar (.noName (nextText ts)))

/-- The name of a relation: names with periods between them. -/
def relationName : List Token → Parsed String
  | .word v q :: .period :: ts =>
    (relationName ts).map fun (n, r) => (Token.nameText v q ++ "." ++ n, r)
  | .word v q :: ts => .ok (Token.nameText v q, ts)
  | ts => .error (.grammar (.noName (nextText ts)))

/-- Names with commas between them, up to the closing parenthesis. -/
def namesInside : List Token → Parsed (List String)
  | .word v q :: .comma :: ts =>
    (namesInside ts).map fun (ns, r) => (Token.nameText v q :: ns, r)
  | .word v q :: .rparen :: ts => .ok ([Token.nameText v q], ts)
  | .word _ _ :: ts => .error (.grammar (.expected ")" (nextText ts)))
  | ts => .error (.grammar (.noName (nextText ts)))

/-- A list of names in parentheses. -/
def nameList : List Token → Parsed (List String)
  | .lparen :: ts => namesInside ts
  | ts => .error (.grammar (.expected "(" (nextText ts)))

theorem rest_name (ts : List Token) : Rest (ts.length - 1) (name ts) := by
  unfold name
  split
  · exact rest_ok (by simp)
  · exact rest_error

theorem rest_relationName (ts : List Token) : Rest (ts.length - 1) (relationName ts) := by
  fun_induction relationName ts with
  | case1 v q ts ih => exact rest_map (rest_mono ih (by simp; omega))
  | case2 => exact rest_ok (by simp)
  | case3 => exact rest_error

theorem rest_namesInside (ts : List Token) : Rest (ts.length - 1) (namesInside ts) := by
  fun_induction namesInside ts with
  | case1 v q ts ih => exact rest_map (rest_mono ih (by simp; omega))
  | case2 => exact rest_ok (by simp)
  | case3 => exact rest_error
  | case4 => exact rest_error

theorem rest_nameList (ts : List Token) : Rest (ts.length - 1) (nameList ts) := by
  unfold nameList
  split
  · exact rest_mono (rest_namesInside _) (by simp)
  · exact rest_error

/-! ### The end -/

/-- Nothing but semicolons is left. -/
def atEnd (ts : List Token) : Except Error Unit :=
  match ts.dropWhile (· == .semicolon) with
  | [] => .ok ()
  | t :: _ => .error (.grammar (.trailing t.text))

/-- The tokens of a text that is read as a definition. -/
def definitionTokens (sql : String) : Except Error (List Token) :=
  match Token.scan sql with
  | .ok ts => .ok ts
  | .error e => .error (.grammar (.lexical e))

end EtlFlow.Sql.Grammar
