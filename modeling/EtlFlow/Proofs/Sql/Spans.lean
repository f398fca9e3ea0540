import EtlFlow.Proofs.Sql.Readers
/-!
# What a step finds

A property of the tokens that a step finds, with what it leaves of the text, is put together along the
step's cases (`Finds`), and where it is one of semicolons and words in quotes, from their cases alone
(`finds_of_ordinary`).  A semicolon is found at a semicolon alone, and a word in quotes is shorter than
the text that it is found in (`finds_step`).
-/

namespace EtlFlow.Sql

open Token (step)

variable {c : Char} {r s : List Char}

/-- A semicolon is read from itself, a word in quotes is shorter than what it is read from. -/
def Spans (c : Char) (s r : List Char) : Token → Prop
  | .semicolon => c = ';' ∧ r = s
  | .word v (some _) => v.toList.length + r.length < s.length
  | _ => True

/-- The token that is found, if any, has the property. -/
def Finds (P : Token → List Char → Prop) (x : Except LexError (Option Token × List Char)) : Prop :=
  ∀ t r, x = .ok (some t, r) → P t r

section finds

variable {P : Token → List Char → Prop} {y z : Except LexError (Option Token × List Char)} {t : Token}

theorem finds_ite {q : Prop} [Decidable q] (hy : q → Finds P y) (hz : ¬q → Finds P z) :
    Finds P (if q then y else z) := by
  split
  · exact hy ‹_›
  · exact hz ‹_›

theorem finds_some (h : P t r) : Finds P (.ok (some t, r)) := by
  rintro t r ⟨⟩
  exact h

theorem finds_none : Finds P (.ok (none, r)) := nofun

theorem finds_error {e : LexError} : Finds P (.error e) := nofun

theorem finds_closed {e : LexError} {make : String → Token} {o : Option (List Char × List Char)}
    (h : ∀ v r, o = some (v, r) → P (make (String.ofList v)) r) : Finds P (Token.closed e make o) := by
  cases o with
  | none => exact finds_error
  | some v => exact finds_some (h _ _ rfl)

end finds

theorem length_of_readName {q : Char} {v : List Char} (h : Token.readName q s = some (v, r)) :
    v.length + r.length < s.length := by
  obtain ⟨rfl, -⟩ := Token.readName_eq_some_iff.mp h
  have := Token.length_doubled q v
  simp only [List.length_append, List.length_cons]
  omega

theorem finds_quoted {q close : Char} {e : LexError} : Finds (fun t r => Spans c s r t)
    (Token.closed e (.word · (some q)) (Token.readName close s)) :=
  finds_closed fun v r h => by
    rw [Spans, String.toList_ofList]
    exact length_of_readName h

theorem finds_bracketStep (s : List Char) :
    Finds (fun t r => Spans c s r t) (Token.bracketStep s) := by
  unfold Token.bracketStep
  split
  · rename_i inner hinner
    split
    · exact finds_error
    · rename_i v u hu
      split
      · rename_i z hz
        refine finds_some ?_
        have start := (Token.trimStart_suffix s).length_le
        have close := (Token.trimStart_suffix u).length_le
        have value := length_of_readName hu
        rw [hinner] at start
        rw [hz] at close
        simp only [Spans, String.toList_ofList, List.length_cons, List.length_append,
          List.length_nil] at start close ⊢
        omega
      · exact finds_error
  · exact finds_ite (fun _ => finds_quoted) fun _ => finds_some trivial
  · exact finds_some trivial

/-- The token is neither a semicolon nor a word in quotes. -/
def isOrdinary : Token → Bool
  | .semicolon | .word _ (some _) => false
  | _ => true

section Ordinary

variable {P : Token → List Char → Prop} (ordinary : ∀ t r, isOrdinary t → P t r)

include ordinary

theorem finds_ordinary {t : Token} {r : List Char} (h : isOrdinary t) : Finds P (.ok (some t, r)) :=
  finds_some (ordinary t r h)

theorem finds_literal {e : LexError} {k : LiteralKind} {o : Option (List Char × List Char)} :
    Finds P (Token.closed e (.literal k) o) :=
  finds_closed fun _ _ _ => ordinary _ _ rfl

theorem finds_finishNumber (digits u : List Char) :
    Finds P (Token.found (Token.finishNumber digits u)) := by
  refine finds_some (ordinary _ _ ?_)
  rw [Token.finishNumber]
  dsimp only
  split <;> rfl

theorem finds_readPeriod (s : List Char) : Finds P (Token.found (Token.readPeriod s)) := by
  unfold Token.readPeriod
  dsimp only
  split
  · exact finds_ordinary ordinary rfl
  · exact finds_finishNumber ordinary _ _

theorem finds_readNumber (c : Char) (s : List Char) :
    Finds P (Token.found (Token.readNumber c s)) := by
  unfold Token.readNumber
  dsimp only
  split
  · exact finds_ordinary ordinary rfl
  split <;> exact finds_finishNumber ordinary _ _

theorem finds_dollarStep (s : List Char) : Finds P (Token.dollarStep s) := by
  unfold Token.dollarStep
  refine finds_ite (fun _ => finds_literal ordinary) fun _ => ?_
  dsimp only
  split
  · exact finds_literal ordinary
  · exact finds_ordinary ordinary rfl

theorem finds_operatorStep (c : Char) (s : List Char) : Finds P (Token.operatorStep c s) := by
  unfold Token.operatorStep
  split
  · exact finds_ordinary ordinary rfl
  · exact finds_ordinary ordinary rfl
  · exact finds_error
  · exact finds_ordinary ordinary rfl

/-- What all ordinary tokens have is found by every step, once it is found at semicolons, quotes and
opening brackets. -/
theorem finds_of_ordinary (semicolon : c = ';' → P .semicolon s)
    (quotes : c = '"' ∨ c = '`' →
      Finds P (Token.closed (.openName c) (.word · (some c)) (Token.readName c s)))
    (bracket : c = '[' → Finds P (Token.bracketStep s)) : Finds P (step c s) := by
  have other {t : Token} {r : List Char} (h : isOrdinary t) : Finds P (.ok (some t, r)) :=
    finds_ordinary ordinary h
  have literal {e : LexError} {k : LiteralKind} {o : Option (List Char × List Char)} :
      Finds P (Token.closed e (.literal k) o) := finds_literal ordinary
  unfold step
  refine finds_ite (fun _ => finds_none) fun _ => ?_
  refine finds_ite (fun _ => other rfl) fun _ => ?_
  refine finds_ite (fun h => finds_some (semicolon h)) fun _ => ?_
  refine finds_ite (fun _ => other rfl) fun _ => ?_
  refine finds_ite (fun _ => other rfl) fun _ => ?_
  refine finds_ite (fun _ => literal) fun _ => ?_
  refine finds_ite (fun _ => literal) fun _ => ?_
  refine finds_ite (fun _ => literal) fun _ => ?_
  refine finds_ite (fun _ => literal) fun _ => ?_
  refine finds_ite quotes fun _ => ?_
  refine finds_ite bracket fun _ => ?_
  refine finds_ite (fun _ => finds_readPeriod ordinary _) fun _ => ?_
  refine finds_ite (fun _ => finds_readNumber ordinary _ _) fun _ => ?_
  refine finds_ite (fun _ => finds_none) fun _ => ?_
  refine finds_ite (fun _ => ?_) fun _ => ?_
  · cases Token.afterComment s.tail with
    | none => exact finds_error
    | some r => exact finds_none
  refine finds_ite (fun _ => finds_dollarStep ordinary _) fun _ => ?_
  refine finds_ite (fun _ => other rfl) fun _ => ?_
  refine finds_ite (fun _ => other rfl) fun _ => ?_
  exact finds_operatorStep ordinary _ _

end Ordinary

theorem finds_step (c : Char) (s : List Char) : Finds (fun t r => Spans c s r t) (step c s) := by
  refine finds_of_ordinary (fun t r h => ?_) (fun h => ⟨h, rfl⟩) (fun _ => finds_quoted)
    fun _ => finds_bracketStep s
  cases t with
  | word v q =>
    cases q with
    | none => trivial
    | some q => cases h
  | semicolon => cases h
  | _ => trivial

/-- Only a semicolon is read as one. -/
theorem step_eq_semicolon (h : step c s = .ok (some .semicolon, r)) : c = ';' ∧ r = s :=
  finds_step c s _ _ h

end EtlFlow.Sql
