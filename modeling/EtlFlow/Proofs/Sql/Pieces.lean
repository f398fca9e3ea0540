import EtlFlow.Sql.Sanitize
import Mathlib.Algebra.Group.Even
import Mathlib.Algebra.Group.Nat.Even
import Mathlib.Data.List.Basic
/-!
# The pieces of a text

A text is read as single-quoted literals and characters outside them (`pieces`); a quote that no
later one closes is such a character.  `induction_on_pieces` goes through a text in these pieces, and
`pieces_append` joins them where the front is `Closed`, with all its literals at an end.
-/

namespace EtlFlow.Sql

open Text (isBlank)

/-- A single-quoted literal, or a character outside literals. -/
inductive Piece where
  | code (c : Char)
  | literal (body : List Char)
  deriving DecidableEq, Repr

namespace Piece

/-- How a piece is written. -/
def text : Piece → List Char
  | .code c => [c]
  | .literal body => '\'' :: body ++ ['\'']

/-- The text between the quotes of a literal. -/
def literal? : Piece → Option (List Char)
  | .code _ => none
  | .literal body => some body

/-- A blank or a semicolon outside literals. -/
def isGap : Piece → Bool
  | .code c => isBlank c || c == ';'
  | .literal _ => false

end Piece

/-- The pieces of a text, where `opened` holds what stands behind a quote that is not closed yet. -/
def piecesFrom : (opened : Option (List Char)) → List Char → List Piece
  | none, [] => []
  | some body, [] => .code '\'' :: body.map .code
  | none, c :: s => if c = '\'' then piecesFrom (some []) s else .code c :: piecesFrom none s
  | some body, c :: s =>
    if c = '\'' then .literal body :: piecesFrom none s else piecesFrom (some (body ++ [c])) s

/-- The pieces of a text. -/
def pieces (s : List Char) : List Piece := piecesFrom none s

/-- The single-quoted literals of a text, from left to right. -/
def literals (s : List Char) : List (List Char) := (pieces s).filterMap Piece.literal?

/-- The pieces of a text that are no gap. -/
def core (s : List Char) : List Piece := (pieces s).filter fun p => !p.isGap

/-- All quotes of the text belong to literals. -/
def Closed (s : List Char) : Prop := Even (s.count '\'')

instance (s : List Char) : Decidable (Closed s) := inferInstanceAs (Decidable (Even _))

variable {a b body s : List Char} {c : Char}

/-! ### Reading piece by piece -/

theorem piecesFrom_literal (hb : '\'' ∉ body) (front s : List Char) :
    piecesFrom (some front) (body ++ '\'' :: s) = .literal (front ++ body) :: pieces s := by
  induction body generalizing front with
  | nil => simp [piecesFrom, pieces]
  | cons c body ih =>
    rw [List.mem_cons, not_or] at hb
    rw [List.cons_append, piecesFrom, if_neg (Ne.symm hb.1), ih hb.2, List.append_assoc]
    rfl

theorem piecesFrom_opened (hs : '\'' ∉ s) (front : List Char) :
    piecesFrom (some front) s = .code '\'' :: (front ++ s).map .code := by
  induction s generalizing front with
  | nil => simp [piecesFrom]
  | cons c s ih =>
    rw [List.mem_cons, not_or] at hs
    rw [piecesFrom, if_neg (Ne.symm hs.1), ih hs.2, List.append_assoc]
    rfl

@[simp]
theorem pieces_nil : pieces [] = [] := rfl

theorem pieces_cons (hc : c ≠ '\'') (s : List Char) : pieces (c :: s) = .code c :: pieces s := by
  rw [pieces, piecesFrom, if_neg hc]
  rfl

theorem pieces_literal (hb : '\'' ∉ body) (s : List Char) :
    pieces ('\'' :: (body ++ '\'' :: s)) = .literal body :: pieces s := by
  rw [pieces, piecesFrom, if_pos rfl, piecesFrom_literal hb, List.nil_append]

theorem pieces_code (hs : '\'' ∉ s) : pieces s = s.map .code := by
  induction s with
  | nil => rfl
  | cons c s ih =>
    rw [List.mem_cons, not_or] at hs
    rw [pieces_cons (Ne.symm hs.1), ih hs.2, List.map_cons]

theorem pieces_opened (hs : '\'' ∉ s) : pieces ('\'' :: s) = .code '\'' :: pieces s := by
  rw [pieces, piecesFrom, if_pos rfl, piecesFrom_opened hs, List.nil_append, pieces_code hs]

/-- A text starts with nothing, a character outside literals, a literal, or a quote that nothing
closes. -/
@[elab_as_elim]
theorem induction_on_pieces {motive : List Char → Prop} (s : List Char) (nil : motive [])
    (code : ∀ c s, c ≠ '\'' → motive s → motive (c :: s))
    (literal : ∀ body s, '\'' ∉ body → motive s → motive ('\'' :: (body ++ '\'' :: s)))
    (opened : ∀ s, '\'' ∉ s → motive s → motive ('\'' :: s)) : motive s := by
  induction hn : s.length using Nat.strong_induction_on generalizing s with
  | _ n ih =>
    subst hn
    cases s with
    | nil => exact nil
    | cons c s =>
      by_cases hc : c = '\''
      · subst hc
        by_cases hs : '\'' ∈ s
        · obtain ⟨body, rest, rfl, hbody⟩ := List.eq_append_cons_of_mem hs
          refine literal body rest hbody (ih rest.length ?_ rest rfl)
          simp only [List.length_cons, List.length_append]
          omega
        · exact opened s hs (ih s.length (Nat.lt_succ_self _) s rfl)
      · exact code c s hc (ih s.length (Nat.lt_succ_self _) s rfl)

/-- The pieces are a reading of the text. -/
theorem flatMap_text_pieces (s : List Char) : (pieces s).flatMap Piece.text = s := by
  induction s using induction_on_pieces with
  | nil => rfl
  | code c s hc ih => rw [pieces_cons hc, List.flatMap_cons, ih]; rfl
  | literal body s hb ih =>
    rw [pieces_literal hb, List.flatMap_cons, ih, Piece.text]
    simp
  | opened s hs ih => rw [pieces_opened hs, List.flatMap_cons, ih]; rfl

/-! ### Closed texts -/

@[simp]
theorem closed_nil : Closed [] := Even.zero

theorem closed_cons (hc : c ≠ '\'') : Closed (c :: s) ↔ Closed s := by
  rw [Closed, List.count_cons_of_ne hc, Closed]

theorem count_literal (hb : '\'' ∉ body) (s : List Char) :
    ('\'' :: (body ++ '\'' :: s)).count '\'' = s.count '\'' + 2 := by
  rw [List.count_cons_self, List.count_append, List.count_eq_zero_of_not_mem hb,
    List.count_cons_self, Nat.zero_add]

theorem closed_literal (hb : '\'' ∉ body) : Closed ('\'' :: (body ++ '\'' :: s)) ↔ Closed s := by
  have two : Even 2 := by decide
  rw [Closed, count_literal hb, Closed, Nat.even_add, iff_true_right two]

theorem not_closed_opened (hs : '\'' ∉ s) : ¬Closed ('\'' :: s) := by
  rw [Closed, List.count_cons_self, List.count_eq_zero_of_not_mem hs]
  decide

theorem closed_of_not_mem (hs : '\'' ∉ s) : Closed s := by
  rw [Closed, List.count_eq_zero_of_not_mem hs]
  exact Even.zero

/-- Behind a closed front a text closes its literals as it does alone. -/
theorem closed_append_iff (ha : Closed a) : Closed (a ++ b) ↔ Closed b := by
  unfold Closed at ha ⊢
  rw [List.count_append, Nat.even_add, iff_true_left ha]

theorem pieces_append (ha : Closed a) (b : List Char) : pieces (a ++ b) = pieces a ++ pieces b := by
  induction a using induction_on_pieces with
  | nil => rfl
  | code c s hc ih =>
    rw [closed_cons hc] at ha
    rw [List.cons_append, pieces_cons hc, pieces_cons hc, ih ha, List.cons_append]
  | literal body s hb ih =>
    rw [closed_literal hb] at ha
    rw [List.cons_append, List.append_assoc, List.cons_append, pieces_literal hb, pieces_literal hb,
      ih ha, List.cons_append]
  | opened s hs _ => exact absurd ha (not_closed_opened hs)

/-- What holds no quote neither opens nor closes a literal. -/
theorem pieces_append_code (hb : '\'' ∉ b) (a : List Char) :
    pieces (a ++ b) = pieces a ++ b.map .code := by
  induction a using induction_on_pieces with
  | nil => exact pieces_code hb
  | code c s hc ih => rw [List.cons_append, pieces_cons hc, pieces_cons hc, ih, List.cons_append]
  | literal body s hbody ih =>
    rw [List.cons_append, List.append_assoc, List.cons_append, pieces_literal hbody,
      pieces_literal hbody, ih, List.cons_append]
  | opened s hs ih =>
    have : '\'' ∉ s ++ b := by simp [hs, hb]
    rw [List.cons_append, pieces_opened this, pieces_opened hs, ih, List.cons_append]

theorem core_append (ha : Closed a) (b : List Char) : core (a ++ b) = core a ++ core b := by
  rw [core, pieces_append ha, List.filter_append]
  rfl

/-- Literals are no gaps, so they are read off the core. -/
theorem literals_eq (s : List Char) : literals s = (core s).filterMap Piece.literal? := by
  rw [core, List.filterMap_filter]
  refine List.filterMap_congr fun p _ => ?_
  cases p with
  | code c => simp [Piece.literal?]
  | literal body => simp [Piece.isGap]

end EtlFlow.Sql
