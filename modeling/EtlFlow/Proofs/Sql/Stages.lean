import EtlFlow.Proofs.Sql.Pieces
import EtlFlow.Proofs.Sql.Words
import EtlFlow.Proofs.Text.Words
/-!
# What the stages of the clean-up keep

Every stage copies literals (`KeepsLiterals`) and works on the characters between them.  What joining
lines and joining semicolons do step by step are the relations `LinesJoined` and `SemicolonsJoined`.
These two and trimming change gaps alone, so they keep the core of a text (`LinesJoined.core_eq`,
`SemicolonsJoined.core_eq`, `core_trim`) and what could open a comment in it
(`LinesJoined.commentFree_iff`, `SemicolonsJoined.commentFree_iff`, `commentFree_trim`).
-/

namespace EtlFlow.Sql

open Text (isBlank trimStart trimEnd trim exists_trim)
open Token (OpensComment)

variable {b body g r s t : List Char} {c : Char}

/-! ### Literals -/

/-- A stage that copies literals and looks for quotes in nothing else. -/
structure KeepsLiterals (f : Zone → List Char → List Char) : Prop where
  quote (s : List Char) : f .code ('\'' :: s) = '\'' :: f (.atQuote s) s
  inside (c : Char) (s : List Char) :
    f .literal (c :: s) = c :: f (if c = '\'' then .code else .literal) s

namespace KeepsLiterals

variable {f : Zone → List Char → List Char} (hf : KeepsLiterals f)

include hf

theorem opened (hs : '\'' ∉ s) : f .code ('\'' :: s) = '\'' :: f .code s := by
  have zone : Zone.atQuote s = .code := by simp [Zone.atQuote, hs]
  rw [hf.quote, zone]

theorem behindQuote (hb : '\'' ∉ body) (s : List Char) :
    f .literal (body ++ '\'' :: s) = body ++ '\'' :: f .code s := by
  induction body with
  | nil => rw [List.nil_append, hf.inside, if_pos rfl, List.nil_append]
  | cons c body ih =>
    rw [List.mem_cons, not_or] at hb
    rw [List.cons_append, hf.inside, if_neg (Ne.symm hb.1), ih hb.2, List.cons_append]

theorem literal (hb : '\'' ∉ body) (s : List Char) :
    f .code ('\'' :: (body ++ '\'' :: s)) = '\'' :: (body ++ '\'' :: f .code s) := by
  have zone : Zone.atQuote (body ++ '\'' :: s) = .literal := by simp [Zone.atQuote]
  rw [hf.quote, zone, hf.behindQuote hb]

end KeepsLiterals

theorem keepsLiterals_dropComments : KeepsLiterals dropComments where
  quote s := by rw [dropComments]
  inside c s := by rw [dropComments]

theorem keepsLiterals_joinLines : KeepsLiterals joinLines where
  quote s := by rw [joinLines]; simp
  inside c s := by rw [joinLines]

theorem keepsLiterals_joinSemicolons : KeepsLiterals (joinSemicolons false) where
  quote s := by rw [joinSemicolons]; simp
  inside c s := by rw [joinSemicolons]

/-! ### Joining lines -/

theorem not_mem_joinLines (hs : '\'' ∉ s) : '\'' ∉ joinLines .code s := by
  intro h
  rcases mem_joinLines (fun d hd hq => hs (hq ▸ hd)) _ h with h | h
  · exact hs h
  · exact absurd h (by decide)

/-- The second text is the first one with its lines joined. -/
inductive LinesJoined : List Char → List Char → Prop where
  | nil : LinesJoined [] []
  | code {c : Char} {s r : List Char} : c ≠ '\'' → c ≠ '\n' → (c = '\r' → s.head? ≠ some '\n') →
      LinesJoined s r → LinesJoined (c :: s) (c :: r)
  | newline {s r : List Char} : LinesJoined s r → LinesJoined ('\n' :: s) (' ' :: r)
  | carriage {s r : List Char} : LinesJoined ('\n' :: s) r → LinesJoined ('\r' :: '\n' :: s) r
  | literal {body s r : List Char} : '\'' ∉ body → LinesJoined s r →
      LinesJoined ('\'' :: (body ++ '\'' :: s)) ('\'' :: (body ++ '\'' :: r))
  | opened {s r : List Char} : '\'' ∉ s → '\'' ∉ r → LinesJoined s r →
      LinesJoined ('\'' :: s) ('\'' :: r)

theorem linesJoined (s : List Char) : LinesJoined s (joinLines .code s) := by
  induction s using induction_on_pieces with
  | nil => simpa [joinLines] using LinesJoined.nil
  | code c s hc ih =>
    rcases joinLines_step (s := s) hc with ⟨h, hn, hr⟩ | ⟨h, rfl⟩ | ⟨h, rfl, hs⟩
    · rw [h]
      exact .code hc hn hr ih
    · rw [h]
      exact .newline ih
    · rw [h]
      cases s with
      | nil => cases hs
      | cons d s =>
        cases hs
        exact .carriage ih
  | literal body s hb ih =>
    rw [keepsLiterals_joinLines.literal hb]
    exact .literal hb ih
  | opened s hs ih =>
    rw [keepsLiterals_joinLines.opened hs]
    exact .opened hs (not_mem_joinLines hs) ih

theorem LinesJoined.eq (h : LinesJoined s r) : joinLines .code s = r := by
  induction h with
  | nil => simp [joinLines]
  | code hc hn hr _ ih => rw [joinLines_cons hc hn hr, ih]
  | newline _ ih =>
    rw [← ih]
    simp [joinLines]
  | carriage _ ih =>
    rw [← ih]
    simp [joinLines]
  | literal hb _ ih => rw [keepsLiterals_joinLines.literal hb, ih]
  | opened hs _ _ ih => rw [keepsLiterals_joinLines.opened hs, ih]

/-! ### Joining semicolons -/

theorem joinSemicolons_semicolon (gap : Bool) (s : List Char) :
    joinSemicolons gap .code (';' :: s) =
      if semicolonNext s then joinSemicolons true .code s else ';' :: joinSemicolons false .code s := by
  rw [joinSemicolons]
  simp

theorem joinSemicolons_gap (hq : c ≠ '\'') (hs : c ≠ ';') (s : List Char) :
    joinSemicolons true .code (c :: s) = joinSemicolons true .code s := by
  rw [joinSemicolons.eq_def]
  split <;> simp_all

theorem joinSemicolons_subset (gap : Bool) (z : Zone) (s : List Char) :
    joinSemicolons gap z s ⊆ s := by
  fun_induction joinSemicolons gap z s <;> grind

theorem semicolonNext_cons (c : Char) (s : List Char) :
    semicolonNext (c :: s) = if isBlank c then semicolonNext s else c == ';' := by
  unfold semicolonNext trimStart
  rw [List.dropWhile_cons]
  split <;> simp

/-- The second text is the first one with its semicolons joined, where `gap` says that the scan
stands between two of them. -/
inductive SemicolonsJoined : (gap : Bool) → List Char → List Char → Prop where
  | nil : SemicolonsJoined false [] []
  | code {c : Char} {s r : List Char} : c ≠ '\'' → c ≠ ';' → SemicolonsJoined false s r →
      SemicolonsJoined false (c :: s) (c :: r)
  | kept {gap : Bool} {s r : List Char} : semicolonNext s = false → SemicolonsJoined false s r →
      SemicolonsJoined gap (';' :: s) (';' :: r)
  | dropped {gap : Bool} {s r : List Char} : semicolonNext s = true → SemicolonsJoined true s r →
      SemicolonsJoined gap (';' :: s) r
  | blank {c : Char} {s r : List Char} : isBlank c = true → semicolonNext s = true →
      SemicolonsJoined true s r → SemicolonsJoined true (c :: s) r
  | literal {body s r : List Char} : '\'' ∉ body → SemicolonsJoined false s r →
      SemicolonsJoined false ('\'' :: (body ++ '\'' :: s)) ('\'' :: (body ++ '\'' :: r))
  | opened {s r : List Char} : '\'' ∉ s → '\'' ∉ r → SemicolonsJoined false s r →
      SemicolonsJoined false ('\'' :: s) ('\'' :: r)

theorem semicolonsJoined_gap (gap : Bool) (hgap : gap = true → semicolonNext s = true) :
    SemicolonsJoined gap s (joinSemicolons gap .code s) := by
  have quote (s : List Char) : semicolonNext ('\'' :: s) = false := by
    rw [semicolonNext_cons]
    rfl
  have noGap {s : List Char} : false = true → semicolonNext s = true := by simp
  induction s using induction_on_pieces generalizing gap with
  | nil =>
    cases gap with
    | false => simpa [joinSemicolons] using SemicolonsJoined.nil
    | true => exact absurd (hgap rfl) (by simp [semicolonNext, trimStart])
  | code c s hc ih =>
    by_cases hs : c = ';'
    · subst hs
      rw [joinSemicolons_semicolon]
      split
      · exact .dropped ‹_› (ih true fun _ => ‹_›)
      · exact .kept (Bool.eq_false_iff.mpr ‹_›) (ih false noGap)
    · cases gap with
      | false =>
        rw [joinSemicolons_cons hc hs]
        exact .code hc hs (ih false noGap)
      | true =>
        -- a gap ends with a semicolon, so that only blanks stand in it
        have next := hgap rfl
        rw [semicolonNext_cons] at next
        split at next
        · rw [joinSemicolons_gap hc hs]
          exact .blank ‹_› next (ih true fun _ => next)
        · exact absurd (by simpa using next) hs
  | literal body s hb ih =>
    cases gap with
    | false =>
      rw [keepsLiterals_joinSemicolons.literal hb]
      exact .literal hb (ih false noGap)
    | true => exact absurd (hgap rfl) (by simp [quote])
  | opened s hs ih =>
    cases gap with
    | false =>
      rw [keepsLiterals_joinSemicolons.opened hs]
      exact .opened hs (fun h => hs (joinSemicolons_subset _ _ _ h)) (ih false noGap)
    | true => exact absurd (hgap rfl) (by simp [quote])

theorem semicolonsJoined (s : List Char) : SemicolonsJoined false s (joinSemicolons false .code s) :=
  semicolonsJoined_gap false nofun

theorem SemicolonsJoined.eq {gap : Bool} (h : SemicolonsJoined gap s r) :
    joinSemicolons gap .code s = r := by
  induction h with
  | nil => simp [joinSemicolons]
  | code hc hs _ ih => rw [joinSemicolons_cons hc hs, ih]
  | kept next _ ih => rw [joinSemicolons_semicolon, if_neg (by simp [next]), ih]
  | dropped next _ ih => rw [joinSemicolons_semicolon, if_pos next, ih]
  | blank hc _ _ ih =>
    obtain ⟨hq, hs, -⟩ := isCalm_iff.mp (isCalm_of_isBlank hc)
    rw [joinSemicolons_gap hq hs, ih]
  | literal hb _ ih => rw [keepsLiterals_joinSemicolons.literal hb, ih]
  | opened hs _ _ ih => rw [keepsLiterals_joinSemicolons.opened hs, ih]

/-! ### The core -/

/-- The text holds nothing but blanks and semicolons. -/
def IsGap (g : List Char) : Prop := ∀ c ∈ g, (Piece.code c).isGap = true

instance (g : List Char) : Decidable (IsGap g) :=
  decidableForallMemText (fun c => (Piece.code c).isGap = true) g

theorem isGap_of_isBlank (h : isBlank c) : (Piece.code c).isGap = true := by simp [Piece.isGap, h]

theorem isGap_blanks (hb : ∀ c ∈ b, isBlank c) : IsGap b := fun c hc => isGap_of_isBlank (hb c hc)

/-- No character of a gap opens a literal or a comment. -/
theorem ne_of_isGap (h : (Piece.code c).isGap = true) :
    c ≠ '\'' ∧ c ≠ '-' ∧ c ≠ '/' ∧ c ≠ '*' := by
  refine ⟨?_, ?_, ?_, ?_⟩ <;> rintro rfl <;> revert h <;> decide

theorem IsGap.not_mem (hg : IsGap g) : '\'' ∉ g := fun h => (ne_of_isGap (hg _ h)).1 rfl

theorem core_gap_cons (h : (Piece.code c).isGap = true) (s : List Char) : core (c :: s) = core s := by
  rw [core, pieces_cons (ne_of_isGap h).1, List.filter_cons_of_neg (by simp [h])]
  rfl

theorem core_cons_congr (hc : c ≠ '\'') (h : core s = core t) : core (c :: s) = core (c :: t) := by
  unfold core at *
  rw [pieces_cons hc, pieces_cons hc, List.filter_cons, List.filter_cons, h]

theorem core_literal (hb : '\'' ∉ body) (s : List Char) :
    core ('\'' :: (body ++ '\'' :: s)) = .literal body :: core s := by
  rw [core, pieces_literal hb, List.filter_cons_of_pos rfl]
  rfl

theorem core_opened (hs : '\'' ∉ s) : core ('\'' :: s) = .code '\'' :: core s := by
  rw [core, pieces_opened hs, List.filter_cons_of_pos (by decide)]
  rfl

theorem core_gap_append (hg : IsGap g) (s : List Char) : core (g ++ s) = core s := by
  induction g with
  | nil => rfl
  | cons c g ih =>
    obtain ⟨hc, hg⟩ := List.forall_mem_cons.mp hg
    rw [List.cons_append, core_gap_cons hc, ih hg]

theorem core_append_gap (hg : IsGap g) (s : List Char) : core (s ++ g) = core s := by
  have empty : (g.map Piece.code).filter (fun p => !p.isGap) = [] := by
    rw [List.filter_eq_nil_iff, List.forall_mem_map]
    exact fun c hc => by simp [hg c hc]
  rw [core, pieces_append_code hg.not_mem, List.filter_append, empty, List.append_nil, core]

theorem LinesJoined.core_eq (h : LinesJoined s r) : core r = core s := by
  induction h with
  | nil => rfl
  | code hc _ _ _ ih => exact core_cons_congr hc ih
  | newline _ ih => rw [core_gap_cons (by decide), ih, core_gap_cons (by decide)]
  | carriage _ ih => rw [ih, core_gap_cons (c := '\r') (by decide)]
  | literal hb _ ih => rw [core_literal hb, ih, core_literal hb]
  | opened hs hr _ ih => rw [core_opened hr, ih, core_opened hs]

theorem SemicolonsJoined.core_eq {gap : Bool} (h : SemicolonsJoined gap s r) : core r = core s := by
  induction h with
  | nil => rfl
  | code hc _ _ ih => exact core_cons_congr hc ih
  | kept _ _ ih => exact core_cons_congr (by decide) ih
  | dropped _ _ ih => rw [ih, core_gap_cons (by decide)]
  | blank hc _ _ ih => rw [ih, core_gap_cons (isGap_of_isBlank hc)]
  | literal hb _ ih => rw [core_literal hb, ih, core_literal hb]
  | opened hs hr _ ih => rw [core_opened hr, ih, core_opened hs]

/-! ### Trimming -/

theorem core_trim (s : List Char) : core (trim s) = core s := by
  obtain ⟨a, b, h, ha, hb⟩ := exists_trim s
  conv_rhs => rw [h]
  rw [core_gap_append (isGap_blanks ha), core_append_gap (isGap_blanks hb)]

theorem pieces_trim_subset (s : List Char) : pieces (trim s) ⊆ pieces s := by
  obtain ⟨a, b, h, ha, hb⟩ := exists_trim s
  conv_rhs => rw [h]
  rw [pieces_append (closed_of_not_mem (isGap_blanks ha).not_mem),
    pieces_append_code (isGap_blanks hb).not_mem]
  exact fun p hp => List.mem_append_right _ (List.mem_append_left _ hp)

/-! ### Comments -/

theorem dropComments_of_not_opensComment (hq : c ≠ '\'') (ho : ¬OpensComment c s) :
    dropComments .code (c :: s) = c :: dropComments .code s := by
  rw [dropComments.eq_def]
  split <;> simp_all [OpensComment]

theorem commentFree_cons (hq : c ≠ '\'') :
    CommentFree (c :: s) ↔ ¬OpensComment c s ∧ CommentFree s := by
  constructor
  · intro h
    have ho := Token.not_opensComment h
    rw [CommentFree, dropComments_of_not_opensComment hq ho, List.cons.injEq] at h
    exact ⟨ho, h.2⟩
  · rintro ⟨ho, h⟩
    rw [CommentFree, dropComments_of_not_opensComment hq ho, h]

theorem commentFree_literal (hb : '\'' ∉ body) :
    CommentFree ('\'' :: (body ++ '\'' :: s)) ↔ CommentFree s := by
  rw [CommentFree, keepsLiterals_dropComments.literal hb, List.cons_inj_right,
    List.append_cancel_left_eq, List.cons_inj_right, CommentFree]

theorem commentFree_opened (hs : '\'' ∉ s) : CommentFree ('\'' :: s) ↔ CommentFree s := by
  rw [CommentFree, keepsLiterals_dropComments.opened hs, List.cons_inj_right, CommentFree]

/-- Texts that go on with the same character, if one of them goes on with a minus or a star. -/
def SameSign (s t : List Char) : Prop := ∀ d ∈ ['-', '*'], s.head? = some d ↔ t.head? = some d

theorem SameSign.opensComment_iff (h : SameSign s t) : OpensComment c s ↔ OpensComment c t := by
  unfold OpensComment
  rw [h '-' (by decide), h '*' (by decide)]

/-- A comment does not open across the border of two texts, if the second starts with no sign for
it. -/
theorem commentFree_append (ha : Closed s ∨ '\'' ∉ t) (ht : SameSign t []) :
    CommentFree (s ++ t) ↔ CommentFree s ∧ CommentFree t := by
  induction s using induction_on_pieces with
  | nil =>
    rw [List.nil_append]
    exact (and_iff_right (by simp [CommentFree, dropComments])).symm
  | code c s hc ih =>
    rw [closed_cons hc] at ha
    have sign : SameSign (s ++ t) s := by
      cases s with
      | nil => exact ht
      | cons d s => exact fun _ _ => Iff.rfl
    rw [List.cons_append, commentFree_cons hc, commentFree_cons hc, sign.opensComment_iff, ih ha,
      and_assoc]
  | literal body s hb ih =>
    rw [closed_literal hb] at ha
    rw [List.cons_append, List.append_assoc, List.cons_append, commentFree_literal hb,
      commentFree_literal hb, ih ha]
  | opened s hs ih =>
    have ht := ha.resolve_left (not_closed_opened hs)
    have hst : '\'' ∉ s ++ t := by simp [hs, ht]
    rw [List.cons_append, commentFree_opened hst, commentFree_opened hs, ih (.inr ht)]

theorem commentFree_nil : CommentFree [] := by simp [CommentFree, dropComments]

theorem commentFree_gap_cons (h : (Piece.code c).isGap = true) (s : List Char) :
    CommentFree (c :: s) ↔ CommentFree s := by
  obtain ⟨hq, hd, hs, -⟩ := ne_of_isGap h
  have ho : ¬OpensComment c s := by simp [OpensComment, hd, hs]
  rw [commentFree_cons hq, and_iff_right ho]

theorem commentFree_gap_append (hg : IsGap g) (s : List Char) :
    CommentFree (g ++ s) ↔ CommentFree s := by
  induction g with
  | nil => rfl
  | cons c g ih =>
    obtain ⟨hc, hg⟩ := List.forall_mem_cons.mp hg
    rw [List.cons_append, commentFree_gap_cons hc, ih hg]

theorem sameSign_gap (hg : IsGap g) (hne : g ≠ []) (s : List Char) : SameSign (g ++ s) [] := by
  obtain ⟨c, g, rfl⟩ := List.exists_cons_of_ne_nil hne
  obtain ⟨-, hd, -, hs⟩ := ne_of_isGap (hg c (List.mem_cons_self ..))
  simp [SameSign, hd, hs]

theorem commentFree_append_gap (hg : IsGap g) (s : List Char) :
    CommentFree (s ++ g) ↔ CommentFree s := by
  by_cases hne : g = []
  · rw [hne, List.append_nil]
  · have alone := commentFree_gap_append hg []
    have sign := sameSign_gap hg hne []
    rw [List.append_nil] at alone sign
    rw [commentFree_append (.inr hg.not_mem) sign, alone, and_iff_left commentFree_nil]

theorem commentFree_trim (s : List Char) : CommentFree (trim s) ↔ CommentFree s := by
  obtain ⟨a, b, h, ha, hb⟩ := exists_trim s
  conv_rhs => rw [h]
  rw [commentFree_gap_append (isGap_blanks ha), commentFree_append_gap (isGap_blanks hb)]

theorem LinesJoined.sameSign (h : LinesJoined s r) : SameSign r s := by
  intro d hd
  have blank : d ≠ ' ' ∧ d ≠ '\r' ∧ d ≠ '\n' := by
    revert d
    decide
  cases h with
  | newline => simp [Ne.symm blank.1, Ne.symm blank.2.2]
  | carriage h =>
    cases h with
    | code _ hn => exact absurd rfl hn
    | newline => simp [Ne.symm blank.1, Ne.symm blank.2.1]
  | _ => rfl

theorem LinesJoined.commentFree_iff (h : LinesJoined s r) : CommentFree r ↔ CommentFree s := by
  induction h with
  | nil => rfl
  | code hc _ _ h ih =>
    rw [commentFree_cons hc, commentFree_cons hc, h.sameSign.opensComment_iff, ih]
  | newline _ ih => rw [commentFree_gap_cons (by decide), ih, commentFree_gap_cons (by decide)]
  | carriage _ ih => rw [ih, commentFree_gap_cons (c := '\r') (by decide)]
  | literal hb _ ih => rw [commentFree_literal hb, ih, commentFree_literal hb]
  | opened hs hr _ ih => rw [commentFree_opened hr, ih, commentFree_opened hs]

/-- What a gap leaves starts with the semicolon that ends it. -/
theorem SemicolonsJoined.head?_eq (h : SemicolonsJoined true s r) : r.head? = some ';' := by
  generalize hgap : true = gap at h
  induction h with
  | kept => rfl
  | dropped _ _ ih => exact ih rfl
  | blank _ _ _ ih => exact ih rfl
  | _ => cases hgap

theorem SemicolonsJoined.sameSign (h : SemicolonsJoined false s r) : SameSign r s := by
  intro d hd
  have sign : d ≠ ';' := by
    revert d
    decide
  cases h with
  | dropped _ h =>
    rw [h.head?_eq]
    rfl
  | _ => rfl

theorem SemicolonsJoined.commentFree_iff {gap : Bool} (h : SemicolonsJoined gap s r) :
    CommentFree r ↔ CommentFree s := by
  induction h with
  | nil => rfl
  | code hc _ h ih =>
    rw [commentFree_cons hc, commentFree_cons hc, h.sameSign.opensComment_iff, ih]
  | kept _ _ ih => rw [commentFree_gap_cons (by decide), ih, commentFree_gap_cons (by decide)]
  | dropped _ _ ih => rw [ih, commentFree_gap_cons (by decide)]
  | blank hc _ _ ih => rw [ih, commentFree_gap_cons (isGap_of_isBlank hc)]
  | literal hb _ ih => rw [commentFree_literal hb, ih, commentFree_literal hb]
  | opened hs hr _ ih => rw [commentFree_opened hr, ih, commentFree_opened hs]

end EtlFlow.Sql
