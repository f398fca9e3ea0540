import EtlFlow.Proofs.Sql.Stable
/-!
# Texts cut in two

Behind a closed front the stages go on as they start on a text of its own, so a text is settled, or
quiet, exactly when its two ends are (`settled_append_iff`, `isQuiet_append_iff`).  A statement may
therefore get another front (`IsStatement.with_front`), and one without comments is read as it is
(`parse_of_isStatement`).
-/

namespace EtlFlow.Sql

open Text (isBlank trimStart trimEnd trim trim_ends trim_eq_self)

variable {a b x : List Char}

/-! ### Both ends -/

theorem undivided_append_iff (ha : Closed a) : Undivided (a ++ b) ↔ Undivided a ∧ Undivided b := by
  induction a using induction_on_pieces with
  | nil => exact (and_iff_right undivided_nil).symm
  | code c a hc ih =>
    rw [closed_cons hc] at ha
    rw [List.cons_append, undivided_cons hc, undivided_cons hc, ih ha, and_assoc]
  | literal body a hb ih =>
    rw [closed_literal hb] at ha
    rw [List.cons_append, List.append_assoc, List.cons_append, undivided_literal hb,
      undivided_literal hb, ih ha]
  | opened a ha' => exact absurd ha (not_closed_opened ha')

/-- A front without semicolons between its literals stays, and what is behind it is joined as alone. -/
theorem joinSemicolons_append_undivided (ha : Closed a) (hu : Undivided a) (b : List Char) :
    joinSemicolons false .code (a ++ b) = a ++ joinSemicolons false .code b := by
  induction a using induction_on_pieces with
  | nil => rfl
  | code c a hc ih =>
    rw [closed_cons hc] at ha
    rw [undivided_cons hc] at hu
    rw [List.cons_append, joinSemicolons_cons hc hu.1, ih ha hu.2, List.cons_append]
  | literal body a hb ih =>
    rw [closed_literal hb] at ha
    rw [undivided_literal hb] at hu
    rw [List.cons_append, List.append_assoc, List.cons_append,
      keepsLiterals_joinSemicolons.literal hb, ih ha hu]
    simp
  | opened a ha' => exact absurd ha (not_closed_opened ha')

theorem settled_append_iff (ha : Closed a) : Settled (a ++ b) ↔ Settled a ∧ Settled b := by
  have alone (hu : Undivided a) : joinSemicolons false .code a = a := by
    have := joinSemicolons_append_undivided ha hu []
    simpa [joinSemicolons] using this
  have lines : Piece.code '\n' ∉ pieces (a ++ b) ↔
      Piece.code '\n' ∉ pieces a ∧ Piece.code '\n' ∉ pieces b := by
    rw [pieces_append ha, List.mem_append, not_or]
  simp only [settled_iff, joinLines_eq_self_iff, lines, undivided_append_iff ha]
  constructor
  · rintro ⟨⟨la, lb⟩, semicolons, ua, ub⟩
    rw [joinSemicolons_append_undivided ha ua, List.append_cancel_left_eq] at semicolons
    exact ⟨⟨la, alone ua, ua⟩, lb, semicolons, ub⟩
  · rintro ⟨⟨la, -, ua⟩, lb, semicolons, ub⟩
    refine ⟨⟨la, lb⟩, ?_, ua, ub⟩
    rw [joinSemicolons_append_undivided ha ua, semicolons]

theorem isQuiet_append_iff (ha : Closed a) (hb : SameSign b []) :
    IsQuiet (a ++ b) ↔ IsQuiet a ∧ IsQuiet b := by
  simp only [isQuiet_iff, settled_append_iff ha, commentFree_append (.inl ha) hb,
    closed_append_iff ha]
  tauto

/-- A text of characters that no stage looks at is quiet. -/
theorem isQuiet_of_isCalm (ha : ∀ c ∈ a, isCalm c) (hl : '\n' ∉ a) : IsQuiet a := by
  have empty : IsQuiet [] :=
    ⟨⟨by simp [joinLines], by simp [joinSemicolons], undivided_nil⟩, commentFree_nil, closed_nil⟩
  have := (isQuiet_append ha hl (s := []) (b := []) (by simp) (by simp) fun _ _ => Iff.rfl).mpr empty
  simpa using this

theorem closed_of_isCalm {p : List Char} (h : ∀ c ∈ p, isCalm c) : Closed p :=
  closed_of_not_mem (isPlainCode_of_isCalm h).not_mem

/-- A settled text has no newline in a front without quotes. -/
theorem not_mem_of_settled {p s : List Char} (hp : ∀ c ∈ p, isCalm c) (h : Settled (p ++ s)) :
    '\n' ∉ p := by
  have lines := (joinLines_eq_self_iff.mp ((settled_append_iff (closed_of_isCalm hp)).mp h).1.lines)
  rw [pieces_code (isPlainCode_of_isCalm hp).not_mem] at lines
  simpa using lines

/-- The text goes on with no sign of a comment when it starts with something else. -/
theorem sameSign_cons {c : Char} (hd : c ≠ '-') (hs : c ≠ '*') (s : List Char) :
    SameSign (c :: s) [] := by
  simp [SameSign, hd, hs]

/-! ### Statements -/

/-- A statement may get another front. -/
theorem IsStatement.with_front {p : List Char} (h : IsStatement (a ++ b)) (ha : Closed a)
    (hb : b ≠ []) (hp : IsQuiet p) (hne : p ≠ []) (hhead : ∀ c ∈ p.head?, isBlank c = false) :
    IsStatement (p ++ b) := by
  refine ⟨(settled_append_iff hp.closed).mpr
    ⟨hp.settled, ((settled_append_iff ha).mp h.settled).2⟩, ?_, by simp [hne]⟩
  have ends := (trim_ends h.trimmed).2
  rw [List.getLast?_append_of_ne_nil _ hb] at ends
  refine trim_eq_self ?_ ?_
  · rwa [List.head?_append_of_ne_nil _ hne]
  · rwa [List.getLast?_append_of_ne_nil _ hb]

theorem isStatement_of_parse {sql : String} {s : Statement} (h : Statement.parse sql = .ok s) :
    IsStatement s.text.toList := by
  rw [Statement.parse] at h
  split at h
  · cases h
  · rename_i y hy
    cases h
    refine isStatement_of_mem (s := stripped true sql.toList) ?_
    rw [← map_toList_sanitize, hy]
    exact List.mem_singleton.mpr rfl
  · cases h

theorem sanitize_of_isStatement {y : String} (h : IsStatement y.toList)
    (free : CommentFree y.toList) : sanitize true y = [y] := by
  have same : stripped true y.toList = y.toList := by rw [stripped, if_pos rfl, free]
  rw [sanitize_eq, same, statements_of_isStatement h, List.map_singleton, String.ofList_toList]

/-- A statement without comments is its own only statement. -/
theorem parse_of_isStatement {y : String} (h : IsStatement y.toList) (free : CommentFree y.toList) :
    Statement.parse y = .ok ⟨y⟩ ∧ (Script.ofText y).statements = [⟨y⟩] := by
  rw [Statement.parse, Script.ofText, sanitize_of_isStatement h free]
  exact ⟨rfl, rfl⟩

end EtlFlow.Sql
