import EtlFlow.Proofs.Sql.Fragments
/-!
# Settled texts

A text is settled when the stages behind the comments leave it as it is.  Every statement that the
clean-up gives is settled and trimmed (`IsStatement`), and such a text is its own only statement
(`statements_of_isStatement`).  The statements hold what the text held, outside its gaps
(`core_statements`), and comments open in them where they did before (`commentFree_statements`).  They
hold its literals, in order and each within one statement, and everything else but the blanks and
semicolons between them (`sanitize_lossless`).
-/

namespace EtlFlow.Sql

open Text (isBlank trimStart trimEnd trim exists_trim trim_trim)

variable {a b f r s x : List Char} {c : Char}

/-! ### Lines -/

theorem LinesJoined.not_mem_pieces (h : LinesJoined s r) : .code '\n' ∉ pieces r := by
  have ne {c : Char} (hc : c ≠ '\n') : Piece.code '\n' ≠ .code c := by simpa using Ne.symm hc
  induction h with
  | nil => simp
  | code hc hn _ _ ih =>
    rw [pieces_cons hc, List.mem_cons, not_or]
    exact ⟨ne hn, ih⟩
  | newline _ ih =>
    rw [pieces_cons (by decide), List.mem_cons, not_or]
    exact ⟨ne (by decide), ih⟩
  | carriage _ ih => exact ih
  | literal hb _ ih =>
    rw [pieces_literal hb, List.mem_cons, not_or]
    exact ⟨nofun, ih⟩
  | opened _ hr _ ih =>
    rw [pieces_opened hr, List.mem_cons, not_or]
    exact ⟨ne (by decide), ih⟩

/-- Joining lines changes a text exactly when a line ends between its literals. -/
theorem joinLines_eq_self_iff : joinLines .code s = s ↔ .code '\n' ∉ pieces s := by
  constructor
  · intro h
    rw [← h]
    exact (linesJoined s).not_mem_pieces
  intro h
  induction s using induction_on_pieces with
  | nil => simp [joinLines]
  | code c s hc ih =>
    rw [pieces_cons hc, List.mem_cons, not_or] at h
    have hr : s.head? ≠ some '\n' := by
      intro hs
      cases s with
      | nil => cases hs
      | cons d s =>
        cases hs
        rw [pieces_cons (by decide)] at h
        exact h.2 (List.mem_cons_self ..)
    rw [joinLines_cons hc (by simpa using Ne.symm h.1) fun _ => hr, ih h.2]
  | literal body s hb ih =>
    rw [pieces_literal hb, List.mem_cons, not_or] at h
    rw [keepsLiterals_joinLines.literal hb, ih h.2]
  | opened s hs ih =>
    rw [pieces_opened hs, List.mem_cons, not_or] at h
    rw [keepsLiterals_joinLines.opened hs, ih h.2]

/-! ### Semicolons -/

namespace SemicolonsJoined

variable {gap : Bool}

theorem semicolonNext_eq (h : SemicolonsJoined gap s r) : semicolonNext r = semicolonNext s := by
  induction h with
  | nil => rfl
  | code _ _ _ ih => rw [semicolonNext_cons, semicolonNext_cons, ih]
  | kept => rw [semicolonNext_cons, semicolonNext_cons]; rfl
  | dropped next _ ih => rw [ih, next, semicolonNext_cons]; rfl
  | blank hc next _ ih => rw [ih, semicolonNext_cons, if_pos hc]
  | literal | opened => rw [semicolonNext_cons, semicolonNext_cons]; rfl

/-- Semicolons that are joined stay as they are. -/
theorem again (h : SemicolonsJoined gap s r) : SemicolonsJoined false r r := by
  induction h with
  | nil => exact .nil
  | code hc hs _ ih => exact .code hc hs ih
  | kept next h ih => exact .kept (h.semicolonNext_eq.trans next) ih
  | dropped _ _ ih | blank _ _ _ ih => exact ih
  | literal hb _ ih => exact .literal hb ih
  | opened _ hr _ ih => exact .opened hr hr ih

theorem pieces_subset (h : SemicolonsJoined gap s r) : pieces r ⊆ pieces s := by
  induction h with
  | nil => exact List.Subset.refl _
  | code hc _ _ ih =>
    rw [pieces_cons hc, pieces_cons hc]
    exact List.cons_subset_cons _ ih
  | kept _ _ ih =>
    rw [pieces_cons (by decide), pieces_cons (by decide)]
    exact List.cons_subset_cons _ ih
  | dropped _ _ ih =>
    rw [pieces_cons (by decide)]
    exact List.subset_cons_of_subset _ ih
  | blank hc _ _ ih =>
    rw [pieces_cons (isCalm_iff.mp (isCalm_of_isBlank hc)).1]
    exact List.subset_cons_of_subset _ ih
  | literal hb _ ih =>
    rw [pieces_literal hb, pieces_literal hb]
    exact List.cons_subset_cons _ ih
  | opened hs hr _ ih =>
    rw [pieces_opened hs, pieces_opened hr]
    exact List.cons_subset_cons _ ih

/-- Semicolons are joined in front of what holds neither quotes nor semicolons as they are alone. -/
theorem append_plain (h : SemicolonsJoined gap s r) (hb : IsPlainCode b) :
    SemicolonsJoined gap (s ++ b) (r ++ b) := by
  have outside {s : List Char} (hs : '\'' ∉ s) : '\'' ∉ s ++ b := by simp [hs, hb.not_mem]
  induction h with
  | nil =>
    have := semicolonsJoined b
    rwa [joinSemicolons_plain hb] at this
  | code hc hs _ ih => exact .code hc hs ih
  | kept next _ ih => exact .kept ((semicolonNext_append hb _).trans next) ih
  | dropped next _ ih => exact .dropped ((semicolonNext_append hb _).trans next) ih
  | blank hc next _ ih => exact .blank hc ((semicolonNext_append hb _).trans next) ih
  | literal hbody _ ih =>
    rw [List.cons_append, List.append_assoc, List.cons_append, List.cons_append, List.append_assoc,
      List.cons_append]
    exact .literal hbody ih
  | opened hs hr _ ih => exact .opened (outside hs) (outside hr) ih

end SemicolonsJoined

theorem joinSemicolons_append_plain (hb : IsPlainCode b) (s : List Char) :
    joinSemicolons false .code (s ++ b) = joinSemicolons false .code s ++ b :=
  ((semicolonsJoined s).append_plain hb).eq

/-! ### Settled texts -/

/-- No stage behind the comments changes the text, trimming apart. -/
structure Settled (s : List Char) : Prop where
  lines : joinLines .code s = s
  semicolons : joinSemicolons false .code s = s
  undivided : Undivided s

theorem settled_iff : Settled s ↔
    joinLines .code s = s ∧ joinSemicolons false .code s = s ∧ Undivided s :=
  ⟨fun h => ⟨h.lines, h.semicolons, h.undivided⟩, fun h => ⟨h.1, h.2.1, h.2.2⟩⟩

instance (s : List Char) : Decidable (Settled s) := decidable_of_iff _ settled_iff.symm

/-- Between characters that no stage looks at, a text is settled as it is alone. -/
theorem settled_append (ha : ∀ c ∈ a, isCalm c) (hla : '\n' ∉ a) (hb : IsPlainCode b)
    (hlb : '\n' ∉ b) : Settled (a ++ (s ++ b)) ↔ Settled s := by
  have plain := isPlainCode_of_isCalm ha
  have lines : Piece.code '\n' ∉ pieces (a ++ (s ++ b)) ↔ Piece.code '\n' ∉ pieces s := by
    rw [pieces_append (closed_of_not_mem plain.not_mem), pieces_append_code hb.not_mem,
      pieces_code plain.not_mem]
    simp [hla, hlb]
  rw [settled_iff, settled_iff, joinLines_eq_self_iff, joinLines_eq_self_iff, lines,
    joinSemicolons_append ha, joinSemicolons_append_plain hb, List.append_cancel_left_eq,
    List.append_cancel_right_eq, undivided_append_left plain, undivided_append_right hb]

theorem joinSemicolons_trim (h : joinSemicolons false .code s = s) :
    joinSemicolons false .code (trim s) = trim s := by
  obtain ⟨a, b, hs, ha, hb⟩ := exists_trim s
  have calm : ∀ c ∈ a, isCalm c := fun c hc => isCalm_of_isBlank (ha c hc)
  conv at h => rw [hs, joinSemicolons_append calm]
  rw [joinSemicolons_append_plain (isPlainCode_blanks hb)] at h
  exact List.append_cancel_right (List.append_cancel_left h)

/-! ### The statement in a fragment -/

theorem settled_statement (hf : Undivided f) : Settled (statement f) := by
  have lines := linesJoined f
  have semicolons := semicolonsJoined (joinLines .code f)
  refine ⟨?_, joinSemicolons_trim semicolons.again.eq, ?_⟩
  · rw [joinLines_eq_self_iff]
    exact fun h => lines.not_mem_pieces (semicolons.pieces_subset (pieces_trim_subset _ h))
  · exact undivided_trim.mpr (semicolons.undivided (undivided_joinLines hf))

theorem core_statement (f : List Char) : core (statement f) = core f := by
  rw [statement, core_trim, (semicolonsJoined _).core_eq, (linesJoined f).core_eq]

theorem commentFree_statement (f : List Char) : CommentFree (statement f) ↔ CommentFree f := by
  rw [statement, commentFree_trim, (semicolonsJoined _).commentFree_iff,
    (linesJoined f).commentFree_iff]

/-- A quote that nothing closes stays in the core. -/
theorem closed_iff_core (s : List Char) : Closed s ↔ .code '\'' ∉ core s := by
  induction s using induction_on_pieces with
  | nil => simp [core]
  | code c s hc ih =>
    have ne : Piece.code '\'' ≠ .code c := by simpa using Ne.symm hc
    rw [closed_cons hc, ih, core, core, pieces_cons hc, List.mem_filter, List.mem_filter,
      List.mem_cons, or_iff_right ne]
  | literal body s hb ih =>
    rw [closed_literal hb, ih, core_literal hb, List.mem_cons, or_iff_right (by simp)]
  | opened s hs =>
    rw [core_opened hs]
    exact iff_of_false (not_closed_opened hs) (by simp)

theorem closed_statement : Closed (statement f) ↔ Closed f := by
  rw [closed_iff_core, closed_iff_core, core_statement]

/-! ### The statements of a text -/

/-- A text that the clean-up gives as a statement. -/
structure IsStatement (x : List Char) : Prop where
  settled : Settled x
  trimmed : trim x = x
  ne_nil : x ≠ []

theorem IsStatement.statement (h : IsStatement x) : statement x = x := by
  rw [Sql.statement, h.settled.lines, h.settled.semicolons, h.trimmed]

theorem mem_statements : x ∈ statements s ↔ ∃ f ∈ fragments false s, statement f = x ∧ x ≠ [] := by
  rw [statements_eq, filled, List.mem_filter, List.mem_map, decide_eq_true_eq]
  constructor
  · rintro ⟨⟨f, hf, h⟩, hx⟩
    exact ⟨f, hf, h, hx⟩
  · rintro ⟨f, hf, h, hx⟩
    exact ⟨⟨f, hf, h⟩, hx⟩

theorem isStatement_of_mem (h : x ∈ statements s) : IsStatement x := by
  obtain ⟨f, hf, rfl, hx⟩ := mem_statements.mp h
  exact ⟨settled_statement ((isSplit_fragments s).undivided f hf), trim_trim _, hx⟩

theorem closed_statements (s : List Char) : (statements s).Pairwise fun x _ => Closed x := by
  rw [statements_eq]
  refine List.Pairwise.filter _ (List.Pairwise.map _ ?_ (isSplit_fragments s).closed)
  exact fun _ _ => closed_statement.mpr

theorem core_statements (s : List Char) : (statements s).flatMap core = core s := by
  have full (fs : List (List Char)) : (filled fs).flatMap core = fs.flatMap core := by
    induction fs with
    | nil => rfl
    | cons f fs ih =>
      rw [filled_cons, List.flatMap_cons]
      split
      · rw [ih, ‹f = []›]
        rfl
      · rw [List.flatMap_cons, ih]
  have cut := core_intercalate (g := [';']) (by decide) (isSplit_fragments s).closed
  rw [intercalate_fragments] at cut
  rw [statements_eq, full, List.flatMap_map, cut]
  exact List.flatMap_congr fun f _ => core_statement f

theorem commentFree_statements (s : List Char) :
    (∀ x ∈ statements s, CommentFree x) ↔ CommentFree s := by
  have cut := commentFree_intercalate (g := [';']) (by decide) (by simp) (isSplit_fragments s).closed
  rw [intercalate_fragments] at cut
  rw [cut]
  constructor
  · intro h f hf
    by_cases hx : statement f = []
    · rw [← commentFree_statement, hx]
      exact commentFree_nil
    · exact (commentFree_statement f).mp (h _ (mem_statements.mpr ⟨f, hf, rfl, hx⟩))
  · intro h x hx
    obtain ⟨f, hf, rfl, -⟩ := mem_statements.mp hx
    exact (commentFree_statement f).mpr (h f hf)

/-- All statements of a closed text are closed. -/
theorem closed_of_mem_statements (hs : Closed s) (hx : x ∈ statements s) : Closed x := by
  rw [closed_iff_core, ← core_statements] at hs
  rw [closed_iff_core]
  exact fun h => hs (List.mem_flatMap.mpr ⟨x, hx, h⟩)

/-! ### Statements put together -/

theorem statements_nil : statements [] = [] := by
  rw [statements_eq]
  simp [fragments, statement, joinLines, joinSemicolons, filled, trim, trimStart, trimEnd]

theorem statements_of_undivided (hx : Undivided x) : statements x = filled [statement x] := by
  rw [statements_eq, hx, List.map_singleton]

theorem statements_of_isStatement (hx : IsStatement x) : statements x = [x] := by
  rw [statements_of_undivided hx.settled.undivided, hx.statement, filled_cons, if_neg hx.ne_nil]
  rfl

theorem statements_append_semicolon (hx : IsStatement x) (hc : Closed x) (s : List Char) :
    statements (x ++ ';' :: s) = x :: statements s := by
  rw [statements_eq, fragments_append_semicolon hx.settled.undivided hc, List.map_cons, hx.statement,
    filled_cons, if_neg hx.ne_nil, statements_eq]

theorem statements_newline (s : List Char) : statements ('\n' :: s) = statements s := by
  obtain ⟨f, fs, h⟩ := exists_fragments s
  have same : statement ('\n' :: f) = statement f := by
    have lines : joinLines .code ('\n' :: f) = ' ' :: joinLines .code f := by simp [joinLines]
    rw [statement, lines, joinSemicolons_cons (by decide) (by decide), trim, trimStart,
      List.dropWhile_cons_of_pos (by decide)]
    rfl
  rw [statements_eq, fragments_cons (by decide) (by decide) h, List.map_cons, same, statements_eq, h,
    List.map_cons]

/-! ### Quiet texts -/

/-- A text that the clean-up leaves as it is wherever it stands. -/
structure IsQuiet (s : List Char) : Prop where
  settled : Settled s
  commentFree : CommentFree s
  closed : Closed s

theorem isQuiet_iff : IsQuiet s ↔ Settled s ∧ CommentFree s ∧ Closed s :=
  ⟨fun h => ⟨h.settled, h.commentFree, h.closed⟩, fun h => ⟨h.1, h.2.1, h.2.2⟩⟩

instance (s : List Char) : Decidable (IsQuiet s) := decidable_of_iff _ isQuiet_iff.symm

/-- Between words that open nothing, a text is quiet as it is alone. -/
theorem isQuiet_append (ha : ∀ c ∈ a, isCalm c) (hla : '\n' ∉ a) (hb : ∀ c ∈ b, isCalm c)
    (hlb : '\n' ∉ b) (hsign : SameSign b []) : IsQuiet (a ++ (s ++ b)) ↔ IsQuiet s := by
  have front : '\'' ∉ a := (isPlainCode_of_isCalm ha).not_mem
  have back : '\'' ∉ b := (isPlainCode_of_isCalm hb).not_mem
  have alone : CommentFree b := by
    have := dropComments_append hb []
    simpa [CommentFree, dropComments] using this
  have free : CommentFree (a ++ (s ++ b)) ↔ CommentFree s := by
    rw [CommentFree, dropComments_append ha, List.append_cancel_left_eq, ← CommentFree,
      commentFree_append (.inr back) hsign, and_iff_left alone]
  have closed : Closed (a ++ (s ++ b)) ↔ Closed s := by
    rw [closed_append_iff (closed_of_not_mem front), Closed, List.count_append,
      List.count_eq_zero_of_not_mem back, Nat.add_zero, ← Closed]
  rw [isQuiet_iff, settled_append ha hla (isPlainCode_of_isCalm hb) hlb, free, closed, ← isQuiet_iff]

/-! ### Nothing is lost between comments -/

variable {xs : List (List Char)}

/-- The text without the blanks and semicolons outside its literals. -/
def solid (s : List Char) : List Char := (core s).flatMap Piece.text

theorem core_flatten (h : ∀ x ∈ xs, Closed x) : core xs.flatten = xs.flatMap core := by
  induction xs with
  | nil => rfl
  | cons x xs ih =>
    rw [List.forall_mem_cons] at h
    rw [List.flatten_cons, core_append h.1, ih h.2, List.flatMap_cons]

theorem literals_statements (s : List Char) : (statements s).flatMap literals = literals s := by
  rw [literals_eq, ← core_statements, List.filterMap_flatMap]
  exact List.flatMap_congr fun x _ => literals_eq x

theorem solid_statements (hs : Closed s) : solid (statements s).flatten = solid s := by
  rw [solid, core_flatten fun x hx => closed_of_mem_statements hs hx, core_statements, solid]

/-- Between the literals of a closed statement stands neither a semicolon nor the end of a line. -/
theorem IsStatement.not_mem_pieces (h : IsStatement x) (hc : Closed x) :
    .code ';' ∉ pieces x ∧ .code '\n' ∉ pieces x :=
  ⟨(undivided_iff hc).mp h.settled.undivided, joinLines_eq_self_iff.mp h.settled.lines⟩

/-- Where the text without its comments has an even number of quotes, its statements hold the same
literals, each of them in one statement, no statement has a semicolon or a line end outside of them,
and with the blanks and semicolons between literals taken away the text and its statements are the
same. -/
theorem sanitize_lossless {sql : String} (h : Even ((withoutComments sql).toList.count '\'')) :
    ((sanitize true sql).map String.toList).flatMap literals =
        literals (withoutComments sql).toList ∧
      (∀ x ∈ sanitize true sql, Even (x.toList.count '\'')) ∧
      (∀ x ∈ sanitize true sql, .code ';' ∉ pieces x.toList ∧ .code '\n' ∉ pieces x.toList) ∧
      solid ((sanitize true sql).map String.toList).flatten = solid (withoutComments sql).toList := by
  rw [withoutComments, String.toList_ofList] at *
  have texts : (sanitize true sql).map String.toList = statements (dropComments .code sql.toList) :=
    map_toList_sanitize true sql
  have mem {x : String} (hx : x ∈ sanitize true sql) :
      x.toList ∈ statements (dropComments .code sql.toList) := by
    rw [← texts]
    exact List.mem_map_of_mem hx
  have closed {x : String} (hx : x ∈ sanitize true sql) : Closed x.toList :=
    closed_of_mem_statements h (mem hx)
  refine ⟨?_, fun x hx => closed hx, ?_, ?_⟩
  · rw [texts, literals_statements]
  · exact fun x hx => (isStatement_of_mem (mem hx)).not_mem_pieces (closed hx)
  · rw [texts, solid_statements h]

/-- An apostrophe in a comment, semicolons and a line end in literals, and lines and semicolons
between them. -/
theorem sanitize_lossless_notes :
    Even ((withoutComments "SET note = 'a;\nb' -- it's one\n ;\n; SET sep = ';'").toList.count '\'') ∧
      ((sanitize true "SET note = 'a;\nb' -- it's one\n ;\n; SET sep = ';'").map
        String.toList).flatMap literals = ["a;\nb".toList, ";".toList] := by
  have even : Even
      ((withoutComments "SET note = 'a;\nb' -- it's one\n ;\n; SET sep = ';'").toList.count '\'') := by
    decide +kernel
  exact ⟨even, (sanitize_lossless even).1.trans (by decide +kernel)⟩

end EtlFlow.Sql
