import EtlFlow.Proofs.Sql.Settled
import EtlFlow.Proofs.Warehouse.Header
/-!
# Cleaning up once more

A text weighs as many characters as it has beside blanks and semicolons.  The stages that change gaps
alone keep the weight, since it can be read off the core (`weight_eq_of_core_eq`).  Taking away
comments or the outer transaction either changes nothing or makes the text lighter (`Sheds`).

The statements of a text can be written down again in two ways, with a semicolon between them or with
one behind each and every one on its own line.  Either text has the core of the first one, so a
second clean-up gives the same statements exactly when there is nothing left to take away, no comment
and no transaction, and the written text is cut where it was put together (`sanitize_again_iff`).
Comments are left when taking away one joins the signs of another, a transaction when it stands in
another, and an added semicolon belongs to the last statement when a quote in it is never closed.
-/

namespace EtlFlow.Sql

open Text (exists_trim isBlank trim trimStart)
open Token (OpensComment)

variable {r s t u : List Char} {c : Char}

/-- The number of characters that are neither blanks nor semicolons. -/
def weight (s : List Char) : Nat := s.countP fun c => !(Piece.code c).isGap

@[simp]
theorem weight_nil : weight [] = 0 := rfl

theorem weight_cons (c : Char) (s : List Char) :
    weight (c :: s) = weight s + if (Piece.code c).isGap then 0 else 1 := by
  rw [weight, List.countP_cons, ← weight]
  cases (Piece.code c).isGap <;> rfl

@[simp]
theorem weight_append (s t : List Char) : weight (s ++ t) = weight s + weight t :=
  List.countP_append

theorem weight_le_of_sublist (h : s.Sublist t) : weight s ≤ weight t := h.countP_le

theorem weight_solid (s : List Char) : weight (solid s) = weight s := by
  have dense (ps : List Piece) : weight ((ps.filter fun p => !p.isGap).flatMap Piece.text) =
      weight (ps.flatMap Piece.text) := by
    induction ps with
    | nil => rfl
    | cons p ps ih =>
      rw [List.filter_cons, List.flatMap_cons, weight_append]
      split
      · rw [List.flatMap_cons, weight_append, ih]
      · cases p with
        | code c =>
          have gap : (Piece.code c).isGap = true := by
            rename_i h
            simpa using h
          rw [ih, Piece.text, weight_cons, if_pos gap, weight_nil, Nat.zero_add]
        | literal body => exact absurd rfl ‹_›
  rw [solid, core, dense, flatMap_text_pieces]

theorem weight_eq_of_core_eq (h : core s = core t) : weight s = weight t := by
  rw [← weight_solid s, solid, h, ← solid, weight_solid]

/-! ### Taking away -/

/-- The second text is the first one, or lighter. -/
def Sheds (s r : List Char) : Prop := r = s ∨ weight r < weight s

namespace Sheds

theorem refl (s : List Char) : Sheds s s := .inl rfl

theorem le (h : Sheds s r) : weight r ≤ weight s := by
  rcases h with rfl | h
  · exact Nat.le_refl _
  · exact Nat.le_of_lt h

theorem trans (h : Sheds s r) (g : Sheds r u) : Sheds s u := by
  rcases h with rfl | h
  · exact g
  · exact .inr (Nat.lt_of_le_of_lt g.le h)

theorem append (h : Sheds s r) (a : List Char) : Sheds (a ++ s) (a ++ r) := by
  rcases h with rfl | h
  · exact refl _
  · refine .inr ?_
    rw [weight_append, weight_append]
    omega

/-- What has kept its weight has not changed. -/
theorem eq_of_weight_eq (h : Sheds s r) (hw : weight r = weight s) : r = s :=
  h.resolve_right (Nat.not_lt.mpr hw.ge)

end Sheds

/-! ### Comments -/

theorem dropComments_sublist (z : Zone) (s : List Char) : (dropComments z s).Sublist s := by
  fun_induction dropComments z s <;> grind

theorem sheds_dropComments (s : List Char) : Sheds s (dropComments .code s) := by
  induction s using induction_on_pieces with
  | nil => exact .inl (by simp [dropComments])
  | code c s hc ih =>
    by_cases ho : OpensComment c s
    · -- the two characters that open the comment go, and what follows does not grow
      have opener {d : Char} {r : List Char} {z : Zone} (hc : (Piece.code c).isGap = false)
          (hd : (Piece.code d).isGap = false) (hs : s = d :: r)
          (h : dropComments .code (c :: s) = dropComments z r) :
          Sheds (c :: s) (dropComments .code (c :: s)) := by
        have := weight_le_of_sublist (dropComments_sublist z r)
        refine .inr ?_
        rw [h, hs, weight_cons, weight_cons, hc, hd]
        simp only [Bool.false_eq_true, if_false]
        omega
      rcases ho with ⟨rfl, hs⟩ | ⟨rfl, hs⟩
      · obtain ⟨r, rfl⟩ := List.head?_eq_some_iff.mp hs
        exact opener (by decide) (by decide) rfl (by rw [dropComments])
      · obtain ⟨r, rfl⟩ := List.head?_eq_some_iff.mp hs
        exact opener (by decide) (by decide) rfl (by rw [dropComments])
    · rw [dropComments_of_not_opensComment hc ho]
      exact ih.append [c]
  | literal body s hb ih =>
    rw [keepsLiterals_dropComments.literal hb]
    exact ((ih.append ['\'']).append body).append ['\'']
  | opened s hs ih =>
    rw [keepsLiterals_dropComments.opened hs]
    exact ih.append ['\'']

/-! ### The outer transaction -/

theorem trimStart_sublist (s : List Char) : (trimStart s).Sublist s := List.dropWhile_sublist _

/-- A word weighs something. -/
theorem weight_of_dropWord? {c : Char} {word : List Char} (hc : c ∈ Text.plainLetters)
    (h : Text.dropWord? (c :: word) s = some r) : weight r < weight s := by
  obtain ⟨w, rfl, hw⟩ := Text.dropFolded?_eq_some_iff.mp h
  cases w with
  | nil => cases hw
  | cons d w =>
    rw [List.map_cons, List.cons.injEq] at hw
    have starts := (Text.capitals_of_foldCase (c := d) (by rwa [hw.1])).2
    have inside := Token.inWord_of_startsWord starts
    have gap : (Piece.code d).isGap = false := by
      simp [Piece.isGap, Token.isBlank_of_inWord inside,
        (isCalm_iff.mp (Token.isCalm_of_inWord inside)).2.1]
    rw [weight_append, weight_cons, gap]
    simp only [Bool.false_eq_true, if_false]
    omega

theorem weight_of_isCommit (h : isCommit s = true) : 0 < weight s := by
  rw [isCommit] at h
  split at h
  · cases h
  · have word := weight_of_dropWord? (c := 'c') (by decide) ‹_›
    have := weight_le_of_sublist (trimStart_sublist s)
    omega

theorem weight_of_dropBegin? (h : dropBegin? s = some r) : weight r < weight s := by
  simp only [dropBegin?, Option.bind_eq_bind, Option.bind_eq_some_iff] at h
  obtain ⟨t, ht, h⟩ := h
  have word := weight_of_dropWord? (c := 'b') (by decide) ht
  have start := weight_le_of_sublist (trimStart_sublist s)
  have spaced : weight ((Text.dropSpacedWord? "transaction".toList t).getD t) ≤ weight t := by
    cases hw : Text.dropSpacedWord? "transaction".toList t with
    | none => exact Nat.le_refl _
    | some u =>
      obtain ⟨b, w, rfl, -⟩ := Text.exists_of_dropSpacedWord? hw
      rw [Option.getD_some, weight_append, weight_append]
      omega
  split at h
  · cases h
    have := weight_le_of_sublist (trimStart_sublist
      ((Text.dropSpacedWord? "transaction".toList t).getD t))
    rw [‹trimStart _ = _›, weight_cons] at this
    omega
  · cases h

theorem sheds_dropFinalCommit (s : List Char) : Sheds s (dropFinalCommit s) := by
  induction s with
  | nil => exact .refl _
  | cons c s ih =>
    rw [dropFinalCommit]
    split
    · rename_i h
      have := weight_of_isCommit h.2
      refine .inr ?_
      rw [h.1, weight_cons, weight_cons, weight_nil]
      simp only [Piece.isGap]
      omega
    · exact ih.append [c]

theorem sheds_dropTransaction (s : List Char) : Sheds s (dropTransaction s) := by
  have front : Sheds s ((dropBegin? s).getD s) := by
    cases h : dropBegin? s with
    | none => exact .refl _
    | some r => exact .inr (weight_of_dropBegin? h)
  rw [dropTransaction]
  split
  · refine front.trans (.inr ?_)
    rw [weight_nil]
    exact weight_of_isCommit ‹_›
  · exact front.trans (sheds_dropFinalCommit _)

variable {x : List Char} {xs : List (List Char)}

/-! ### A semicolon behind a statement -/

theorem getLast?_cons_eq_semicolon_iff {c : Char} (hc : c ≠ ';') :
    (c :: s).getLast? = some ';' ↔ s.getLast? = some ';' := by
  cases s with
  | nil => simpa using hc
  | cons d s => rw [List.getLast?_cons_cons]

theorem getLast?_semicolon_cons (s : List Char) (hs : s ≠ []) :
    (';' :: s).getLast? = s.getLast? := by
  obtain ⟨d, s, rfl⟩ := List.exists_cons_of_ne_nil hs
  rw [List.getLast?_cons_cons]

theorem getLast?_literal_eq_semicolon_iff (body s : List Char) :
    ('\'' :: (body ++ '\'' :: s)).getLast? = some ';' ↔ s.getLast? = some ';' := by
  rw [← List.cons_append, List.getLast?_append_cons,
    getLast?_cons_eq_semicolon_iff (by decide)]

theorem ne_nil_of_semicolonNext (h : semicolonNext s = true) : s ≠ [] := by
  rintro rfl
  simp [semicolonNext, Text.trimStart] at h

theorem semicolonNext_append_semicolon (h : s.getLast? = some ';') :
    semicolonNext (s ++ [';']) = semicolonNext s := by
  induction s with
  | nil => cases h
  | cons c s ih =>
    rw [List.cons_append, semicolonNext_cons, semicolonNext_cons]
    split
    · have hc : c ≠ ';' := by
        rintro rfl
        exact absurd ‹_› (by decide)
      rw [ih ((getLast?_cons_eq_semicolon_iff hc).mp h)]
    · rfl

namespace SemicolonsJoined

variable {gap : Bool}

/-- A semicolon at the end stays there. -/
theorem getLast?_eq (h : SemicolonsJoined gap s r) (hs : s.getLast? = some ';') :
    r.getLast? = some ';' := by
  induction h with
  | nil => cases hs
  | code _ hc _ ih =>
    rw [getLast?_cons_eq_semicolon_iff hc] at hs ⊢
    exact ih hs
  | @kept gap s r _ h ih =>
    by_cases hnil : s = []
    · subst hnil
      cases h
      rfl
    · rw [getLast?_semicolon_cons s hnil] at hs
      have hr := ih hs
      rw [getLast?_semicolon_cons r (by rintro rfl; cases hr), hr]
  | dropped next _ ih =>
    rw [getLast?_semicolon_cons _ (ne_nil_of_semicolonNext next)] at hs
    exact ih hs
  | blank hc _ _ ih =>
    have hne := (isCalm_iff.mp (isCalm_of_isBlank hc)).2.1
    exact ih ((getLast?_cons_eq_semicolon_iff hne).mp hs)
  | literal hb _ ih =>
    rw [getLast?_literal_eq_semicolon_iff] at hs ⊢
    exact ih hs
  | opened _ _ _ ih =>
    rw [getLast?_cons_eq_semicolon_iff (by decide)] at hs ⊢
    exact ih hs

/-- A semicolon behind one at the end is joined to it. -/
theorem append_semicolon (h : SemicolonsJoined gap s r) (hs : s.getLast? = some ';') :
    SemicolonsJoined gap (s ++ [';']) r := by
  induction h with
  | nil => cases hs
  | code hq hc _ ih => exact .code hq hc (ih ((getLast?_cons_eq_semicolon_iff hc).mp hs))
  | @kept gap s r next h ih =>
    by_cases hnil : s = []
    · subst hnil
      cases h
      exact .dropped (by decide) (.kept next .nil)
    · rw [getLast?_semicolon_cons s hnil] at hs
      exact .kept ((semicolonNext_append_semicolon hs).trans next) (ih hs)
  | dropped next _ ih =>
    rw [getLast?_semicolon_cons _ (ne_nil_of_semicolonNext next)] at hs
    exact .dropped ((semicolonNext_append_semicolon hs).trans next) (ih hs)
  | blank hc next _ ih =>
    have hne := (isCalm_iff.mp (isCalm_of_isBlank hc)).2.1
    rw [getLast?_cons_eq_semicolon_iff hne] at hs
    exact .blank hc ((semicolonNext_append_semicolon hs).trans next) (ih hs)
  | literal hb _ ih =>
    rw [getLast?_literal_eq_semicolon_iff] at hs
    rw [List.cons_append, List.append_assoc, List.cons_append]
    exact .literal hb (ih hs)
  | opened hq hr _ ih =>
    rw [getLast?_cons_eq_semicolon_iff (by decide)] at hs
    exact .opened (by simp [hq]) hr (ih hs)

end SemicolonsJoined

theorem statement_append_semicolon (hx : IsStatement x) :
    statement (x ++ [';']) = trim (joinSemicolons false .code (x ++ [';'])) := by
  have lines : joinLines .code (x ++ [';']) = x ++ [';'] := by
    have := joinLines_eq_self_iff.mp hx.settled.lines
    rw [joinLines_eq_self_iff, pieces_append_code (by decide)]
    simp [this]
  rw [statement, lines]

/-- A statement with a semicolon behind is read as that statement, unless a quote in it takes the
semicolon in.  Then it has to end with a semicolon already. -/
theorem statements_semicolon_iff (hx : IsStatement x) :
    statements (x ++ [';']) = [x] ↔ Closed x ∨ x.getLast? = some ';' := by
  by_cases hc : Closed x
  · rw [statements_append_semicolon hx hc, statements_nil]
    simp [hc]
  have whole := undivided_append hx.settled.undivided hc (s := [';']) (by decide)
  have alone : statements (x ++ [';']) = [x] ↔ statement (x ++ [';']) = x := by
    rw [statements_of_undivided whole, filled_cons]
    split
    · simp [‹statement _ = _›, filled, hx.ne_nil.symm]
    · simp [filled]
  rw [alone, statement_append_semicolon hx, or_iff_right hc]
  constructor
  · intro h
    have last := (semicolonsJoined (x ++ [';'])).getLast?_eq (by simp)
    obtain ⟨a, b, hj, -, hb⟩ := exists_trim (joinSemicolons false .code (x ++ [';']))
    rw [hj, h] at last
    -- nothing was trimmed behind a semicolon
    have nothing : b = [] := by
      by_contra hne
      rw [List.getLast?_append_of_ne_nil _ (by simp [hne]), List.getLast?_append_of_ne_nil _ hne] at last
      exact absurd (hb _ (List.mem_of_getLast? last)) (by decide)
    rwa [nothing, List.append_nil, List.getLast?_append_of_ne_nil _ hx.ne_nil] at last
  · intro h
    have joined := (semicolonsJoined x).append_semicolon h
    rw [joined.eq, hx.settled.semicolons, hx.trimmed]

/-! ### Statements put together -/

theorem statements_intercalate (hx : ∀ x ∈ xs, IsStatement x)
    (hc : xs.Pairwise fun x _ => Closed x) : statements ([';'].intercalate xs) = xs := by
  induction xs with
  | nil => exact statements_nil
  | cons x xs ih =>
    rw [List.forall_mem_cons] at hx
    rw [List.pairwise_cons] at hc
    cases xs with
    | nil => rw [List.intercalate_singleton, statements_of_isStatement hx.1]
    | cons y xs =>
      rw [List.intercalate_cons_cons, List.append_assoc, List.singleton_append,
        statements_append_semicolon hx.1 (hc.1 y (by simp)), ih hx.2 hc.2]

/-- The texts, each with a semicolon and on a line of its own. -/
def onLines (xs : List (List Char)) : List Char := ['\n'].intercalate (xs.map (· ++ [';']))

theorem onLines_singleton (x : List Char) : onLines [x] = x ++ [';'] := List.intercalate_singleton

theorem onLines_cons_cons (x y : List Char) (xs : List (List Char)) :
    onLines (x :: y :: xs) = x ++ (';' :: '\n' :: onLines (y :: xs)) := by
  rw [onLines, List.map_cons, List.map_cons, List.intercalate_cons_cons, onLines, List.map_cons]
  simp

/-- Between lines stands a gap. -/
theorem onLines_eq (h : xs ≠ []) : onLines xs = [';', '\n'].intercalate xs ++ [';'] := by
  induction xs with
  | nil => exact absurd rfl h
  | cons x xs ih =>
    cases xs with
    | nil => rw [onLines_singleton, List.intercalate_singleton]
    | cons y xs =>
      rw [onLines_cons_cons, ih (List.cons_ne_nil _ _), List.intercalate_cons_cons]
      simp

theorem core_onLines (hc : xs.Pairwise fun x _ => Closed x) : core (onLines xs) = xs.flatMap core := by
  by_cases h : xs = []
  · subst h
    rfl
  · rw [onLines_eq h, core_append_gap (by decide), core_intercalate (by decide) hc]

theorem commentFree_onLines (hc : xs.Pairwise fun x _ => Closed x) :
    CommentFree (onLines xs) ↔ ∀ x ∈ xs, CommentFree x := by
  by_cases h : xs = []
  · subst h
    exact iff_of_true commentFree_nil nofun
  · rw [onLines_eq h, commentFree_append_gap (by decide),
      commentFree_intercalate (by decide) (by decide) hc]

/-- What stands on lines is read as it was written, if the last semicolon ends the last statement or
is joined to one that belongs to it. -/
theorem statements_onLines_iff (hx : ∀ x ∈ xs, IsStatement x)
    (hc : xs.Pairwise fun x _ => Closed x) :
    statements (onLines xs) = xs ↔ ∀ x ∈ xs.getLast?, Closed x ∨ x.getLast? = some ';' := by
  induction xs with
  | nil => exact iff_of_true statements_nil nofun
  | cons x xs ih =>
    rw [List.forall_mem_cons] at hx
    rw [List.pairwise_cons] at hc
    cases xs with
    | nil =>
      rw [onLines_singleton, statements_semicolon_iff hx.1]
      simp
    | cons y xs =>
      rw [onLines_cons_cons, statements_append_semicolon hx.1 (hc.1 y (by simp)), statements_newline,
        List.cons.injEq, and_iff_right rfl, ih hx.2 hc.2, List.getLast?_cons_cons]

/-! ### Cleaning up once more -/

theorem sheds_stripped (keep : Bool) (s : List Char) : Sheds s (stripped keep s) := by
  cases keep with
  | true => exact sheds_dropComments s
  | false => exact (sheds_dropComments s).trans (sheds_dropTransaction _)

theorem stripped_eq_self_iff {keep : Bool} : stripped keep s = s ↔
    CommentFree s ∧ (keep = false → dropTransaction s = s) := by
  cases keep with
  | true => simp [stripped, CommentFree]
  | false =>
    have comments := sheds_dropComments s
    have transaction := sheds_dropTransaction (dropComments .code s)
    constructor
    · intro h
      have heq : dropTransaction (dropComments .code s) = s := h
      have free : CommentFree s := by
        refine comments.eq_of_weight_eq (Nat.le_antisymm comments.le ?_)
        conv_lhs => rw [← heq]
        exact transaction.le
      exact ⟨free, fun _ => by rwa [free] at heq⟩
    · rintro ⟨free, h⟩
      rw [stripped, if_neg (by simp), free, h rfl]

/-- A text with the core of another has the same statements when nothing is taken from it and they
are cut from it as it stands. -/
theorem statements_stripped_iff (keep : Bool) (h : core s = core t) :
    statements (stripped keep s) = statements t ↔
      stripped keep s = s ∧ statements s = statements t := by
  constructor
  · intro heq
    have same : core (stripped keep s) = core s := by
      rw [← core_statements (stripped keep s), heq, core_statements, h]
    have kept := (sheds_stripped keep s).eq_of_weight_eq (weight_eq_of_core_eq same)
    rw [kept] at heq
    exact ⟨kept, heq⟩
  · rintro ⟨kept, heq⟩
    rw [kept, heq]

/-- Statements on lines are read again exactly when no comment opens in them and the last semicolon
is read as it was written. -/
theorem statements_stripped_onLines_iff (hx : ∀ x ∈ xs, IsStatement x)
    (hc : xs.Pairwise fun x _ => Closed x) : statements (stripped true (onLines xs)) = xs ↔
      (∀ x ∈ xs, CommentFree x) ∧ ∀ x ∈ xs.getLast?, Closed x ∨ x.getLast? = some ';' := by
  have same : core (onLines xs) = core ([';'].intercalate xs) :=
    (core_onLines hc).trans (core_intercalate (by decide) hc).symm
  have again := statements_stripped_iff true same
  rw [statements_intercalate hx hc] at again
  rw [again, stripped_eq_self_iff, commentFree_onLines hc, statements_onLines_iff hx hc]
  simp

theorem sanitize_inj {keep : Bool} {a b : String} : sanitize keep a = sanitize keep b ↔
    statements (stripped keep a.toList) = statements (stripped keep b.toList) := by
  rw [← map_toList_sanitize, ← map_toList_sanitize]
  exact (List.map_injective_iff.mpr fun _ _ => String.toList_inj.mp).eq_iff.symm

theorem toList_intercalate_sanitize (keep : Bool) (sql : String) :
    (";".intercalate (sanitize keep sql)).toList =
      [';'].intercalate (statements (stripped keep sql.toList)) := by
  rw [String.toList_intercalate, map_toList_sanitize]
  rfl

theorem toList_sql_ofText (sql : String) :
    (Script.ofText sql).sql.toList = onLines (statements (stripped true sql.toList)) := by
  have sep : "\n".toList = ['\n'] := rfl
  rw [Script.sql, String.toList_intercalate, sep, onLines, ← map_toList_sanitize, Script.ofText,
    List.map_map, List.map_map, List.map_map]
  refine congrArg _ (List.map_congr_left fun x _ => ?_)
  rw [Function.comp_apply, Function.comp_apply, Function.comp_apply, Statement.sql,
    String.toList_append]
  rfl

theorem map_mk_inj {as bs : List String} :
    as.map Statement.mk = bs.map Statement.mk ↔ as = bs :=
  (List.map_injective_iff.mpr fun _ _ => Statement.mk.inj).eq_iff

/-- A text is read as one statement, itself, from the text with a semicolon behind. -/
theorem statements_ofText_eq_singleton_iff {x : String} :
    (Script.ofText (x ++ ";")).statements = [⟨x⟩] ↔ IsStatement x.toList ∧ CommentFree x.toList ∧
      (Closed x.toList ∨ x.toList.getLast? = some ';') := by
  have text : (x ++ ";").toList = onLines [x.toList] := by
    rw [onLines_singleton, String.toList_append]
    rfl
  have same : (Script.ofText (x ++ ";")).statements = [⟨x⟩] ↔
      statements (stripped true (onLines [x.toList])) = [x.toList] := by
    rw [Script.ofText, ← List.map_singleton (f := Statement.mk), map_mk_inj, ← text,
      ← map_toList_sanitize, ← List.map_singleton (f := String.toList)]
    exact (List.map_injective_iff.mpr fun _ _ => String.toList_inj.mp).eq_iff.symm
  have alone (hx : IsStatement x.toList) : statements (stripped true (onLines [x.toList])) =
      [x.toList] ↔ CommentFree x.toList ∧ (Closed x.toList ∨ x.toList.getLast? = some ';') := by
    rw [statements_stripped_onLines_iff (List.forall_mem_singleton.mpr hx)
      (List.pairwise_singleton _ _), List.forall_mem_singleton]
    simp
  rw [same]
  constructor
  · intro h
    have hx : IsStatement x.toList := isStatement_of_mem (by rw [h]; simp)
    exact ⟨hx, (alone hx).mp h⟩
  · rintro ⟨hx, h⟩
    exact (alone hx).mpr h

/-- The statements of a text, with semicolons between them, are its statements again exactly when no
comment is left in the text without comments and, where the transaction goes, none is left in the
statements.  The script of a text is read again from its own text exactly when no comment is left and
the last statement ends outside literals or with a semicolon. -/
theorem sanitize_again_iff (sql : String) :
    (∀ keep, sanitize keep (";".intercalate (sanitize keep sql)) = sanitize keep sql ↔
      CommentFree (stripped keep sql.toList) ∧
        (keep = false → withoutTransaction (";".intercalate (sanitize keep sql)) =
          ";".intercalate (sanitize keep sql))) ∧
    (Script.ofText (Script.ofText sql).sql = Script.ofText sql ↔
      CommentFree (stripped true sql.toList) ∧
        ∀ x ∈ (sanitize true sql).getLast?,
          Even (x.toList.count '\'') ∨ x.toList.getLast? = some ';') := by
  constructor
  · intro keep
    have transaction (a : String) : withoutTransaction a = a ↔ dropTransaction a.toList = a.toList := by
      rw [withoutTransaction, ← String.toList_inj, String.toList_ofList]
    have text := toList_intercalate_sanitize keep sql
    have closed := closed_statements (stripped keep sql.toList)
    have free := (commentFree_intercalate (g := [';']) (by decide) (by decide) closed).trans
      (commentFree_statements _)
    have again := statements_intercalate (fun x hx => isStatement_of_mem hx) closed
    have same := (core_intercalate (g := [';']) (by decide) closed).trans (core_statements _)
    rw [sanitize_inj, transaction, text, statements_stripped_iff keep same, stripped_eq_self_iff, free,
      and_iff_left again]
  · have closed := closed_statements (stripped true sql.toList)
    have again := statements_stripped_onLines_iff (fun x hx => isStatement_of_mem hx) closed
    have script (a b : String) : Script.ofText a = Script.ofText b ↔
        sanitize true a = sanitize true b := by
      rw [Script.ofText, Script.ofText, Script.mk.injEq, map_mk_inj]
    rw [script, sanitize_inj, toList_sql_ofText, again, commentFree_statements, ← map_toList_sanitize,
      List.getLast?_map]
    simp [Closed]

/-- Taking away the comment joins the two minus signs to another, the inner transaction comes to
stand outside, and the literal takes in the semicolon of its statement. -/
theorem sanitize_again_ne :
    sanitize true (";".intercalate (sanitize true "-/**/- x")) ≠ sanitize true "-/**/- x" ∧
      sanitize false (";".intercalate (sanitize false "BEGIN; BEGIN; a")) ≠
        sanitize false "BEGIN; BEGIN; a" ∧
      Script.ofText (Script.ofText "a'b").sql ≠ Script.ofText "a'b" := by
  decide +kernel

end EtlFlow.Sql
