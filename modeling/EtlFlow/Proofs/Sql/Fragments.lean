import EtlFlow.Proofs.Sql.Stages
/-!
# The fragments of a text

A text is cut at the semicolons between its literals, so that all fragments but the last are closed
and none of them is cut again (`IsSplit`).  Joining lines changes every fragment by itself
(`fragments_joinLines`).  Joining semicolons also takes away fragments, but no more than the blank
ones (`SemicolonsJoined.fragments_eq`), so the statements of a text are its fragments, each cleaned by
itself (`statements_eq`).
-/

namespace EtlFlow.Sql

open Text (isBlank trimStart trimEnd trim exists_trim trim_blanks)

variable {b body f g r s x : List Char} {fs : List (List Char)} {c : Char}

/-! ### Cutting piece by piece -/

theorem exists_fragments (s : List Char) : ∃ f fs, fragments false s = f :: fs :=
  List.exists_cons_of_ne_nil (fragments_ne_nil false s)

theorem fragments_semicolon (s : List Char) : fragments false (';' :: s) = [] :: fragments false s := by
  rw [fragments, if_pos ⟨rfl, rfl⟩]

theorem fragments_behindQuote (hb : '\'' ∉ body) (h : fragments false s = f :: fs) :
    fragments true (body ++ '\'' :: s) = (body ++ '\'' :: f) :: fs := by
  induction body with
  | nil => rw [List.nil_append, fragments, if_neg (by simp), if_pos rfl, Bool.not_true, h]; rfl
  | cons c body ih =>
    rw [List.mem_cons, not_or] at hb
    rw [List.cons_append, fragments, if_neg (by simp), if_neg (Ne.symm hb.1), ih hb.2]
    rfl

theorem fragments_literal (hb : '\'' ∉ body) (h : fragments false s = f :: fs) :
    fragments false ('\'' :: (body ++ '\'' :: s)) = ('\'' :: (body ++ '\'' :: f)) :: fs := by
  rw [fragments, if_neg (by simp), if_pos rfl, Bool.not_false, fragments_behindQuote hb h]

theorem fragments_opened (hs : '\'' ∉ s) : fragments false ('\'' :: s) = ['\'' :: s] := by
  have quoted : fragments true s = [s] := by
    induction s with
    | nil => rfl
    | cons c s ih =>
      rw [List.mem_cons, not_or] at hs
      rw [fragments, if_neg (by simp), if_neg (Ne.symm hs.1), ih hs.2]
  rw [fragments, if_neg (by simp), if_pos rfl, Bool.not_false, quoted]

/-! ### Undivided texts -/

/-- The text is one fragment. -/
def Undivided (s : List Char) : Prop := fragments false s = [s]

instance (s : List Char) : Decidable (Undivided s) := inferInstanceAs (Decidable (_ = _))

theorem undivided_nil : Undivided [] := rfl

theorem undivided_cons (hq : c ≠ '\'') : Undivided (c :: s) ↔ c ≠ ';' ∧ Undivided s := by
  by_cases hc : c = ';'
  · subst hc
    simp [Undivided, fragments_semicolon]
  · obtain ⟨f, fs, h⟩ := exists_fragments s
    simp [Undivided, fragments_cons hq hc h, h, hc]

theorem undivided_literal (hb : '\'' ∉ body) :
    Undivided ('\'' :: (body ++ '\'' :: s)) ↔ Undivided s := by
  obtain ⟨f, fs, h⟩ := exists_fragments s
  simp [Undivided, fragments_literal hb h, h]

theorem undivided_opened (hs : '\'' ∉ s) : Undivided ('\'' :: s) := fragments_opened hs

/-- A closed text is one fragment when no semicolon stands between its literals. -/
theorem undivided_iff (hs : Closed s) : Undivided s ↔ .code ';' ∉ pieces s := by
  induction s using induction_on_pieces with
  | nil => simp [undivided_nil]
  | code c s hc ih =>
    rw [closed_cons hc] at hs
    rw [undivided_cons hc, pieces_cons hc, List.mem_cons, not_or, ih hs, Piece.code.injEq, ne_comm]
  | literal body s hb ih =>
    rw [closed_literal hb] at hs
    rw [undivided_literal hb, pieces_literal hb, List.mem_cons, not_or, ih hs,
      and_iff_right (by simp)]
  | opened s hs' => exact absurd hs (not_closed_opened hs')

/-- A text that holds neither quotes nor semicolons. -/
def IsPlainCode (b : List Char) : Prop := ∀ c ∈ b, c ≠ '\'' ∧ c ≠ ';'

instance (b : List Char) : Decidable (IsPlainCode b) :=
  decidableForallMemText (fun c => c ≠ '\'' ∧ c ≠ ';') b

theorem IsPlainCode.not_mem (hb : IsPlainCode b) : '\'' ∉ b := fun h => (hb _ h).1 rfl

theorem isPlainCode_of_isCalm (hb : ∀ c ∈ b, isCalm c) : IsPlainCode b := fun c hc =>
  have calm := isCalm_iff.mp (hb c hc)
  ⟨calm.1, calm.2.1⟩

theorem isPlainCode_blanks (hb : ∀ c ∈ b, isBlank c) : IsPlainCode b :=
  isPlainCode_of_isCalm fun c hc => isCalm_of_isBlank (hb c hc)

theorem undivided_append_left (hb : IsPlainCode b) : Undivided (b ++ s) ↔ Undivided s := by
  induction b with
  | nil => rfl
  | cons c b ih =>
    obtain ⟨hc, hb⟩ := List.forall_mem_cons.mp hb
    rw [List.cons_append, undivided_cons hc.1, ih hb, and_iff_right hc.2]

theorem undivided_append_right (hb : IsPlainCode b) : Undivided (s ++ b) ↔ Undivided s := by
  induction s using induction_on_pieces with
  | nil =>
    have := undivided_append_left (s := []) hb
    rwa [List.append_nil] at this
  | code c s hc ih => rw [List.cons_append, undivided_cons hc, undivided_cons hc, ih]
  | literal body s hbody ih =>
    rw [List.cons_append, List.append_assoc, List.cons_append, undivided_literal hbody,
      undivided_literal hbody, ih]
  | opened s hs =>
    have hsb : '\'' ∉ s ++ b := by simp [hs, hb.not_mem]
    exact iff_of_true (undivided_opened hsb) (undivided_opened hs)

theorem undivided_trim : Undivided (trim s) ↔ Undivided s := by
  obtain ⟨a, b, h, ha, hb⟩ := exists_trim s
  conv_rhs => rw [h]
  rw [undivided_append_left (isPlainCode_blanks ha), undivided_append_right (isPlainCode_blanks hb)]

/-- In an undivided text there is no gap to drop, unless behind a quote that nothing closes. -/
theorem SemicolonsJoined.undivided (h : SemicolonsJoined false s r) (hs : Undivided s) :
    Undivided r := by
  generalize hgap : false = gap at h
  induction h with
  | nil => exact undivided_nil
  | code hc hcs _ ih =>
    rw [undivided_cons hc] at hs ⊢
    exact ⟨hcs, ih hs.2 rfl⟩
  | kept | dropped =>
    rw [undivided_cons (by decide)] at hs
    exact absurd rfl hs.1
  | blank => cases hgap
  | literal hb _ ih =>
    rw [undivided_literal hb] at hs ⊢
    exact ih hs rfl
  | opened _ hr => exact undivided_opened hr

/-! ### Splits -/

/-- The parts are undivided, and all but the last are closed. -/
structure IsSplit (fs : List (List Char)) : Prop where
  closed : fs.Pairwise fun f _ => Closed f
  undivided : ∀ f ∈ fs, Undivided f

theorem isSplit_cons : IsSplit (f :: fs) ↔ ((fs ≠ [] → Closed f) ∧ Undivided f) ∧ IsSplit fs := by
  have front : (∀ g ∈ fs, Closed f) ↔ (fs ≠ [] → Closed f) :=
    ⟨fun h hfs => h _ (List.head_mem hfs), fun h _ hg => h (List.ne_nil_of_mem hg)⟩
  constructor
  · rintro ⟨hc, hu⟩
    rw [List.pairwise_cons, front] at hc
    rw [List.forall_mem_cons] at hu
    exact ⟨⟨hc.1, hu.1⟩, hc.2, hu.2⟩
  · rintro ⟨⟨hc, hu⟩, h⟩
    exact ⟨List.pairwise_cons.mpr ⟨front.mpr hc, h.closed⟩, List.forall_mem_cons.mpr ⟨hu, h.undivided⟩⟩

theorem isSplit_fragments (s : List Char) : IsSplit (fragments false s) := by
  have alone {f : List Char} (h : Undivided f) : IsSplit [f] :=
    ⟨List.pairwise_singleton _ _, by simpa using h⟩
  induction s using induction_on_pieces with
  | nil => exact alone undivided_nil
  | code c s hc ih =>
    by_cases hs : c = ';'
    · subst hs
      rw [fragments_semicolon, isSplit_cons]
      exact ⟨⟨fun _ => closed_nil, undivided_nil⟩, ih⟩
    · obtain ⟨f, fs, h⟩ := exists_fragments s
      rw [h, isSplit_cons] at ih
      rw [fragments_cons hc hs h, isSplit_cons, closed_cons hc, undivided_cons hc]
      exact ⟨⟨ih.1.1, hs, ih.1.2⟩, ih.2⟩
  | literal body s hb ih =>
    obtain ⟨f, fs, h⟩ := exists_fragments s
    rw [h, isSplit_cons] at ih
    rw [fragments_literal hb h, isSplit_cons, closed_literal hb, undivided_literal hb]
    exact ih
  | opened s hs =>
    rw [fragments_opened hs]
    exact alone (undivided_opened hs)

/-- The fragments are cut at semicolons. -/
theorem intercalate_fragments (s : List Char) : [';'].intercalate (fragments false s) = s := by
  have longer (u f : List Char) (fs : List (List Char)) :
      [';'].intercalate ((u ++ f) :: fs) = u ++ [';'].intercalate (f :: fs) := by
    cases fs <;> simp [List.intercalate]
  induction s using induction_on_pieces with
  | nil => rfl
  | code c s hc ih =>
    obtain ⟨f, fs, h⟩ := exists_fragments s
    rw [h] at ih
    by_cases hs : c = ';'
    · subst hs
      rw [fragments_semicolon, h, List.intercalate_cons_cons, ih, List.nil_append, List.singleton_append]
    · have front : c :: f = [c] ++ f := rfl
      rw [fragments_cons hc hs h, front, longer, ih, List.singleton_append]
  | literal body s hb ih =>
    obtain ⟨f, fs, h⟩ := exists_fragments s
    rw [h] at ih
    have front (u : List Char) : '\'' :: (body ++ '\'' :: u) = ('\'' :: body ++ ['\'']) ++ u := by
      simp
    rw [fragments_literal hb h, front, longer, ih, front]
  | opened s hs => rw [fragments_opened hs, List.intercalate_singleton]

/-- A closed text without semicolons is the first fragment of what a semicolon parts from it. -/
theorem fragments_append_semicolon (hx : Undivided x) (hc : Closed x) (s : List Char) :
    fragments false (x ++ ';' :: s) = x :: fragments false s := by
  induction x using induction_on_pieces with
  | nil => exact fragments_semicolon s
  | code c x hq ih =>
    rw [undivided_cons hq] at hx
    rw [closed_cons hq] at hc
    exact fragments_cons hq hx.1 (ih hx.2 hc)
  | literal body x hb ih =>
    rw [undivided_literal hb] at hx
    rw [closed_literal hb] at hc
    rw [List.cons_append, List.append_assoc, List.cons_append]
    exact fragments_literal hb (ih hx hc)
  | opened x hx' => exact absurd hc (not_closed_opened hx')

/-- Behind a quote that nothing closes, what holds no quote belongs to the same fragment. -/
theorem undivided_append (hx : Undivided x) (hc : ¬Closed x) (hs : '\'' ∉ s) : Undivided (x ++ s) := by
  induction x using induction_on_pieces with
  | nil => exact absurd closed_nil hc
  | code c x hq ih =>
    rw [undivided_cons hq] at hx
    rw [closed_cons hq] at hc
    rw [List.cons_append, undivided_cons hq]
    exact ⟨hx.1, ih hx.2 hc⟩
  | literal body x hb ih =>
    rw [undivided_literal hb] at hx
    rw [closed_literal hb] at hc
    rw [List.cons_append, List.append_assoc, List.cons_append, undivided_literal hb]
    exact ih hx hc
  | opened x hx' =>
    rw [List.cons_append]
    exact undivided_opened (by simp [hx', hs])

theorem core_intercalate (hg : IsGap g) (h : fs.Pairwise fun f _ => Closed f) :
    core (g.intercalate fs) = fs.flatMap core := by
  induction fs with
  | nil => rfl
  | cons f fs ih =>
    rw [List.pairwise_cons] at h
    cases fs with
    | nil => simp
    | cons k fs =>
      rw [List.intercalate_cons_cons, List.append_assoc, core_append (h.1 k (by simp)),
        core_gap_append hg, ih h.2, List.flatMap_cons (x := f)]

theorem commentFree_intercalate (hg : IsGap g) (hne : g ≠ []) (h : fs.Pairwise fun f _ => Closed f) :
    CommentFree (g.intercalate fs) ↔ ∀ f ∈ fs, CommentFree f := by
  induction fs with
  | nil => exact iff_of_true commentFree_nil nofun
  | cons f fs ih =>
    rw [List.pairwise_cons] at h
    cases fs with
    | nil => simp
    | cons k fs =>
      rw [List.intercalate_cons_cons, List.append_assoc,
        commentFree_append (.inl (h.1 k (by simp))) (sameSign_gap hg hne _),
        commentFree_gap_append hg, ih h.2, List.forall_mem_cons (a := f)]

/-! ### Joining lines and semicolons -/

theorem fragments_joinLines (s : List Char) :
    fragments false (joinLines .code s) = (fragments false s).map (joinLines .code) := by
  have h := linesJoined s
  generalize joinLines .code s = r at h
  induction h with
  | nil => simp [joinLines, fragments]
  | @code c s r hc hn hr _ ih =>
    obtain ⟨f, fs, h⟩ := exists_fragments s
    rw [h, List.map_cons] at ih
    by_cases hs : c = ';'
    · subst hs
      rw [fragments_semicolon, fragments_semicolon, ih, h, List.map_cons, List.map_cons]
      simp [joinLines]
    · have head : f.head? = some '\n' → s.head? = some '\n' := by
        rw [← intercalate_fragments s, h]
        cases f with
        | nil => simp
        | cons d f => cases fs <;> simp [List.intercalate]
      rw [fragments_cons hc hs ih, fragments_cons hc hs h, List.map_cons,
        joinLines_cons hc hn fun hcr hf => hr hcr (head hf)]
  | @newline s r _ ih =>
    obtain ⟨f, fs, h⟩ := exists_fragments s
    rw [h, List.map_cons] at ih
    rw [fragments_cons (by decide) (by decide) ih, fragments_cons (by decide) (by decide) h,
      List.map_cons]
    simp [joinLines]
  | @carriage s r _ ih =>
    obtain ⟨f, fs, h⟩ := exists_fragments s
    have one := fragments_cons (c := '\n') (by decide) (by decide) h
    have two := fragments_cons (c := '\r') (by decide) (by decide) one
    rw [ih, one, two, List.map_cons, List.map_cons]
    simp [joinLines]
  | @literal body s r hb _ ih =>
    obtain ⟨f, fs, h⟩ := exists_fragments s
    rw [h, List.map_cons] at ih
    rw [fragments_literal hb ih, fragments_literal hb h, List.map_cons,
      keepsLiterals_joinLines.literal hb]
  | @opened s r hs hr h =>
    rw [fragments_opened hr, fragments_opened hs, List.map_singleton,
      keepsLiterals_joinLines.opened hs, h.eq]

theorem undivided_joinLines (hs : Undivided s) : Undivided (joinLines .code s) := by
  rw [Undivided, fragments_joinLines, hs, List.map_singleton]

theorem semicolonNext_append (hb : IsPlainCode b) (s : List Char) :
    semicolonNext (s ++ b) = semicolonNext s := by
  induction s with
  | nil =>
    induction b with
    | nil => rfl
    | cons c b ih =>
      obtain ⟨hc, hb⟩ := List.forall_mem_cons.mp hb
      rw [List.nil_append] at ih ⊢
      rw [semicolonNext_cons, ih hb]
      simp [hc.2, semicolonNext, trimStart]
  | cons c s ih => rw [List.cons_append, semicolonNext_cons, semicolonNext_cons, ih]

theorem joinSemicolons_plain (hb : IsPlainCode b) : joinSemicolons false .code b = b := by
  induction b with
  | nil => simp [joinSemicolons]
  | cons c b ih =>
    obtain ⟨hc, hb⟩ := List.forall_mem_cons.mp hb
    rw [joinSemicolons_cons hc.1 hc.2, ih hb]

/-- Before a semicolon that comes next, the first fragment is blank. -/
theorem isBlank_of_semicolonNext (h : semicolonNext s = true) (hf : fragments false s = f :: fs) :
    ∀ c ∈ f, isBlank c := by
  induction s generalizing f with
  | nil => simp [semicolonNext, trimStart] at h
  | cons c s ih =>
    rw [semicolonNext_cons] at h
    split at h
    · obtain ⟨hq, hs, -⟩ := isCalm_iff.mp (isCalm_of_isBlank ‹_›)
      obtain ⟨g, gs, hg⟩ := exists_fragments s
      rw [fragments_cons hq hs hg, List.cons.injEq] at hf
      obtain ⟨rfl, rfl⟩ := hf
      exact List.forall_mem_cons.mpr ⟨‹_›, ih h hg⟩
    · obtain rfl : c = ';' := by simpa using h
      rw [fragments_semicolon, List.cons.injEq] at hf
      rw [← hf.1]
      exact List.forall_mem_nil _

/-- The texts that are not empty. -/
def filled (fs : List (List Char)) : List (List Char) := fs.filter (· ≠ [])

theorem filled_cons (f : List Char) (fs : List (List Char)) :
    filled (f :: fs) = if f = [] then filled fs else f :: filled fs := by
  by_cases hf : f = [] <;> simp [filled, hf]

/-- The first fragment of a text whose semicolons are joined is that of the text with its semicolons
joined, or nothing in a gap.  Behind it no fragment is lost but blank ones. -/
theorem SemicolonsJoined.fragments_eq {gap : Bool} (h : SemicolonsJoined gap s r)
    (hf : fragments false s = f :: fs) :
    ∃ gs, fragments false r = (if gap then [] else joinSemicolons false .code f) :: gs ∧
      filled (gs.map trim) = filled (fs.map fun f => trim (joinSemicolons false .code f)) := by
  induction h generalizing f fs with
  | nil =>
    cases hf
    exact ⟨[], by simp [joinSemicolons, fragments], rfl⟩
  | @code c s r hc hcs _ ih =>
    obtain ⟨g, gs, hg⟩ := exists_fragments s
    rw [fragments_cons hc hcs hg, List.cons.injEq] at hf
    obtain ⟨rfl, rfl⟩ := hf
    obtain ⟨hs, hr, e⟩ := ih hg
    refine ⟨hs, ?_, e⟩
    rw [fragments_cons hc hcs hr, if_neg (by simp), if_neg (by simp), joinSemicolons_cons hc hcs]
  | @kept gap s r _ _ ih =>
    obtain ⟨g, gs, hg⟩ := exists_fragments s
    rw [fragments_semicolon, hg, List.cons.injEq] at hf
    obtain ⟨rfl, rfl⟩ := hf
    obtain ⟨hs, hr, e⟩ := ih hg
    refine ⟨joinSemicolons false .code g :: hs, ?_, ?_⟩
    · rw [fragments_semicolon, hr]
      simp [joinSemicolons]
    · rw [List.map_cons, filled_cons, e, List.map_cons, filled_cons]
  | @dropped gap s r next _ ih =>
    obtain ⟨g, gs, hg⟩ := exists_fragments s
    rw [fragments_semicolon, hg, List.cons.injEq] at hf
    obtain ⟨rfl, rfl⟩ := hf
    obtain ⟨hs, hr, e⟩ := ih hg
    have blank := isBlank_of_semicolonNext next hg
    refine ⟨hs, ?_, ?_⟩
    · rw [hr]
      simp [joinSemicolons]
    · rw [e, List.map_cons, filled_cons, if_pos]
      rw [joinSemicolons_plain (isPlainCode_blanks blank), trim_blanks blank]
  | @blank c s r hc next _ ih =>
    obtain ⟨hq, hcs, -⟩ := isCalm_iff.mp (isCalm_of_isBlank hc)
    obtain ⟨g, gs, hg⟩ := exists_fragments s
    rw [fragments_cons hq hcs hg, List.cons.injEq] at hf
    obtain ⟨rfl, rfl⟩ := hf
    obtain ⟨hs, hr, e⟩ := ih hg
    exact ⟨hs, by rw [hr, if_pos rfl, if_pos rfl], e⟩
  | @literal body s r hb _ ih =>
    obtain ⟨g, gs, hg⟩ := exists_fragments s
    rw [fragments_literal hb hg, List.cons.injEq] at hf
    obtain ⟨rfl, rfl⟩ := hf
    obtain ⟨hs, hr, e⟩ := ih hg
    refine ⟨hs, ?_, e⟩
    rw [fragments_literal hb hr, if_neg (by simp), if_neg (by simp),
      keepsLiterals_joinSemicolons.literal hb]
  | @opened s r hs hr h =>
    rw [fragments_opened hs, List.cons.injEq] at hf
    obtain ⟨rfl, rfl⟩ := hf
    rw [← h.eq] at hr ⊢
    refine ⟨[], ?_, rfl⟩
    rw [fragments_opened hr, if_neg (by simp), keepsLiterals_joinSemicolons.opened hs]

/-! ### Statements -/

/-- The statements of a text without comments. -/
def statements (s : List Char) : List (List Char) :=
  splitStatements (dropEmptyStatements (joinLines .code s))

/-- The statement in a fragment of a text. -/
def statement (f : List Char) : List Char := trim (joinSemicolons false .code (joinLines .code f))

/-- The text without comments, and without its outer transaction unless that stays. -/
def stripped (keep : Bool) (s : List Char) : List Char :=
  if keep then dropComments .code s else dropTransaction (dropComments .code s)

theorem sanitize_eq (keep : Bool) (sql : String) :
    sanitize keep sql = (statements (stripped keep sql.toList)).map String.ofList := rfl

theorem map_toList_sanitize (keep : Bool) (sql : String) :
    (sanitize keep sql).map String.toList = statements (stripped keep sql.toList) := by
  rw [sanitize_eq, List.map_map]
  exact (List.map_congr_left fun _ _ => String.toList_ofList).trans (List.map_id _)

/-- Blanks and semicolons in front make no statement. -/
theorem splitStatements_cons (hc : isBlank c = true ∨ c = ';') (s : List Char) :
    splitStatements (c :: s) = splitStatements s := by
  rcases hc with hc | rfl
  · obtain ⟨hq, hs, -⟩ := isCalm_iff.mp (isCalm_of_isBlank hc)
    obtain ⟨f, fs, h⟩ := exists_fragments s
    have same : trim (c :: f) = trim f := by
      rw [trim, trimStart, List.dropWhile_cons_of_pos hc]
      rfl
    rw [splitStatements, fragments_cons hq hs h, List.map_cons, same, splitStatements, h,
      List.map_cons]
  · rw [splitStatements, fragments_semicolon, List.map_cons]
    rfl

theorem splitStatements_dropWhile {p : Char → Bool}
    (hp : ∀ c, p c = true → isBlank c = true ∨ c = ';') (s : List Char) :
    splitStatements (s.dropWhile p) = splitStatements s := by
  induction s with
  | nil => rfl
  | cons c s ih =>
    rw [List.dropWhile_cons]
    split
    · rw [ih, splitStatements_cons (hp c ‹_›)]
    · rfl

/-- The statements of a text are its fragments, cleaned one by one. -/
theorem statements_eq (s : List Char) :
    statements s = filled ((fragments false s).map statement) := by
  obtain ⟨f, fs, h⟩ := exists_fragments (joinLines .code s)
  obtain ⟨gs, hj, e⟩ := (semicolonsJoined _).fragments_eq h
  have lines : (fragments false s).map statement =
      (f :: fs).map fun f => trim (joinSemicolons false .code f) := by
    rw [← h, fragments_joinLines, List.map_map]
    rfl
  rw [statements, dropEmptyStatements, trimStart, splitStatements_dropWhile (by simp),
    splitStatements_dropWhile (fun c hc => .inl hc), splitStatements, hj, lines, ← filled,
    List.map_cons, List.map_cons, filled_cons, filled_cons, e]
  rfl

end EtlFlow.Sql
