import EtlFlow.Proofs.Sql.Command
/-!
# The outer transaction, taken from the text or from the statements

The outer transaction goes before a script is cut into statements, and only where its `BEGIN` is the
very first text and its `COMMIT` the very last.  Taken from the statements, a `BEGIN` at the front that
a semicolon ends and a `COMMIT` at the end would go as well with empty statements around them.  What
the text loses at its end is one statement, the end of an open literal or nothing
(`statements_dropFinalCommit_cases`), so both ways agree exactly when no empty statement stands in front
of the `BEGIN`, no second semicolon behind the `COMMIT`, and no `COMMIT` ends an open literal
(`sanitize_eq_unwrapped_iff`).
-/

namespace EtlFlow.Sql

open Text (isBlank)

variable {f r s t u v w x : List Char}

/-! ### Cutting at a semicolon -/

theorem undivided_of_isPlainCode (hf : IsPlainCode f) : Undivided f := by
  have h := undivided_append_right (s := []) hf
  exact h.mpr undivided_nil

theorem fragments_append_of_closed (hu : Closed u) (v : List Char) :
    fragments false (u ++ ';' :: v) = fragments false u ++ fragments false v := by
  induction u using induction_on_pieces with
  | nil => exact fragments_semicolon v
  | code c u hc ih =>
    rw [closed_cons hc] at hu
    by_cases hs : c = ';'
    · subst hs
      rw [List.cons_append, fragments_semicolon, fragments_semicolon, ih hu, List.cons_append]
    · obtain ⟨f, fs, h⟩ := exists_fragments u
      have front : fragments false (u ++ ';' :: v) = f :: (fs ++ fragments false v) := by
        rw [ih hu, h, List.cons_append]
      rw [List.cons_append, fragments_cons hc hs front, fragments_cons hc hs h, List.cons_append]
  | literal body u hb ih =>
    rw [closed_literal hb] at hu
    obtain ⟨f, fs, h⟩ := exists_fragments u
    have front : fragments false (u ++ ';' :: v) = f :: (fs ++ fragments false v) := by
      rw [ih hu, h, List.cons_append]
    rw [List.cons_append, List.append_assoc, List.cons_append, fragments_literal hb front,
      fragments_literal hb h, List.cons_append]
  | opened u hq => exact absurd hu (not_closed_opened hq)

/-- In an open text the last fragment holds the open quote, and goes on with the text. -/
theorem exists_fragments_open (hu : ¬Closed u) : ∃ gs k, '\'' ∈ k ∧
    ∀ w, '\'' ∉ w → fragments false (u ++ w) = gs ++ [k ++ w] := by
  induction u using induction_on_pieces with
  | nil => exact absurd closed_nil hu
  | code c u hc ih =>
    rw [closed_cons hc] at hu
    obtain ⟨gs, k, hk, h⟩ := ih hu
    by_cases hs : c = ';'
    · subst hs
      refine ⟨[] :: gs, k, hk, fun w hw => ?_⟩
      rw [List.cons_append, fragments_semicolon, h w hw, List.cons_append]
    · cases gs with
      | nil =>
        refine ⟨[], c :: k, List.mem_cons_of_mem _ hk, fun w hw => ?_⟩
        exact fragments_cons hc hs (h w hw)
      | cons g gs =>
        refine ⟨(c :: g) :: gs, k, hk, fun w hw => ?_⟩
        exact fragments_cons hc hs (h w hw)
  | literal body u hb ih =>
    rw [closed_literal hb] at hu
    obtain ⟨gs, k, hk, h⟩ := ih hu
    cases gs with
    | nil =>
      refine ⟨[], '\'' :: (body ++ '\'' :: k), List.mem_cons_self, fun w hw => ?_⟩
      rw [List.cons_append, List.append_assoc, List.cons_append, fragments_literal hb (h w hw)]
      simp
    | cons g gs =>
      refine ⟨('\'' :: (body ++ '\'' :: g)) :: gs, k, hk, fun w hw => ?_⟩
      rw [List.cons_append, List.append_assoc, List.cons_append, fragments_literal hb (h w hw)]
      rfl
  | opened u hq =>
    refine ⟨[], '\'' :: u, List.mem_cons_self, fun w hw => ?_⟩
    exact fragments_opened (by simp [hq, hw])

theorem filled_append (fs gs : List (List Char)) : filled (fs ++ gs) = filled fs ++ filled gs :=
  List.filter_append ..

theorem statements_append_of_closed (hu : Closed u) (v : List Char) :
    statements (u ++ ';' :: v) = statements u ++ statements v := by
  rw [statements_eq, fragments_append_of_closed hu, List.map_append, filled_append, ← statements_eq,
    ← statements_eq]

theorem statements_semicolon (s : List Char) : statements (';' :: s) = statements s :=
  statements_append_of_closed closed_nil s

/-- Whatever holds no quote stays within the last statement of an open text. -/
theorem exists_statements_open (hu : ¬Closed u) : ∃ xs k, '\'' ∈ k ∧
    ∀ w, '\'' ∉ w → statements (u ++ w) = xs ++ [statement (k ++ w)] := by
  obtain ⟨gs, k, hk, h⟩ := exists_fragments_open hu
  refine ⟨filled (gs.map statement), k, hk, fun w hw => ?_⟩
  have full : statement (k ++ w) ≠ [] := by
    have quote : '\'' ∈ statement (k ++ w) := quote_mem_statement.mpr (List.mem_append_left _ hk)
    exact List.ne_nil_of_mem quote
  rw [statements_eq, h w hw, List.map_append, filled_append, List.map_singleton, filled_cons,
    if_neg full]
  rfl

/-! ### The closing commit -/

/-- The text ends with a semicolon and `COMMIT`, where the text is stripped. -/
def EndsInCommit (t : List Char) : Prop := ∃ v, (';' :: v) <:+ t ∧ isCommit v

theorem dropFinalCommit_cases (s : List Char) :
    (∃ u v, s = u ++ ';' :: v ∧ isCommit v ∧ dropFinalCommit s = u ++ [';']) ∨
      ¬EndsInCommit s ∧ dropFinalCommit s = s := by
  induction s with
  | nil =>
    refine .inr ⟨?_, rfl⟩
    rintro ⟨v, h, -⟩
    cases List.suffix_nil.mp h
  | cons c s ih =>
    rw [dropFinalCommit]
    by_cases hc : c = ';' ∧ isCommit s
    · rw [if_pos hc, hc.1]
      exact .inl ⟨[], s, rfl, hc.2, rfl⟩
    · rw [if_neg hc]
      obtain ⟨u, v, rfl, hv, h⟩ | ⟨hs, h⟩ := ih
      · exact .inl ⟨c :: u, v, rfl, hv, by rw [h, List.cons_append]⟩
      · refine .inr ⟨?_, by rw [h]⟩
        rintro ⟨v, hsuffix, hv⟩
        rcases List.suffix_cons_iff.mp hsuffix with heq | hsuffix
        · cases heq
          exact hc ⟨rfl, hv⟩
        · exact hs ⟨v, hsuffix, hv⟩

/-- Nothing but blanks stands in the fragment. -/
def isVoid (f : List Char) : Bool := f.all isBlank

theorem isVoid_iff : isVoid f = true ↔ ∀ c ∈ f, isBlank c := List.all_eq_true

theorem statement_eq_nil_iff_isVoid (hf : Undivided f) : statement f = [] ↔ isVoid f = true :=
  (statement_eq_nil_iff hf).trans isVoid_iff.symm

theorem filled_solid (hf : Undivided f) (solid : ¬isVoid f) (fs : List (List Char)) :
    filled (statement f :: fs) = statement f :: filled fs := by
  rw [filled_cons, if_neg (mt (statement_eq_nil_iff_isVoid hf).mp solid)]

theorem filled_void {fs : List (List Char)} (hf : ∀ f ∈ fs, Undivided f ∧ isVoid f) :
    filled (fs.map statement) = [] := by
  rw [filled, List.filter_eq_nil_iff, List.forall_mem_map]
  intro f hmem
  obtain ⟨undivided, void⟩ := hf f hmem
  have none := (statement_eq_nil_iff_isVoid undivided).mpr void
  simp [none]

/-- The last statement is `COMMIT`. -/
def EndsWithCommit (xs : List (List Char)) : Prop := ∃ x ∈ xs.getLast?, ClosesTransaction x

instance (xs : List (List Char)) : Decidable (EndsWithCommit xs) :=
  inferInstanceAs (Decidable (∃ x ∈ xs.getLast?, _))

/-- The number of empty statements at the end. -/
def emptyBehind (t : List Char) : Nat :=
  ((fragments false t).reverse.takeWhile isVoid).length

/-- The statements without a `COMMIT` at their end. -/
def withoutClosing (xs : List (List Char)) : List (List Char) :=
  if EndsWithCommit xs then xs.dropLast else xs

theorem quote_not_mem_of_isCommit (h : isCommit v) : '\'' ∉ v := by
  obtain ⟨w, hw, rfl | ⟨b, hb, rfl⟩⟩ := isCommit_iff.mp h
  · exact (isPlainCode_of_commandWords hw.arePlain).not_mem
  · simp [(isPlainCode_of_commandWords hw.arePlain).not_mem, (isPlainCode_blanks hb).not_mem]

theorem ClosesTransaction.fragments (hw : ClosesTransaction w) : Undivided w ∧ Closed w ∧
    ¬isVoid w := by
  have plain := isPlainCode_of_commandWords hw.arePlain
  refine ⟨undivided_of_isPlainCode plain, closed_of_not_mem plain.not_mem, ?_⟩
  rw [isVoid_iff, ← commandWords_eq_nil_iff, hw]
  exact List.cons_ne_nil _ _

theorem fragments_of_isCommit (h : isCommit v) : ∃ w, ClosesTransaction w ∧
    (fragments false v = [w] ∨ ∃ b, (∀ c ∈ b, isBlank c) ∧ fragments false v = [w, b]) := by
  obtain ⟨w, hw, hv⟩ := isCommit_iff.mp h
  obtain ⟨undivided, closed, -⟩ := hw.fragments
  refine ⟨w, hw, hv.imp (fun hv => by rw [hv, undivided]) ?_⟩
  rintro ⟨b, hb, rfl⟩
  refine ⟨b, hb, ?_⟩
  rw [fragments_append_semicolon undivided closed, undivided_of_isPlainCode (isPlainCode_blanks hb)]

theorem statements_of_isCommit (h : isCommit v) : ∃ x, statements v = [x] ∧ ClosesTransaction x := by
  obtain ⟨w, hw, hv⟩ := fragments_of_isCommit h
  obtain ⟨undivided, -, solid⟩ := hw.fragments
  refine ⟨statement w, ?_, (closesTransaction_statement_iff undivided).mpr hw⟩
  rcases hv with hv | ⟨b, hb, hv⟩
  · rw [statements_eq, hv, List.map_singleton, filled_solid undivided solid]
    rfl
  · have gap : ∀ f ∈ [b], Undivided f ∧ isVoid f := List.forall_mem_singleton.mpr
      ⟨undivided_of_isPlainCode (isPlainCode_blanks hb), isVoid_iff.mpr hb⟩
    rw [statements_eq, hv, List.map_cons, filled_solid undivided solid, filled_void gap]

theorem emptyBehind_of_isCommit (h : isCommit v) : emptyBehind v ≤ 1 := by
  obtain ⟨w, hw, hv⟩ := fragments_of_isCommit h
  obtain ⟨-, -, solid⟩ := hw.fragments
  rcases hv with hv | ⟨b, hb, hv⟩
  · simp [emptyBehind, hv, solid]
  · have blank : isVoid b = true := isVoid_iff.mpr hb
    simp [emptyBehind, hv, solid, blank]

theorem exists_solid (h : statements s ≠ []) : ∃ f ∈ fragments false s, ¬isVoid f := by
  by_contra hnone
  refine h ?_
  rw [statements_eq]
  refine filled_void fun f hf => ⟨(isSplit_fragments s).undivided f hf, ?_⟩
  by_contra solid
  exact hnone ⟨f, hf, solid⟩

/-- What stands in front of a statement has no part in what is empty behind it. -/
theorem emptyBehind_append (hu : Closed u) (hv : statements v ≠ []) :
    emptyBehind (u ++ ';' :: v) = emptyBehind v := by
  obtain ⟨f, hf, solid⟩ := exists_solid hv
  have stops : ((fragments false v).reverse.takeWhile isVoid).length ≠
      (fragments false v).reverse.length := by
    intro all
    have whole := (List.takeWhile_prefix _).eq_of_length all
    rw [List.takeWhile_eq_self_iff] at whole
    exact solid (whole f (List.mem_reverse.mpr hf))
  rw [emptyBehind, fragments_append_of_closed hu, List.reverse_append, List.takeWhile_append,
    if_neg stops, emptyBehind]

theorem intercalate_append {as bs : List (List Char)} (ha : as ≠ []) (hb : bs ≠ []) :
    [';'].intercalate (as ++ bs) = [';'].intercalate as ++ ';' :: [';'].intercalate bs := by
  induction as with
  | nil => exact absurd rfl ha
  | cons a as ih =>
    cases as with
    | nil =>
      obtain ⟨b, bs, rfl⟩ := List.exists_cons_of_ne_nil hb
      simp [List.intercalate_cons_cons]
    | cons a' as =>
      have tail := ih (List.cons_ne_nil _ _)
      rw [List.cons_append] at tail
      rw [List.cons_append, List.cons_append, List.intercalate_cons_cons, tail,
        List.intercalate_cons_cons]
      simp

/-- The last statement stands in the last fragment that is not empty. -/
theorem exists_last {x : List Char} (h : x ∈ (statements s).getLast?) :
    ∃ gs f bs, fragments false s = gs ++ f :: bs ∧ statement f = x ∧ Undivided f ∧
      (∀ b ∈ bs, ∀ c ∈ b, isBlank c) ∧ emptyBehind s = bs.length := by
  have hundivided := (isSplit_fragments s).undivided
  have cut : (fragments false s).reverse.takeWhile isVoid ++
      (fragments false s).reverse.dropWhile isVoid = (fragments false s).reverse :=
    List.takeWhile_append_dropWhile
  set bs := (fragments false s).reverse.takeWhile isVoid with hbs
  have blank : ∀ b ∈ bs, ∀ c ∈ b, isBlank c := by
    intro b hb
    exact isVoid_iff.mp (List.mem_takeWhile_imp hb)
  cases hrest : (fragments false s).reverse.dropWhile isVoid with
  | nil =>
    obtain ⟨f, hf, solid⟩ := exists_solid (s := s) (by rintro h'; rw [h'] at h; cases h)
    exact absurd (List.dropWhile_eq_nil_iff.mp hrest f (List.mem_reverse.mpr hf)) solid
  | cons f rest =>
    have fs : fragments false s = rest.reverse ++ f :: bs.reverse := by
      rw [hrest] at cut
      rw [← List.reverse_reverse (fragments false s), ← cut]
      simp
    have solid : ¬isVoid f := by
      have := List.head?_dropWhile_not isVoid (fragments false s).reverse
      rw [hrest] at this
      simpa using this
    have hf : Undivided f := hundivided f (by rw [fs]; simp)
    refine ⟨rest.reverse, f, bs.reverse, fs, ?_, hf, ?_, ?_⟩
    · have gaps : ∀ b ∈ bs.reverse, Undivided b ∧ isVoid b := fun b hb =>
        ⟨hundivided b (by rw [fs]; simp [hb]), isVoid_iff.mpr (blank b (List.mem_reverse.mp hb))⟩
      rw [statements_eq, fs, List.map_append, List.map_cons, filled_append, filled_solid hf solid,
        filled_void gaps] at h
      simpa using h
    · exact fun b hb => blank b (List.mem_reverse.mp hb)
    · rw [emptyBehind, ← hbs, List.length_reverse]

theorem endsInCommit_of_emptyBehind (h : EndsWithCommit (statements s)) (hone : emptyBehind s ≤ 1) :
    EndsInCommit (';' :: s) := by
  obtain ⟨x, hx, closes⟩ := h
  obtain ⟨gs, f, bs, fs, rfl, hf, blank, count⟩ := exists_last hx
  rw [closesTransaction_statement_iff hf] at closes
  refine ⟨[';'].intercalate (f :: bs), ?_, ?_⟩
  · have text := intercalate_fragments (';' :: s)
    rw [fragments_semicolon, fs, ← List.cons_append,
      intercalate_append (List.cons_ne_nil _ _) (List.cons_ne_nil _ _)] at text
    exact ⟨_, text⟩
  · refine isCommit_iff.mpr ⟨f, closes, ?_⟩
    match bs, blank, count with
    | [], _, _ => exact .inl (by simp)
    | [b], blank, _ => exact .inr ⟨b, blank b List.mem_cons_self, by simp [List.intercalate]⟩
    | _ :: _ :: _, _, count =>
      rw [count, List.length_cons, List.length_cons] at hone
      omega

theorem closed_iff_of_isCommit (hs : ';' :: s = u ++ ';' :: v) (hv : isCommit v) :
    Closed s ↔ Closed u := by
  have count := congrArg (List.count '\'') hs
  rw [List.count_cons_of_ne (by decide), List.count_append, List.count_cons_of_ne (by decide),
    List.count_eq_zero_of_not_mem (quote_not_mem_of_isCommit hv), Nat.add_zero] at count
  rw [Closed, count, Closed]

/-- Behind a closed text the commit is the last statement. -/
theorem statements_of_closed_commit (hs : ';' :: s = u ++ ';' :: v) (hv : isCommit v)
    (hu : Closed u) : ∃ x, ClosesTransaction x ∧ statements s = statements (u ++ [';']) ++ [x] ∧
      emptyBehind s ≤ 1 := by
  obtain ⟨x, hx, closes⟩ := statements_of_isCommit hv
  have front : statements (u ++ [';']) = statements u ++ [] := statements_append_of_closed hu []
  have all : statements s = statements u ++ [x] := by
    rw [← statements_semicolon, hs, statements_append_of_closed hu, hx]
  refine ⟨x, closes, by rw [all, front, List.append_nil], ?_⟩
  have behind := emptyBehind_append (u := []) (v := s) closed_nil (by simp [all])
  rw [List.nil_append] at behind
  rw [← behind, hs, emptyBehind_append hu (by simp [hx])]
  exact emptyBehind_of_isCommit hv

/-- Behind an open quote the commit stands within the last statement, which loses it. -/
theorem statements_of_open_commit (hs : ';' :: s = u ++ ';' :: v) (hv : isCommit v)
    (hu : ¬Closed u) : ¬EndsWithCommit (statements s) ∧ statements (u ++ [';']) ≠ statements s ∧
      (statements (u ++ [';'])).length = (statements s).length := by
  obtain ⟨xs, k, hk, grown⟩ := exists_statements_open hu
  have before : statements s = xs ++ [statement (k ++ ';' :: v)] := by
    rw [← statements_semicolon, hs, grown _ (by simp [quote_not_mem_of_isCommit hv])]
  have after : statements (u ++ [';']) = xs ++ [statement (k ++ [';'])] := grown _ (by decide)
  refine ⟨?_, ?_, ?_⟩
  · rintro ⟨x, hx, closes⟩
    have last : statement (k ++ ';' :: v) = x := by simpa [before] using hx
    have quote : '\'' ∈ x := by
      rw [← last, quote_mem_statement]
      exact List.mem_append_left _ hk
    exact (isPlainCode_of_commandWords closes.arePlain).not_mem quote
  · rw [← statements_semicolon s, hs]
    intro heq
    have same : core (u ++ [';']) = core (u ++ ';' :: v) := by
      rw [← core_statements, heq, core_statements]
    have weigh := weight_eq_of_core_eq same
    have := weight_of_isCommit hv
    rw [weight_append, weight_append, weight_cons, weight_cons, weight_nil] at weigh
    omega
  · rw [before, after, List.length_append, List.length_append]
    rfl

/-- All outcomes of taking the closing commit from a text. -/
theorem statements_dropFinalCommit_cases (s : List Char) :
    (∃ x, ClosesTransaction x ∧ statements s = statements (dropFinalCommit (';' :: s)) ++ [x] ∧
      Closed s ∧ emptyBehind s ≤ 1) ∨
    (¬Closed s ∧ ¬EndsWithCommit (statements s) ∧ EndsInCommit (';' :: s) ∧
      statements (dropFinalCommit (';' :: s)) ≠ statements s ∧
      (statements (dropFinalCommit (';' :: s))).length = (statements s).length) ∨
    (statements (dropFinalCommit (';' :: s)) = statements s ∧ ¬EndsInCommit (';' :: s) ∧
      (EndsWithCommit (statements s) → ¬emptyBehind s ≤ 1)) := by
  obtain ⟨u, v, hs, hv, h⟩ | ⟨hs, h⟩ := dropFinalCommit_cases (';' :: s)
  · rw [h]
    by_cases hu : Closed u
    · obtain ⟨x, closes, all, hone⟩ := statements_of_closed_commit hs hv hu
      exact .inl ⟨x, closes, all, (closed_iff_of_isCommit hs hv).mpr hu, hone⟩
    · obtain ⟨hend, hne, hlength⟩ := statements_of_open_commit hs hv hu
      exact .inr (.inl ⟨mt (closed_iff_of_isCommit hs hv).mp hu, hend, ⟨v, ⟨u, hs.symm⟩, hv⟩, hne,
        hlength⟩)
  · refine .inr (.inr ⟨by rw [h, statements_semicolon], hs, fun hend hone => ?_⟩)
    exact hs (endsInCommit_of_emptyBehind hend hone)

theorem endsInCommit_append (hf : IsPlainCode f) :
    EndsInCommit (f ++ ';' :: s) ↔ EndsInCommit (';' :: s) := by
  induction f with
  | nil => rfl
  | cons c f ih =>
    obtain ⟨hc, hf⟩ := List.forall_mem_cons.mp hf
    rw [← ih hf, List.cons_append]
    constructor
    · rintro ⟨v, hv, hcommit⟩
      rcases List.suffix_cons_iff.mp hv with heq | hv
      · cases heq
        exact absurd rfl hc.2
      · exact ⟨v, hv, hcommit⟩
    · rintro ⟨v, hv, hcommit⟩
      exact ⟨v, hv.trans (List.suffix_cons _ _), hcommit⟩

theorem endsInCommit_semicolon (hs : ¬Closed s) : EndsInCommit (';' :: s) ↔ EndsInCommit s := by
  constructor
  · rintro ⟨v, hv, hcommit⟩
    rcases List.suffix_cons_iff.mp hv with heq | hv
    · cases heq
      exact absurd (closed_of_not_mem (quote_not_mem_of_isCommit hcommit)) hs
    · exact ⟨v, hv, hcommit⟩
  · rintro ⟨v, hv, hcommit⟩
    exact ⟨v, hv.trans (List.suffix_cons _ _), hcommit⟩

theorem withoutClosing_concat {xs : List (List Char)} (hx : ClosesTransaction x) :
    withoutClosing (xs ++ [x]) = xs := by
  have last : EndsWithCommit (xs ++ [x]) := ⟨x, by simp, hx⟩
  rw [withoutClosing, if_pos last, List.dropLast_concat]

/-- The closing commit is taken from the text as from the statements unless empty statements stand
behind it or it is the end of an open literal. -/
theorem statements_dropFinalCommit_iff :
    statements (dropFinalCommit (';' :: s)) = withoutClosing (statements s) ↔
      (EndsWithCommit (statements s) → emptyBehind s ≤ 1) ∧ (Closed s ∨ ¬EndsInCommit (';' :: s)) := by
  obtain ⟨x, closes, h, closed, hone⟩ | ⟨hopen, hend, hs, hne, -⟩ | ⟨h, hs, hend⟩ :=
    statements_dropFinalCommit_cases s
  · rw [h, withoutClosing_concat closes]
    exact iff_of_true rfl ⟨fun _ => hone, .inl closed⟩
  · rw [withoutClosing, if_neg hend]
    exact iff_of_false hne fun h => h.2.elim hopen fun h => h hs
  · rw [h, withoutClosing]
    by_cases hlast : EndsWithCommit (statements s)
    · rw [if_pos hlast]
      refine iff_of_false ?_ fun h => hend hlast (h.1 hlast)
      obtain ⟨x, hx, -⟩ := hlast
      intro heq
      have length := congrArg List.length heq
      have := List.length_pos_of_mem (List.mem_of_mem_getLast? hx)
      rw [List.length_dropLast] at length
      omega
    · rw [if_neg hlast]
      exact iff_of_true rfl ⟨fun h => absurd h hlast, .inr hs⟩

/-- At most the closing commit is lost from the text. -/
theorem length_withoutClosing_le (s : List Char) :
    (withoutClosing (statements s)).length ≤ (statements (dropFinalCommit (';' :: s))).length := by
  obtain ⟨x, closes, h, -⟩ | ⟨-, hend, -, -, hlength⟩ | ⟨h, -⟩ := statements_dropFinalCommit_cases s
  · rw [h, withoutClosing_concat closes]
  · rw [withoutClosing, if_neg hend, hlength]
  · rw [h, withoutClosing]
    split
    · rw [List.length_dropLast]
      exact Nat.sub_le _ _
    · exact Nat.le_refl _

/-! ### The opening begin -/

/-- A semicolon stands behind the first statement. -/
def EndsFirst (t : List Char) : Prop := 2 ≤ ((fragments false t).dropWhile isVoid).length

instance (t : List Char) : Decidable (EndsFirst t) := inferInstanceAs (Decidable (_ ≤ _))

/-- The first statement is `BEGIN` or `BEGIN TRANSACTION`. -/
def BeginsWithBegin (xs : List (List Char)) : Prop := ∃ x ∈ xs.head?, OpensTransaction x

instance (xs : List (List Char)) : Decidable (BeginsWithBegin xs) :=
  inferInstanceAs (Decidable (∃ x ∈ xs.head?, _))

/-- The number of empty statements in front. -/
def emptyBefore (t : List Char) : Nat := ((fragments false t).takeWhile isVoid).length

theorem OpensTransaction.not_closes (hx : OpensTransaction x) : ¬ClosesTransaction x := by
  intro hc
  rw [ClosesTransaction] at hc
  rcases hx with hx | hx
  · rw [hx] at hc
    exact absurd hc (by decide)
  · rw [hx] at hc
    exact absurd hc (by decide)

theorem endsWithCommit_cons (hx : OpensTransaction x) {xs : List (List Char)} :
    EndsWithCommit (x :: xs) ↔ EndsWithCommit xs := by
  cases xs with
  | nil =>
    refine iff_of_false ?_ nofun
    rintro ⟨y, hy, closes⟩
    cases hy
    exact hx.not_closes closes
  | cons y xs => rw [EndsWithCommit, List.getLast?_cons_cons, EndsWithCommit]

theorem withoutClosing_cons (hx : OpensTransaction x) (xs : List (List Char)) :
    withoutClosing (x :: xs) = x :: withoutClosing xs := by
  rw [withoutClosing, withoutClosing]
  by_cases h : EndsWithCommit xs
  · have hne : xs ≠ [] := by
      rintro rfl
      obtain ⟨y, hy, -⟩ := h
      cases hy
    rw [if_pos h, if_pos ((endsWithCommit_cons hx).mpr h), List.dropLast_cons_of_ne_nil hne]
  · rw [if_neg h, if_neg (mt (endsWithCommit_cons hx).mp h)]

theorem beginsWithBegin_of_dropBegin? (h : dropBegin? t = some r) :
    ∃ f, t = f ++ ';' :: r ∧ IsPlainCode f ∧ EndsFirst t ∧ emptyBefore t = 0 ∧
      ∃ x, OpensTransaction x ∧ statements t = x :: statements r := by
  obtain ⟨f, rfl, hf⟩ := dropBegin?_eq_some_iff.mp h
  have plain := isPlainCode_of_commandWords hf.arePlain
  have undivided := undivided_of_isPlainCode plain
  have closed := closed_of_not_mem plain.not_mem
  have solid : ¬isVoid f := by
    rw [isVoid_iff, ← commandWords_eq_nil_iff]
    rcases hf with hf | hf <;> simp [hf]
  have fs := fragments_append_semicolon undivided closed r
  have all : statements (f ++ ';' :: r) = statement f :: statements r := by
    rw [statements_eq, fs, List.map_cons, filled_solid undivided solid, ← statements_eq]
  have opens := (opensTransaction_statement_iff undivided).mpr hf
  refine ⟨f, rfl, plain, ?_, ?_, statement f, opens, all⟩
  · have := List.length_pos_iff.mpr (fragments_ne_nil false r)
    rw [EndsFirst, fs, List.dropWhile_cons_of_neg solid, List.length_cons]
    omega
  · rw [emptyBefore, fs, List.takeWhile_cons_of_neg solid]
    rfl

theorem emptyBefore_of_dropBegin? (h : dropBegin? t = none) (hends : EndsFirst t)
    (hb : BeginsWithBegin (statements t)) : emptyBefore t ≠ 0 := by
  obtain ⟨x, hx, opens⟩ := hb
  intro hzero
  have split := isSplit_fragments t
  have text := intercalate_fragments t
  obtain ⟨f, fs, hfs⟩ := exists_fragments t
  have solid : ¬isVoid f := by
    intro hvoid
    rw [emptyBefore, hfs, List.takeWhile_cons_of_pos hvoid] at hzero
    cases hzero
  rw [EndsFirst, hfs, List.dropWhile_cons_of_neg solid] at hends
  rw [hfs, isSplit_cons] at split
  rw [hfs] at text
  rw [statements_eq, hfs, List.map_cons, filled_solid split.1.2 solid] at hx
  cases hx
  rw [opensTransaction_statement_iff split.1.2] at opens
  cases fs with
  | nil => cases hends with | step h => cases h
  | cons g gs =>
    rw [List.intercalate_cons_cons, List.append_assoc] at text
    have := dropBegin?_eq_some_iff.mpr ⟨f, text.symm, opens⟩
    rw [h] at this
    cases this

/-! ### The outer transaction -/

theorem statements_dropTransaction (t : List Char) : statements (dropTransaction t) =
    statements (dropFinalCommit (';' :: (dropBegin? t).getD t)) := by
  rw [dropTransaction, dropFinalCommit]
  by_cases h : isCommit ((dropBegin? t).getD t)
  · rw [if_pos h, if_pos ⟨rfl, h⟩, statements_semicolon]
  · rw [if_neg h, if_neg (fun h' => h h'.2), statements_semicolon]

/-- The statements without a `BEGIN` in front that a semicolon stands behind. -/
def withoutOpening (t : List Char) : List (List Char) :=
  if EndsFirst t ∧ BeginsWithBegin (statements t) then (statements t).tail else statements t

/-- Both ends are taken from the text as from the statements unless empty statements stand in front of
the first or behind the last, or the last is the end of an open literal. -/
theorem statements_dropTransaction_iff (t : List Char) :
    statements (dropTransaction t) = withoutClosing (withoutOpening t) ↔
      (EndsFirst t → BeginsWithBegin (statements t) → emptyBefore t = 0) ∧
      (EndsWithCommit (statements t) → emptyBehind t ≤ 1) ∧ (Closed t ∨ ¬EndsInCommit t) := by
  rw [statements_dropTransaction, withoutOpening]
  cases h : dropBegin? t with
  | some r =>
    obtain ⟨f, rfl, plain, hends, hzero, x, opens, all⟩ := beginsWithBegin_of_dropBegin? h
    have begins : BeginsWithBegin (statements (f ++ ';' :: r)) := ⟨x, by simp [all], opens⟩
    have closed := closed_of_not_mem plain.not_mem
    have closed_iff : Closed (f ++ ';' :: r) ↔ Closed r := by
      rw [closed_append_iff closed, closed_cons (by decide)]
    have last_iff : EndsWithCommit (statements (f ++ ';' :: r)) ↔ EndsWithCommit (statements r) := by
      rw [all, endsWithCommit_cons opens]
    have behind : EndsWithCommit (statements r) → emptyBehind (f ++ ';' :: r) = emptyBehind r := by
      rintro ⟨y, hy, -⟩
      refine emptyBehind_append closed ?_
      intro hnil
      rw [hnil] at hy
      cases hy
    rw [Option.getD_some, if_pos ⟨hends, begins⟩, all, List.tail_cons, statements_dropFinalCommit_iff,
      ← all, last_iff, closed_iff, endsInCommit_append plain, hzero]
    constructor
    · rintro ⟨hone, hopen⟩
      exact ⟨fun _ _ => rfl, fun hlast => by rw [behind hlast]; exact hone hlast, hopen⟩
    · rintro ⟨-, hone, hopen⟩
      exact ⟨fun hlast => by rw [← behind hlast]; exact hone hlast, hopen⟩
  | none =>
    rw [Option.getD_none]
    by_cases hb : EndsFirst t ∧ BeginsWithBegin (statements t)
    · have before := emptyBefore_of_dropBegin? h hb.1 hb.2
      rw [if_pos hb]
      refine iff_of_false ?_ fun h => before (h.1 hb.1 hb.2)
      -- the text keeps its `BEGIN`, so it has a statement more
      intro heq
      obtain ⟨x, hx, opens⟩ := hb.2
      obtain ⟨xs, all⟩ := List.head?_eq_some_iff.mp hx
      have length := length_withoutClosing_le t
      rw [heq, all, List.tail_cons, withoutClosing_cons opens, List.length_cons] at length
      omega
    · have open_iff : Closed t ∨ ¬EndsInCommit (';' :: t) ↔ Closed t ∨ ¬EndsInCommit t := by
        by_cases ht : Closed t
        · simp [ht]
        · rw [endsInCommit_semicolon ht]
      rw [if_neg hb, statements_dropFinalCommit_iff, open_iff]
      exact ⟨fun h => ⟨fun h1 h2 => absurd ⟨h1, h2⟩ hb, h⟩, fun h => h.2⟩

/-- The statements of a script, with the outer transaction taken from them and not from the text. -/
def unwrapped (sql : String) : List String :=
  let xs := (sanitize true sql).map String.toList
  let ended := EndsFirst (dropComments .code sql.toList)
  (withoutClosing (if ended ∧ BeginsWithBegin xs then xs.tail else xs)).map String.ofList

/-- Stripping the outer transaction in the text gives the statements that stripping it on the
statements gives exactly when no empty statement stands in front of an opening `BEGIN`, at most one
behind a closing `COMMIT`, and the text does not end with a `COMMIT` inside an open literal. -/
theorem sanitize_eq_unwrapped_iff (sql : String) : sanitize false sql = unwrapped sql ↔
    let t := dropComments .code sql.toList
    (EndsFirst t → BeginsWithBegin (statements t) → emptyBefore t = 0) ∧
      (EndsWithCommit (statements t) → emptyBehind t ≤ 1) ∧ (Closed t ∨ ¬EndsInCommit t) := by
  have kept : (sanitize true sql).map String.toList = statements (dropComments .code sql.toList) :=
    map_toList_sanitize true sql
  have texts : sanitize false sql =
      (statements (dropTransaction (dropComments .code sql.toList))).map String.ofList := rfl
  rw [texts, unwrapped]
  simp only [kept]
  rw [← withoutOpening, List.map_inj_right fun _ _ => String.ofList_inj.mp]
  exact statements_dropTransaction_iff _

/-- A semicolon in front, a second one behind, an open quote: each time half of the wrapper stays or
text is lost. -/
theorem sanitize_ne_unwrapped :
    sanitize false "; BEGIN; DELETE FROM a; COMMIT;" = ["BEGIN", "DELETE FROM a"] ∧
      unwrapped "; BEGIN; DELETE FROM a; COMMIT;" = ["DELETE FROM a"] ∧
    sanitize false "BEGIN; DELETE FROM a; COMMIT;;" = ["DELETE FROM a", "COMMIT"] ∧
      unwrapped "BEGIN; DELETE FROM a; COMMIT;;" = ["DELETE FROM a"] ∧
    sanitize false "SELECT 'a; COMMIT" = ["SELECT 'a;"] ∧
      unwrapped "SELECT 'a; COMMIT" = ["SELECT 'a; COMMIT"] := by
  decide +kernel

end EtlFlow.Sql
