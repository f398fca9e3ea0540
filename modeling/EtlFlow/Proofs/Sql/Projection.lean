import EtlFlow.Proofs.Sql.TopLevel
/-!
# The projection, split into its expressions

Three scans look for SELECT, for FROM and for commas.  Expressions with balanced parentheses, closed quotes
and neither a comma nor the word FROM outside of them bring nothing to the surface that a scan stops at, so
they are found as they were written, each without the blanks around it (`columns_of_projection`).
-/

namespace EtlFlow.Sql.Select

open Text (isBlank trimStart trimEnd trim exists_trim trim_blanks_append trim_append_blanks
  trim_ends trim_eq_self trim_trim trimStart_eq_self trimStart_blanks_append)

variable {b e s r t w : List Char} {o : List (Option Char)} {es : List (List Char)} {k : String}
variable {joined : Bool}

/-! ### Expressions -/

/-- An expression of a projection: it is not blank, its parentheses are balanced and its quotes closed,
and outside of them stands neither a comma nor the word FROM. -/
structure IsExpression (e : List Char) : Prop where
  filled : ∃ c ∈ e, isBlank c = false
  surface : ∃ o, Surface e o ∧ some ',' ∉ o ∧ ¬HasWord "from" false o

theorem IsExpression.trim_ne_nil (h : IsExpression e) : trim e ≠ [] := by
  intro hnil
  obtain ⟨a, b, heq, ha, hb⟩ := exists_trim e
  obtain ⟨c, hc, hblank⟩ := h.filled
  rw [heq, hnil, List.nil_append] at hc
  have := (List.mem_append.mp hc).elim (ha c) (hb c)
  rw [hblank] at this
  cases this

/-- Expressions with commas between them are found again. -/
theorem splitCommas_intercalate (hne : es ≠ []) (hes : ∀ e ∈ es, IsExpression e) :
    splitCommas {} ([','].intercalate es) = es := by
  induction es with
  | nil => exact absurd rfl hne
  | cons e es ih =>
      obtain ⟨he, hes⟩ := List.forall_mem_cons.mp hes
      obtain ⟨o, ho, hcomma, -⟩ := he.surface
      cases es with
      | nil =>
          have := splitCommas_surface (r := []) ho hcomma
          rw [List.append_nil] at this
          rw [List.intercalate_singleton, this]
          simp [splitCommas, onFirst]
      | cons f fs =>
          rw [List.intercalate_cons_cons, List.append_assoc, splitCommas_surface ho hcomma,
            List.singleton_append, splitCommas, if_pos ⟨rfl, rfl⟩, ih (List.cons_ne_nil f fs) hes]
          simp [onFirst]

/-- No expression brings the word FROM into the projection. -/
theorem exists_surface_intercalate (hes : ∀ e ∈ es, IsExpression e) :
    ∃ o, Surface ([','].intercalate es) o ∧ ¬HasWord "from" false o := by
  have hk : "from" ∈ aroundExpressions := by decide
  induction es with
  | nil => exact ⟨[], .nil, not_hasWord_nil hk⟩
  | cons e es ih =>
      obtain ⟨he, hes⟩ := List.forall_mem_cons.mp hes
      obtain ⟨o, ho, -, hword⟩ := he.surface
      cases es with
      | nil => exact ⟨o, by rwa [List.intercalate_singleton], hword⟩
      | cons f fs =>
          obtain ⟨os, hos, hwords⟩ := ih hes
          refine ⟨o ++ some ',' :: os, ?_, ?_⟩
          · rw [List.intercalate_cons_cons, List.append_assoc]
            exact ho.append (.plain (by decide) hos)
          · intro h
            exact (h.of_append hk (by decide)).elim hword hwords

/-- Blanks in front bring no word into a surface. -/
theorem HasWord.of_blanks (hk : k ∈ aroundExpressions) (hb : ∀ c ∈ b, isBlank c)
    (h : HasWord k false (b.map some ++ o)) : HasWord k false o := by
  induction b with
  | nil => exact h
  | cons c b ih =>
      obtain ⟨hc, hb⟩ := List.forall_mem_cons.mp hb
      have delimiter : (some c).any inIdentifier = false := inIdentifier_eq_false_of_isBlank hc
      have := HasWord.of_append (p := []) hk delimiter h
      exact ih hb (this.resolve_left (not_hasWord_nil hk))

/-! ### The text of a projection -/

/-- Nothing, or DISTINCT with blanks behind it. -/
def IsModifier (m : List Char) : Prop :=
  m = [] ∨ ∃ d b, m = d ++ b ∧ Says "distinct" d ∧ b ≠ [] ∧ ∀ c ∈ b, isBlank c

/-- Nothing, or FROM with more text behind it, where FROM is a word of its own. -/
def IsTail (s t : List Char) : Prop :=
  t = [] ∨ ∃ f r, t = f ++ r ∧ Says "from" f ∧ (∀ c ∈ s.getLast?, inIdentifier c = false) ∧
    ∀ c ∈ r.head?, inIdentifier c = false

/-- The scan stops at a keyword at the front. -/
theorem splitKeyword?_front (hk : k ∈ aroundExpressions) (hw : Says k w)
    (hr : ∀ c ∈ r.head?, inIdentifier c = false) :
    splitKeyword? k.toList false {} (w ++ r) = some ([], r) := by
  have := afterKeyword?_eq_some_iff.mpr ⟨w, rfl, hw, hr⟩
  obtain ⟨c, w, rfl⟩ := List.exists_cons_of_ne_nil (hw.ne_nil hk)
  rw [List.cons_append] at this ⊢
  rw [splitKeyword?, if_pos ⟨rfl, rfl⟩, this]

/-- The scan finds the end of the projection. -/
theorem before_from (h : Surface s o) (hno : ¬HasWord "from" false o) (hs : s ≠ [])
    (ht : IsTail s t) :
    ((splitKeyword? "from".toList false {} (s ++ t)).map (·.1)).getD (s ++ t) = s := by
  have hk : "from" ∈ aroundExpressions := by decide
  rcases ht with rfl | ⟨f, r, rfl, hf, hlast, hr⟩
  · rw [splitKeyword?_surface hk h hno (.inr (by simp))]
    simp [splitKeyword?, behind]
  · obtain ⟨s, c, rfl⟩ := (List.eq_nil_or_concat' s).resolve_left hs
    have hc : inIdentifier c = false := hlast c (by simp)
    rw [splitKeyword?_surface hk h hno (.inl hlast), endsIn_append_singleton, hc,
      splitKeyword?_front hk hf hr]
    simp [behind]

/-! ### What trimming leaves -/

theorem dropSemicolons_of_getLast? (h : s.getLast? ≠ some ';') : dropSemicolons s = s := by
  unfold dropSemicolons
  rw [List.dropWhile_eq_self_iff.mpr, List.reverse_reverse]
  intro hpos
  rw [beq_iff_eq]
  intro hc
  apply h
  rw [List.getLast?_eq_head?_reverse, List.head?_eq_getElem?, List.getElem?_eq_getElem hpos, hc]

/-- A text that starts with no blank is the trimmed one with blanks behind it. -/
theorem exists_trim_of_head (h : ∀ c ∈ s.head?, isBlank c = false) :
    ∃ b, s = trim s ++ b ∧ ∀ c ∈ b, isBlank c := by
  obtain ⟨a, b, hs, ha, hb⟩ := exists_trim s
  refine ⟨b, ?_, hb⟩
  cases a with
  | nil => exact hs
  | cons c a =>
      have hblank := ha c List.mem_cons_self
      rw [h c (by rw [hs]; rfl)] at hblank
      cases hblank

/-- A trimmed text starts with a word when the text does, up to blanks in front and what a delimiter
parts from it. -/
theorem startsWith_trim_append (hk : k ∈ aroundExpressions) (he : trim e ≠ [])
    (ht : ∀ c ∈ t.head?, inIdentifier c = false) :
    StartsWith k (trim (e ++ t)) ↔ StartsWith k (trim e) := by
  obtain ⟨a, z, hez, ha, hz⟩ := exists_trim e
  have hhead : ∀ c ∈ (trim e ++ (z ++ t)).head?, isBlank c = false := by
    rw [List.head?_append_of_ne_nil _ he]
    exact (trim_ends (trim_trim e)).1
  have hzt : ∀ c ∈ (z ++ t).head?, inIdentifier c = false :=
    delimits_blanks_append hz fun _ => ht
  have same : trim (e ++ t) = trim (trim e ++ (z ++ t)) := by
    conv_lhs => rw [hez, List.append_assoc, List.append_assoc, trim_blanks_append ha]
  obtain ⟨b, hb, hblank⟩ := exists_trim_of_head hhead
  have hend := delimits_blanks_append (s := []) hblank (by simp)
  rw [List.append_nil] at hend
  rw [same, ← startsWith_append hk hend, ← hb, startsWith_append hk hzt]

/-- Trimming keeps the end of a text that ends with no blank. -/
theorem getLast?_trim (h : ∀ c ∈ s.getLast?, isBlank c = false) :
    (trim s).getLast? = s.getLast? := by
  obtain ⟨a, b, hs, ha, hb⟩ := exists_trim s
  have none_behind {u b : List Char} (hs : s = u ++ b) (hb : ∀ c ∈ b, isBlank c) : b = [] := by
    refine (List.eq_nil_or_concat' b).resolve_right ?_
    rintro ⟨v, c, rfl⟩
    have hblank := hb c (by simp)
    rw [h c (by rw [hs, ← List.append_assoc]; simp)] at hblank
    cases hblank
  obtain rfl : b = [] := none_behind (by rw [← List.append_assoc] at hs; exact hs) hb
  rw [List.append_nil] at hs
  by_cases hnil : trim s = []
  · rw [hnil, List.append_nil] at hs
    have empty : a = [] := none_behind (u := []) hs ha
    rw [hnil, hs, empty]
  · conv_rhs => rw [hs, List.getLast?_append_of_ne_nil _ hnil]

/-- A trimmed text ends as the trimmed text at its end does. -/
theorem getLast?_trim_append (he : trim e ≠ []) : (trim (s ++ e)).getLast? = (trim e).getLast? := by
  obtain ⟨a, b, heq, -, hb⟩ := exists_trim e
  have text : s ++ e = s ++ a ++ trim e ++ b := by
    conv_lhs => rw [heq]
    simp
  have last := (trim_ends (trim_trim e)).2
  rw [← List.getLast?_append_of_ne_nil (s ++ a) he] at last
  rw [text, trim_append_blanks hb, getLast?_trim last, List.getLast?_append_of_ne_nil _ he]

/-- Behind a text that starts with no blank, the blanks in front of what follows stay. -/
theorem exists_trim_append (hr : r ≠ []) (hhead : ∀ c ∈ r.head?, isBlank c = false)
    (hs : trim s ≠ []) : ∃ a, trim (r ++ s) = r ++ (a ++ trim s) ∧ ∀ c ∈ a, isBlank c := by
  obtain ⟨a, b, hab, ha, hb⟩ := exists_trim s
  refine ⟨a, ?_, ha⟩
  have text : r ++ s = r ++ (a ++ trim s) ++ b := by
    conv_lhs => rw [hab]
    simp
  rw [text, trim_append_blanks hb]
  refine trim_eq_self ?_ ?_
  · rwa [List.head?_append_of_ne_nil _ hr]
  · rw [← List.append_assoc, List.getLast?_append_of_ne_nil _ hs]
    exact (trim_ends (trim_trim s)).2

/-! ### Modifiers -/

theorem dropModifier_of_not_startsWith (h : ¬StartsWith k s) : dropModifier k.toList s = s := by
  unfold dropModifier
  rw [afterKeyword?_eq_none_iff.mpr h]
  rfl

theorem dropModifier_append (hw : Says k w) (hne : b ≠ []) (hb : ∀ c ∈ b, isBlank c)
    (s : List Char) : dropModifier k.toList (w ++ (b ++ s)) = trimStart s := by
  have behind := delimits_blanks_append (s := s) hb fun hnil => absurd hnil hne
  unfold dropModifier
  rw [afterKeyword?_eq_some_iff.mpr ⟨w, rfl, hw, behind⟩, Option.map_some, Option.getD_some,
    trimStart_blanks_append hb]

/-! ### The columns -/

theorem exists_intercalate_cons (e : List Char) (es : List (List Char)) :
    ∃ t, [','].intercalate (e :: es) = e ++ t ∧ ∀ c ∈ t.head?, inIdentifier c = false := by
  cases es with
  | nil => exact ⟨[], by simp, by simp⟩
  | cons f fs =>
      refine ⟨',' :: [','].intercalate (f :: fs), ?_, ?_⟩
      · rw [List.intercalate_cons_cons, List.append_assoc, List.singleton_append]
      · intro c hc
        cases hc
        decide

theorem exists_intercalate_getLast (h : es.getLast? = some e) :
    ∃ s, [','].intercalate es = s ++ e := by
  induction es with
  | nil => cases h
  | cons f es ih =>
      cases es with
      | nil =>
          obtain rfl : f = e := by simpa using h
          exact ⟨[], by simp⟩
      | cons g gs =>
          rw [List.getLast?_cons_cons] at h
          obtain ⟨s, hs⟩ := ih h
          refine ⟨f ++ [','] ++ s, ?_⟩
          rw [List.intercalate_cons_cons, hs]
          simp

/-- Expressions that can be told from what stands around them: the first does not start with DISTINCT or
ALL, and the last does not end with a semicolon. -/
structure IsProjection (es : List (List Char)) : Prop where
  filled : es ≠ []
  expressions : ∀ e ∈ es, IsExpression e
  first : ∀ e ∈ es.head?, ¬StartsWith "distinct" (trim e) ∧ ¬StartsWith "all" (trim e)
  last : ∀ e ∈ es.getLast?, (trim e).getLast? ≠ some ';'

namespace IsProjection

variable {m : List Char}

theorem not_startsWith (h : IsProjection es) :
    ¬StartsWith "distinct" (trim ([','].intercalate es)) ∧
      ¬StartsWith "all" (trim ([','].intercalate es)) := by
  obtain ⟨e, es, rfl⟩ := List.exists_cons_of_ne_nil h.filled
  obtain ⟨t, ht, hhead⟩ := exists_intercalate_cons e es
  have he := (h.expressions e List.mem_cons_self).trim_ne_nil
  rw [ht, startsWith_trim_append (by decide) he hhead, startsWith_trim_append (by decide) he hhead]
  exact h.first e rfl

theorem exists_last (h : IsProjection es) : ∃ s e, [','].intercalate es = s ++ e ∧ trim e ≠ [] ∧
    (trim e).getLast? ≠ some ';' := by
  have hlast := List.getLast?_eq_some_getLast h.filled
  obtain ⟨s, hs⟩ := exists_intercalate_getLast hlast
  exact ⟨s, _, hs, (h.expressions _ (List.getLast_mem h.filled)).trim_ne_nil, h.last _ hlast⟩

theorem trim_ne_nil (h : IsProjection es) : trim ([','].intercalate es) ≠ [] := by
  obtain ⟨s, e, hs, he, -⟩ := h.exists_last
  intro hnil
  have := getLast?_trim_append (s := s) he
  rw [← hs, hnil, List.getLast?_nil] at this
  exact he (List.getLast?_eq_none_iff.mp this.symm)

/-- FROM is no part of DISTINCT. -/
theorem not_hasWord_distinct {d : List Char} (hd : Says "distinct" d) :
    ¬HasWord "from" joined (d.map some) := by
  intro h
  obtain ⟨c, hc, hf⟩ := h.exists_mem (d := 'f') (by decide)
  have hmem : c ∈ d := by simpa using hc
  have := List.mem_map_of_mem (f := Char.toLower) hmem
  rw [hd, hf] at this
  exact absurd this (by decide)

/-- The surface of a projection with its modifier has no FROM on it. -/
theorem exists_surface (h : IsProjection es) (hb : ∀ c ∈ b, isBlank c) (hm : IsModifier m) :
    ∃ o, Surface (b ++ (m ++ [','].intercalate es)) o ∧ ¬HasWord "from" false o := by
  have hk : "from" ∈ aroundExpressions := by decide
  obtain ⟨o, ho, hno⟩ := exists_surface_intercalate h.expressions
  suffices hmo : ∃ o', Surface (m ++ [','].intercalate es) o' ∧ ¬HasWord "from" false o' by
    obtain ⟨o', ho', hno'⟩ := hmo
    exact ⟨_, (surface_blanks hb).append ho', fun hw => hno' (hw.of_blanks hk hb)⟩
  rcases hm with rfl | ⟨d, z, rfl, hd, hz, hzb⟩
  · exact ⟨o, ho, hno⟩
  · have letters := hd.inIdentifier (by decide)
    have plain : Surface d (d.map some) :=
      surface_map_some fun c hc => not_mem_brackets_of_inIdentifier (letters c hc)
    obtain ⟨c, z, rfl⟩ := List.exists_cons_of_ne_nil hz
    obtain ⟨hc, hz⟩ := List.forall_mem_cons.mp hzb
    refine ⟨d.map some ++ ((c :: z).map some ++ o), ?_, ?_⟩
    · rw [List.append_assoc]
      exact plain.append ((surface_blanks hzb).append ho)
    · intro hw
      have delimiter : (some c).any inIdentifier = false := inIdentifier_eq_false_of_isBlank hc
      rcases hw.of_append hk delimiter with hw | hw
      · exact not_hasWord_distinct hd hw
      · exact hno (hw.of_blanks hk hz)

theorem getLast?_trim_ne (h : IsProjection es) :
    (trim ([','].intercalate es)).getLast? ≠ some ';' := by
  obtain ⟨s, e, hs, he, hlast⟩ := h.exists_last
  rw [hs, getLast?_trim_append he]
  exact hlast

/-- Of the text of a projection, the expressions stay. -/
theorem dropModifier_trim (h : IsProjection es) (hb : ∀ c ∈ b, isBlank c) (hm : IsModifier m) :
    dropModifier "distinct".toList (trim (dropSemicolons
      (trim (b ++ (m ++ [','].intercalate es))))) = trim ([','].intercalate es) := by
  have ends := h.getLast?_trim_ne
  have filled := h.trim_ne_nil
  rw [trim_blanks_append hb]
  rcases hm with rfl | ⟨d, z, rfl, hd, hz, hzb⟩
  · rw [List.nil_append, dropSemicolons_of_getLast? ends, trim_trim,
      dropModifier_of_not_startsWith h.not_startsWith.1]
  · have hdne := hd.ne_nil (by decide)
    have hhead : ∀ c ∈ (d ++ z).head?, isBlank c = false := by
      intro c hc
      rw [List.head?_append_of_ne_nil _ hdne] at hc
      have letter := hd.inIdentifier (by decide) c (List.mem_of_mem_head? hc)
      rw [← Bool.not_eq_true]
      intro hblank
      rw [inIdentifier_eq_false_of_isBlank hblank] at letter
      cases letter
    obtain ⟨a, text, ha⟩ := exists_trim_append (by simp [hdne]) hhead filled
    have last : (trim (d ++ z ++ [','].intercalate es)).getLast? ≠ some ';' := by
      rwa [text, ← List.append_assoc, List.getLast?_append_of_ne_nil _ filled]
    have front : d ++ z ++ (a ++ trim ([','].intercalate es)) =
        d ++ (z ++ a ++ trim ([','].intercalate es)) := by simp
    have hza : ∀ c ∈ z ++ a, isBlank c := List.forall_mem_append.mpr ⟨hzb, ha⟩
    rw [dropSemicolons_of_getLast? last, trim_trim, text, front,
      dropModifier_append hd (by simp [hz]) hza]
    exact trimStart_eq_self (trim_ends (trim_trim _)).1

/-- The text between SELECT and FROM, without its modifier, is that of the expressions. -/
theorem projection?_eq (h : IsProjection es) {select t : List Char} (hselect : Says "select" select)
    (hne : b ≠ []) (hb : ∀ c ∈ b, isBlank c) (hm : IsModifier m)
    (ht : IsTail ([','].intercalate es) t) :
    projection? (select ++ (b ++ (m ++ [','].intercalate es) ++ t)) =
      some (trim ([','].intercalate es)) := by
  have filled : [','].intercalate es ≠ [] := by
    intro hnil
    exact h.trim_ne_nil (by rw [hnil]; rfl)
  have hhead : ∀ c ∈ (b ++ (m ++ [','].intercalate es) ++ t).head?, inIdentifier c = false := by
    rw [List.append_assoc]
    exact delimits_blanks_append hb fun hnil => absurd hnil hne
  have htail : IsTail (b ++ (m ++ [','].intercalate es)) t := by
    unfold IsTail
    rw [← List.append_assoc, List.getLast?_append_of_ne_nil _ filled]
    exact ht
  have hX : b ++ (m ++ [','].intercalate es) ≠ [] := by
    intro hnil
    exact hne (List.append_eq_nil_iff.mp hnil).1
  obtain ⟨o, ho, hno⟩ := h.exists_surface hb hm
  unfold projection?
  rw [splitKeyword?_front (by decide) hselect hhead]
  simp only [Option.bind_eq_bind, Option.bind_some]
  rw [before_from ho hno hX htail, h.dropModifier_trim hb hm,
    dropModifier_of_not_startsWith h.not_startsWith.2]
  rfl

end IsProjection

/-- The columns of a query are the expressions of its projection, each without the blanks around it. -/
theorem columns_of_projection (h : IsProjection es) {select m t : List Char}
    (hselect : Says "select" select) (hne : b ≠ []) (hb : ∀ c ∈ b, isBlank c) (hm : IsModifier m)
    (ht : IsTail ([','].intercalate es) t) :
    columns (String.ofList (select ++ (b ++ (m ++ [','].intercalate es) ++ t))) =
      .ok (es.map fun e => String.ofList (trim e)) := by
  have filled : ¬(es.map trim).any List.isEmpty = true := by
    rw [List.any_eq_true]
    rintro ⟨x, hx, hempty⟩
    obtain ⟨e, he, rfl⟩ := List.mem_map.mp hx
    exact (h.expressions e he).trim_ne_nil (List.isEmpty_iff.mp hempty)
  unfold columns
  rw [String.toList_ofList, h.projection?_eq hselect hne hb hm ht]
  dsimp only
  rw [map_trim_splitCommas_trim, splitCommas_intercalate h.filled h.expressions, if_neg filled,
    List.map_map]
  rfl

/-- Commas and keywords in calls, quotations and nested queries do not separate. -/
theorem columns_of_nested_projection :
    columns "SELECT DISTINCT f(a, 'b'), (SELECT 1 FROM u) AS m FROM t" =
      .ok ["f(a, 'b')", "(SELECT 1 FROM u) AS m"] := by
  have plain (s : List Char) (h : ∀ c ∈ s, c ∉ brackets) : Surface s (s.map some) :=
    surface_map_some h
  have quotation : Surface "'b'".toList [none] :=
    .quoted (.inl rfl) (show '\'' ∉ "b".toList by decide) .nil
  have arguments := (plain "a, ".toList (by decide)).append quotation
  have call : Surface "f(a, 'b')".toList [some 'f', none] := .plain (by decide) (.group arguments .nil)
  have name := plain " AS m ".toList (by decide)
  have query : Surface " (SELECT 1 FROM u) AS m ".toList
      (some ' ' :: none :: " AS m ".toList.map some) :=
    .plain (by decide) (.group (plain "SELECT 1 FROM u".toList (by decide)) name)
  have absent {o : List (Option Char)} (h : ∀ c, some c ∈ o → c.toLower ≠ 'r') :
      ¬HasWord "from" false o := by
    intro hw
    obtain ⟨c, hc, hr⟩ := hw.exists_mem (d := 'r') (by decide)
    exact h c hc hr
  have projection : IsProjection ["f(a, 'b')".toList, " (SELECT 1 FROM u) AS m ".toList] := by
    refine ⟨by decide, ?_, ?_, ?_⟩
    · rw [List.forall_mem_cons, List.forall_mem_singleton]
      refine ⟨⟨⟨'f', by decide, by decide⟩, _, call, by decide, absent ?_⟩,
        ⟨'A', by decide, by decide⟩, _, query, by decide, absent ?_⟩
      · simp
      · simp
    · intro e he
      cases he
      rw [← afterKeyword?_eq_none_iff, ← afterKeyword?_eq_none_iff]
      decide
    · intro e he
      cases he
      decide
  have modifier : IsModifier "DISTINCT ".toList :=
    .inr ⟨"DISTINCT".toList, " ".toList, rfl, by decide, by decide, by decide⟩
  have tail : IsTail ([','].intercalate ["f(a, 'b')".toList, " (SELECT 1 FROM u) AS m ".toList])
      "FROM t".toList := by
    refine .inr ⟨"FROM".toList, " t".toList, rfl, by decide, ?_, ?_⟩
    all_goals
      intro c hc
      cases hc
      decide
  have found : columns (String.ofList ("SELECT".toList ++ (" ".toList ++ ("DISTINCT ".toList ++
      [','].intercalate ["f(a, 'b')".toList, " (SELECT 1 FROM u) AS m ".toList]) ++
      "FROM t".toList))) = _ :=
    columns_of_projection projection (by decide) (by decide) (by decide) modifier tail
  have text : "SELECT DISTINCT f(a, 'b'), (SELECT 1 FROM u) AS m FROM t" =
      String.ofList ("SELECT".toList ++ (" ".toList ++ ("DISTINCT ".toList ++
        [','].intercalate ["f(a, 'b')".toList, " (SELECT 1 FROM u) AS m ".toList]) ++
        "FROM t".toList)) := by decide
  rw [text, found]
  decide

end EtlFlow.Sql.Select
