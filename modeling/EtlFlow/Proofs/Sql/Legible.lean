import EtlFlow.Proofs.Sql.ColumnText
/-!
# Texts that are read as they are written

A text that the clean-up leaves as it is, and that is read as the same tokens in front of a period, a
blank or the end (`StandsFor`), stays so when such texts are joined by periods, equals signs or ANDs
(`standsFor_intercalate`).  Names are such texts where each part is portable, or a bare word behind a
number sign (`TableTree.Names.IsLegible.standsFor`).
-/

namespace EtlFlow.Sql

open Token (Reads)
open Text (isBlank)
open TableTree (Name Names EndsPart)

/-! ### Texts that are read in one place -/

/-- The text is read as the tokens where a period, a blank or the end stands behind it, and the clean-up
leaves it as it is. -/
structure StandsFor (x : List Char) (ts : List Token) : Prop where
  reads : ∀ r, EndsPart r → Reads (x ++ r) ts r
  quiet : IsQuiet x
  ne_nil : x ≠ []
  head : ∀ c ∈ x.head?, c.isDigit = false
  last : ∀ c ∈ x.getLast?, isBlank c = false

/-- The text stands between such texts and is read as the tokens there. -/
structure Links (x : List Char) (ts : List Token) : Prop where
  reads : ∀ r, (∀ c ∈ r.head?, c.isDigit = false) → Reads (x ++ r) ts r
  calm : ∀ c ∈ x, isCalm c
  line : '\n' ∉ x
  ne_nil : x ≠ []
  head : EndsPart x

variable {x y l : List Char} {ts us ls : List Token}

theorem StandsFor.join (hx : StandsFor x ts) (hl : Links l ls) (hy : StandsFor y us) :
    StandsFor (x ++ (l ++ y)) (ts ++ (ls ++ us)) := by
  have part (r : List Char) : EndsPart (l ++ r) := by
    intro d hd
    rw [List.head?_append_of_ne_nil _ hl.ne_nil] at hd
    exact hl.head d hd
  have sign : SameSign (l ++ y) [] := by
    obtain ⟨c, l, rfl⟩ := List.exists_cons_of_ne_nil hl.ne_nil
    have no_sign : c ≠ '-' ∧ c ≠ '*' := by
      rcases hl.head c rfl with rfl | blank
      · decide
      · constructor <;> rintro rfl <;> exact absurd blank (by decide)
    exact sameSign_cons no_sign.1 no_sign.2 _
  have behind : l ++ y ≠ [] := by simp [hl.ne_nil]
  refine ⟨fun r hr => ?_, hx.quiet.append (hy.quiet.behind hl.calm hl.line) sign, by simp [hx.ne_nil],
    ?_, ?_⟩
  · have next : ∀ c ∈ (y ++ r).head?, c.isDigit = false := by
      rw [List.head?_append_of_ne_nil _ hy.ne_nil]
      exact hy.head
    rw [List.append_assoc, List.append_assoc]
    exact (hx.reads _ (part _)).trans ((hl.reads _ next).trans (hy.reads r hr))
  · rw [List.head?_append_of_ne_nil _ hx.ne_nil]
    exact hx.head
  · rw [List.getLast?_append_of_ne_nil _ behind, List.getLast?_append_of_ne_nil _ hy.ne_nil]
    exact hy.last

theorem links_period : Links ['.'] [.period] where
  reads _ hr := Token.reads_period hr
  calm := by decide
  line := by decide
  ne_nil := by decide
  head := by
    rintro c ⟨⟩
    exact .inl rfl

theorem links_equals : Links " = ".toList [.operator "="] where
  reads r _ := by
    have equals : Reads ('=' :: ' ' :: r) [.operator "="] (' ' :: r) :=
      Token.reads_of_step (t := some _) rfl
    exact (Token.reads_blank (by decide)).trans (equals.trans (Token.reads_blank (by decide)))
  calm := by decide
  line := by decide
  ne_nil := by decide
  head := by
    rintro c ⟨⟩
    exact .inr (by decide)

theorem links_and : Links " AND ".toList [.word "AND" none] where
  reads r _ := by
    have word : Reads ("AND".toList ++ ' ' :: r) [.word "AND" none] (' ' :: r) :=
      Token.reads_word (c := 'A') (w := ['N', 'D']) (by decide) (by decide)
        (Token.endsWord_of_isBlank (by decide))
    exact (Token.reads_blank (by decide)).trans (word.trans (Token.reads_blank (by decide)))
  calm := by decide
  line := by decide
  ne_nil := by decide
  head := by
    rintro c ⟨⟩
    exact .inr (by decide)

/-- Texts with a text between them. -/
theorem standsFor_intercalate {link : String} {ss : List String} {tss : List (List Token)}
    (hl : Links link.toList ls) (h : List.Forall₂ (fun s ts => StandsFor s.toList ts) ss tss)
    (hne : ss ≠ []) : StandsFor (link.intercalate ss).toList (ls.intercalate tss) := by
  induction h with
  | nil => exact absurd rfl hne
  | @cons s ts ss tss hs h ih =>
    cases h with
    | nil => simpa using hs
    | @cons s' ts' ss tss hs' h =>
      have more := ih (List.cons_ne_nil _ _)
      have text : (link.intercalate (s :: s' :: ss)).toList =
          s.toList ++ (link.toList ++ (link.intercalate (s' :: ss)).toList) := by
        rw [String.intercalate_cons_cons]
        simp
      rw [text, List.intercalate_cons_cons, List.append_assoc]
      exact hs.join hl more

/-! ### Names -/

namespace Token

/-- No operator starts with a number sign and a character of a word, another number sign apart. -/
theorem operatorAt_sharp {d : Char} (hd : inWord d) (hne : d ≠ '#') (s : List Char) :
    operatorAt '#' (d :: s) = none := by
  have table : operators.all fun e => e.1.toList.head? != some '#' ||
      e.1.toList.tail.head?.any fun v => !inWord v || v == '#' := by
    decide +kernel
  rw [operatorAt, List.find?_eq_none]
  intro e he hprefix
  obtain ⟨z, hz⟩ := List.isPrefixOf_iff_prefix.mp hprefix
  obtain ⟨u, o, ho⟩ := List.exists_cons_of_ne_nil (operators_plain e he).1
  rw [ho, List.cons_append, List.cons.injEq] at hz
  have row := List.all_eq_true.mp table e he
  rw [ho, hz.1] at row
  obtain ⟨v, hv, other⟩ := Option.any_eq_true _ _ |>.mp (by simpa using row)
  obtain ⟨o, rfl⟩ := List.head?_eq_some_iff.mp hv
  obtain ⟨rfl, -⟩ := List.cons.inj hz.2
  simp [hd, hne] at other

/-- A word behind a number sign is read with it. -/
theorem reads_sharp {d : Char} {u r : List Char} (hd : inWord d) (hne : d ≠ '#')
    (hu : ∀ c ∈ u, inWord c) (hr : EndsWord r) :
    Reads ('#' :: d :: (u ++ r)) [.word (String.ofList ('#' :: d :: u)) none] r := by
  have word : (u ++ r).takeWhile inWord = u ∧ (u ++ r).dropWhile inWord = r :=
    takeWhile_exact hu fun c hc => (hr c hc).1
  have none := operatorAt_sharp hd hne (u ++ r)
  have space : d ≠ ' ' := by
    rintro rfl
    exact absurd hd (by decide)
  refine reads_of_step (t := some _) ?_
  have sign (s : List Char) : step '#' s = if '#' = '#' ∧ (operatorAt '#' s).isNone ∧
      s.head?.any (· ≠ ' ') then found (readWord ('#' :: s.take 1) (s.drop 1)) else
        operatorStep '#' s := by
    have quote : ¬('#'.toUpper = 'N') ∧ ¬('#'.toUpper = 'E') ∧ ¬('#'.toUpper = 'X') := by decide
    rw [step]
    simp only [quote, false_and, if_false]
    rfl
  rw [sign, if_pos ⟨rfl, by rw [none]; rfl, by simpa using space⟩, readWord]
  change found (.word (String.ofList (['#', d] ++ (u ++ r).takeWhile inWord)) _,
    (u ++ r).dropWhile inWord) = _
  rw [word.1, word.2]
  rfl

end Token

namespace TableTree

/-- A bare word behind a number sign. -/
def Name.IsSharp (n : Name) : Prop :=
  n.quote = none ∧ ∃ d u, n.value.toList = '#' :: d :: u ∧ Token.inWord d ∧ d ≠ '#' ∧
    ∀ c ∈ u, Token.inWord c

/-- The name is read again as it is shown. -/
def Name.IsLegible (n : Name) : Prop := n.IsPortable ∨ n.IsSharp

/-- Each part is read again as it is shown. -/
def Names.IsLegible (ns : Names) : Prop := ∀ n ∈ ns.first :: ns.more, n.IsLegible

theorem standsFor_word {v : String} (read : ∀ r, EndsPart r → Reads (v.toList ++ r) [.word v none] r)
    (letters : ∀ c ∈ v.toList, Token.inWord c) {d : Char} (hv : v.toList.head? = some d)
    (hd : d.isDigit = false) : StandsFor v.toList [.word v none] where
  reads := read
  quiet := isQuiet_of_inWord letters
  ne_nil h := by
    rw [h] at hv
    cases hv
  head := by
    rw [hv]
    rintro c ⟨⟩
    exact hd
  last c hc := Token.isBlank_of_inWord (letters c (List.mem_of_mem_getLast? hc))

theorem Name.IsPortable.standsFor {n : Name} (h : n.IsPortable) :
    StandsFor n.text.toList [n.token] := by
  have read (r : List Char) (hr : EndsPart r) := h.reads_part hr
  have quiet := h.isQuiet
  obtain ⟨v, q⟩ := n
  cases q with
  | none =>
    have letters := Token.IsIdentifier.inWord h
    obtain ⟨c, u, hv, hc, -⟩ := h
    have first : v.toList.head? = some c := congrArg List.head? hv
    exact standsFor_word read letters first (Token.isDigit_of_startsWord hc)
  | some q =>
    have text : (Name.text ⟨v, some q⟩).toList = q :: v.toList ++ [q] := by
      simp [Name.text, Token.nameText]
    have quotes : ∀ q ∈ ['"', '`'], q.isDigit = false ∧ isBlank q = false := by decide
    obtain ⟨digit, blank⟩ := quotes q h.1
    refine ⟨read, quiet, ?_, ?_, ?_⟩
    · simp [text]
    · rw [text]
      rintro d ⟨⟩
      exact digit
    · rw [text, List.getLast?_concat]
      rintro d ⟨⟩
      exact blank

theorem Name.IsLegible.standsFor {n : Name} (h : n.IsLegible) :
    StandsFor n.text.toList [n.token] := by
  rcases h with h | h
  · exact h.standsFor
  obtain ⟨v, q⟩ := n
  obtain ⟨hq, d, u, hv, hd, hne, hu⟩ := h
  dsimp only at hq hv
  subst hq
  have read (r : List Char) (hr : EndsPart r) : Reads (v.toList ++ r) [.word v none] r := by
    have := Token.reads_sharp hd hne hu hr.endsWord
    rwa [← hv, String.ofList_toList, ← List.cons_append, ← List.cons_append, ← hv] at this
  have first : v.toList.head? = some '#' := congrArg List.head? hv
  have letters : ∀ c ∈ v.toList, Token.inWord c := by
    rw [hv, List.forall_mem_cons, List.forall_mem_cons]
    exact ⟨by decide, hd, hu⟩
  exact standsFor_word read letters first rfl

theorem Names.tokens_eq (separator : Token) (ns : Names) : ns.tokens separator =
    [separator].intercalate ((ns.first :: ns.more).map fun n => [n.token]) := by
  obtain ⟨n, ns⟩ := ns
  rw [tokens]
  induction ns generalizing n with
  | nil => rfl
  | cons m ns ih =>
    have more := ih m
    rw [List.map_cons] at more
    rw [List.map_cons, List.map_cons, List.intercalate_cons_cons, ← more]
    rfl

theorem Names.IsLegible.standsFor {ns : Names} (h : ns.IsLegible) :
    StandsFor ns.dotted.toList (ns.tokens .period) := by
  rw [Names.tokens_eq]
  refine standsFor_intercalate links_period ?_ (List.cons_ne_nil _ _)
  have texts : ns.texts = (ns.first :: ns.more).map Name.text := rfl
  rw [texts, List.forall₂_map_left_iff, List.forall₂_map_right_iff, List.forall₂_same]
  exact fun n hn => (h n hn).standsFor

end TableTree

end EtlFlow.Sql
