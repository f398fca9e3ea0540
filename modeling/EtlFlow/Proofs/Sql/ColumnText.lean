import EtlFlow.Proofs.Sql.Items
import EtlFlow.Proofs.Sql.Quiet
import EtlFlow.Proofs.Sql.Spelling
import EtlFlow.Proofs.Sql.TableComplete
/-!
# Columns written down again

A definition keeps the name of a column with its quotes and the type in its own spelling, without the
quotes and blanks in its arguments.  Every type that is read is that of a tree (`exists_type`).  Where
the name and the arguments are portable, as they are where the tokens are plain, the text of name and
type is read as the same name and the same type again (`exists_columnTokens`).
-/

namespace EtlFlow.Sql

open Token (Reads IsIdentifier IsNumeral EndsArgument EndsWord)
open Outcome (bind_eq_ok_iff map_eq_ok_iff)
open Text (sameAscii upperAscii isBlank)

/-! ### Quiet texts put together -/

section quiet

variable {a b : List Char}

theorem IsQuiet.append (ha : IsQuiet a) (hb : IsQuiet b) (hs : SameSign b []) : IsQuiet (a ++ b) :=
  (isQuiet_append_iff ha.closed hs).mpr ⟨ha, hb⟩

theorem IsQuiet.behind (hb : IsQuiet b) (ha : ∀ c ∈ a, isCalm c) (hl : '\n' ∉ a) :
    IsQuiet (a ++ b) := by
  have := (isQuiet_append ha hl (s := b) (b := []) (by simp) (by simp) fun _ _ => Iff.rfl).mpr hb
  rwa [List.append_nil] at this

theorem isCalm_of_isDigit {c : Char} (h : c.isDigit) : isCalm c ∧ c ≠ '\n' :=
  Token.forall_digit (p := fun c => isCalm c ∧ c ≠ '\n') (by decide) h

theorem isQuiet_of_isDigits {ds : List Char} (h : Token.IsDigits ds) : IsQuiet ds :=
  isQuiet_of_isCalm (fun c hc => (isCalm_of_isDigit (h c hc)).1)
    fun hl => (isCalm_of_isDigit (h _ hl)).2 rfl

theorem isQuiet_of_inWord {w : List Char} (h : ∀ c ∈ w, Token.inWord c) : IsQuiet w := by
  refine isQuiet_of_isCalm (fun c hc => Token.isCalm_of_inWord (h c hc)) fun hl => ?_
  exact absurd (h _ hl) (by decide)

theorem isQuiet_exponent {x : List Char} (h : Token.IsExponent x) : IsQuiet x := by
  cases h with
  | missing => decide
  | @found e sign ds he hs hd hne =>
    have digits := isQuiet_of_isDigits hd
    have signed : IsQuiet (sign ++ ds) := by
      obtain ⟨d, u, rfl⟩ := List.exists_cons_of_ne_nil hne
      refine IsQuiet.append ?_ digits ?_
      · have signs : ∀ s ∈ [[], ['+'], ['-']], IsQuiet s := by decide
        exact signs sign hs
      · have digit := hd d (by simp)
        refine sameSign_cons ?_ ?_ u <;> rintro rfl <;> revert digit <;> decide
    rcases he with rfl | rfl <;> exact signed.behind (a := [_]) (by decide) (by decide)

theorem isQuiet_numeral {d : List Char} (h : IsNumeral d) : IsQuiet d := by
  obtain ⟨m, x, rfl, hm, hx⟩ := h
  have letters : ∀ c ∈ m, isCalm c ∧ c ≠ '\n' := by
    have period : isCalm '.' ∧ '.' ≠ '\n' := by decide
    have digits {ds : List Char} (hd : Token.IsDigits ds) : ∀ c ∈ ds, isCalm c ∧ c ≠ '\n' :=
      fun c hc => isCalm_of_isDigit (hd c hc)
    cases hm with
    | whole hc hd =>
      rw [List.forall_mem_cons]
      exact ⟨isCalm_of_isDigit hc, digits hd⟩
    | part hc hd hf =>
      rw [List.forall_mem_cons, List.forall_mem_append, List.forall_mem_cons]
      exact ⟨isCalm_of_isDigit hc, digits hd, period, digits hf⟩
    | fraction hf _ =>
      rw [List.forall_mem_cons]
      exact ⟨period, digits hf⟩
  exact (isQuiet_exponent hx).behind (fun c hc => (letters c hc).1) fun hl => (letters _ hl).2 rfl

end quiet

namespace TableTree

open Grammar

/-! ### What is read of a type -/

theorem exists_of_atWords {ws : List String} {ts : List Token} (h : atWords ws ts = true) :
    ∃ vs r, ts = vs.map (.word · none) ++ r ∧
      List.Forall₂ (fun v w => sameAscii v w = true) vs ws := by
  induction ws generalizing ts with
  | nil => exact ⟨[], ts, rfl, .nil⟩
  | cons w ws ih =>
    cases ts with
    | nil => cases h
    | cons t ts =>
      rw [atWords, Bool.and_eq_true] at h
      obtain ⟨vs, r, rfl, hvs⟩ := ih h.2
      cases t with
      | word v q =>
        cases q with
        | none => exact ⟨v :: vs, r, rfl, .cons h.1 hvs⟩
        | some q => cases h.1
      | _ => cases h.1

theorem exists_arguments {ts r : List Token} {texts : List String}
    (h : argumentsInside ts = .ok (texts, r)) :
    ∃ as : List Argument, ts = as.map Argument.token ++ .rparen :: r ∧
      as.filterMap Argument.text? = texts := by
  fun_induction argumentsInside ts generalizing texts with
  | case1 d long ts ih =>
    obtain ⟨⟨more, _⟩, hm, h⟩ := map_eq_ok_iff.mp h
    cases h
    obtain ⟨as, rfl, rfl⟩ := ih hm
    exact ⟨.number d long :: as, rfl, rfl⟩
  | case2 v q ts ih =>
    obtain ⟨⟨more, _⟩, hm, h⟩ := map_eq_ok_iff.mp h
    cases h
    obtain ⟨as, rfl, rfl⟩ := ih hm
    exact ⟨.word ⟨v, q⟩ :: as, rfl, rfl⟩
  | case3 ts ih =>
    obtain ⟨as, rfl, rfl⟩ := ih h
    exact ⟨.comma :: as, rfl, rfl⟩
  | case4 ts =>
    cases h
    exact ⟨[], rfl, rfl⟩
  | case5 => cases h

/-- A type that is read is that of a tree. -/
theorem exists_type {column type : String} {ts r : List Token}
    (h : typeName column ts = .ok (type, r)) :
    ∃ T : ColumnType, ts = T.tokens ++ r ∧ T.text = type := by
  unfold typeName at h
  split at h
  · rename_i v q ts
    split at h
    · rename_i known
      obtain ⟨tail, us, rfl, follows, length⟩ : ∃ tail us,
          ts = tail.map (.word · none) ++ us ∧
          (tail = [] ∨
            ∃ ws ∈ typeTails v, List.Forall₂ (fun v w => sameAscii v w = true) tail ws) ∧
          (((typeTails v).find? (atWords · ts)).getD []).length = tail.length := by
        cases found : (typeTails v).find? fun ws => atWords ws ts with
        | none => exact ⟨[], ts, rfl, .inl rfl, rfl⟩
        | some ws =>
          have here := List.find?_some found
          obtain ⟨tail, us, hts, hws⟩ := exists_of_atWords here
          exact ⟨tail, us, hts, .inr ⟨ws, List.mem_of_find?_eq_some found, hws⟩,
            hws.length_eq.symm⟩
      dsimp only at h
      rw [length, List.take_left' (by simp), List.drop_left' (by simp), wordValues_map] at h
      split at h
      · obtain ⟨⟨args, _⟩, hargs, h⟩ := map_eq_ok_iff.mp h
        cases h
        unfold typeArguments at hargs
        split at hargs
        · obtain ⟨⟨texts, _⟩, htexts, h⟩ := map_eq_ok_iff.mp hargs
          cases h
          obtain ⟨as, rfl, rfl⟩ := exists_arguments htexts
          refine ⟨⟨⟨v, q⟩, known, tail, follows, some as⟩, ?_, rfl⟩
          simp [ColumnType.tokens, Argument.listed, Name.token]
        · cases hargs
      · cases h
        refine ⟨⟨⟨v, q⟩, known, tail, follows, none⟩, ?_, ?_⟩
        · simp [ColumnType.tokens, Name.token]
        · simp [ColumnType.text]
    · cases h
  · cases h

/-! ### The words of a type -/

theorem inWord_of_toUpper {c : Char} {l : Char} (hl : l ∈ capitalLetters ∨ l.isDigit)
    (h : c.toUpper = l) : Token.inWord c ∧ (l ∈ capitalLetters → Token.startsWord c) := by
  by_cases hc : c.toNat < 128
  · obtain ⟨letter, digit⟩ := Token.forall_ascii (p := fun c =>
      (c.toUpper ∈ capitalLetters → Token.startsWord c) ∧ (c.toUpper.isDigit → Token.inWord c))
      (by decide +kernel) hc
    rw [h] at letter digit
    exact ⟨hl.elim (fun hl => Token.inWord_of_startsWord (letter hl)) digit, letter⟩
  · rw [Text.toUpper_of_le (Nat.le_of_not_lt hc)] at h
    subst h
    have below : ∀ l ∈ capitalLetters, l.toNat < 128 := by decide
    rcases hl with hl | hl
    · exact absurd (below c hl) hc
    · exact absurd (Token.forall_digit (p := fun c => c.toNat < 128) (by decide) hl) hc

/-- The word has capital letters and digits alone, a letter first. -/
def isCapitalWord (w : String) : Bool :=
  w.toList.all (fun l => l ∈ capitalLetters || l.isDigit) &&
    w.toList.head?.any (· ∈ capitalLetters)

theorem isIdentifier_of_upperAscii {v : String} (h : isCapitalWord (upperAscii v) = true) :
    IsIdentifier v.toList := by
  rw [isCapitalWord, upperAscii, String.toList_map, Bool.and_eq_true, List.all_map,
    List.all_eq_true] at h
  obtain ⟨letters, first⟩ := h
  replace letters : ∀ c ∈ v.toList, Token.inWord c := fun c hc =>
    (inWord_of_toUpper (by simpa using letters c hc) rfl).1
  cases hv : v.toList with
  | nil =>
    rw [hv] at first
    cases first
  | cons c u =>
    rw [hv, List.forall_mem_cons] at letters
    have capital : c.toUpper ∈ capitalLetters := by simpa [hv] using first
    exact ⟨c, u, rfl, (inWord_of_toUpper (.inl capital) rfl).2 capital, letters.2⟩

theorem ColumnType.isIdentifier_words (t : ColumnType) :
    ∀ v ∈ t.base.value :: t.tail, IsIdentifier v.toList := by
  rw [List.forall_mem_cons]
  constructor
  · have known : ∀ w ∈ knownTypes, isCapitalWord w = true := by decide +kernel
    exact isIdentifier_of_upperAscii (known _ (List.contains_iff_mem.mp t.known))
  · have words : ∀ tails ∈ [[["PRECISION"]], [["VARYING"]],
        [["WITH", "TIME", "ZONE"], ["WITHOUT", "TIME", "ZONE"]], []], ∀ ws ∈ tails, ∀ w ∈ ws,
        isCapitalWord w = true ∧ IsCapital w := by decide +kernel
    rcases t.follows with no | ⟨ws, hws, same⟩
    · simp [no]
    · replace words := words _ (by simpa using typeTails_cases t.base.value) ws hws
      clear hws
      generalize t.tail = tail at same
      induction same with
      | nil => simp
      | cons hv _ ih =>
        rw [List.forall_mem_cons] at words ⊢
        refine ⟨isIdentifier_of_upperAscii ?_, ih words.2⟩
        rw [(capitals_of_sameAscii hv words.1.2).2]
        exact words.1.1

/-! ### Portable names and types -/

/-- The name is read again as it is shown. -/
def Name.IsPortable (n : Name) : Prop :=
  match n.quote with
  | none => IsIdentifier n.value.toList
  | some q => q ∈ ['"', '`'] ∧ q ∉ n.value.toList ∧ IsQuiet n.text.toList

/-- The argument is a word that is read again without quotes, or a number. -/
def Argument.IsPortable : Argument → Prop
  | number d _ => IsNumeral d.toList
  | word n => IsIdentifier n.value.toList
  | comma => True

/-- The arguments are read again as they are shown. -/
def ColumnType.IsPortable (t : ColumnType) : Prop := ∀ as ∈ t.arguments, ∀ a ∈ as, a.IsPortable

/-- The text ends the part of a name that stands before it: it is empty or starts with a period or a
blank. -/
def EndsPart (r : List Char) : Prop := ∀ d ∈ r.head?, d = '.' ∨ isBlank d

theorem EndsPart.endsWord {r : List Char} (h : EndsPart r) : EndsWord r := by
  intro d hd
  rcases h d hd with rfl | blank
  · decide
  · refine ⟨Token.inWord_of_isBlank blank, ?_⟩
    rintro rfl
    exact absurd blank (by decide)

theorem Name.IsPortable.reads_part {n : Name} (h : n.IsPortable) {r : List Char} (hr : EndsPart r) :
    Reads (n.text.toList ++ r) [n.token] r := by
  obtain ⟨v, q⟩ := n
  cases q with
  | none =>
    have word := IsIdentifier.reads h hr.endsWord
    rwa [String.ofList_toList] at word
  | some q =>
    obtain ⟨hq, hv, -⟩ := h
    have quote : q = '"' ∨ q = '`' := by simpa using hq
    have behind : r.head? ≠ some (closingQuote q) := by
      intro hd
      have no_end : ∀ q ∈ ['"', '`'], ¬(closingQuote q = '.' ∨ isBlank (closingQuote q)) := by decide
      exact no_end q hq (hr _ hd)
    have word := (Token.Spells.quotes (v := v.toList) quote).reads behind
    rw [Token.doubled_eq_self_iff.mpr hv, String.ofList_toList] at word
    have text : (Name.text ⟨v, some q⟩).toList = q :: (v.toList ++ [q]) := by
      simp [Name.text, Token.nameText]
    rwa [text]

theorem Name.IsPortable.reads {n : Name} (h : n.IsPortable) {b : Char} (hb : isBlank b)
    (r : List Char) : Reads (n.text.toList ++ b :: r) [n.token] r := by
  have part : EndsPart (b :: r) := by
    rintro d ⟨⟩
    exact .inr hb
  exact (h.reads_part part).trans (Token.reads_blank hb)

/-- The kept texts of arguments are read as arguments with these texts. -/
theorem exists_argumentTokens {texts : List String}
    (h : ∀ s ∈ texts, IsNumeral s.toList ∨ IsIdentifier s.toList) :
    ∃ as : List Argument, as.filterMap Argument.text? = texts ∧ ∀ r,
      Reads ((argumentText texts).toList ++ r) (Argument.listed as) r := by
  have one {s : String} (hs : IsNumeral s.toList ∨ IsIdentifier s.toList) :
      ∃ a : Argument, a.text? = some s ∧ ∀ r, EndsArgument r → Reads (s.toList ++ r) [a.token] r := by
    rcases hs with number | word
    · refine ⟨.number s false, rfl, fun r hr => ?_⟩
      rw [Argument.token, ← String.ofList_toList (s := s), String.toList_ofList]
      exact number.reads hr
    · refine ⟨.word ⟨s, none⟩, rfl, fun r hr => ?_⟩
      rw [Argument.token, Name.token, ← String.ofList_toList (s := s), String.toList_ofList]
      exact word.reads hr.endsWord
  have inside : ∃ as : List Argument, as.filterMap Argument.text? = texts ∧ ∀ r,
      Reads ([','].intercalate (texts.map String.toList) ++ ')' :: r) (as.map Argument.token)
        (')' :: r) := by
    induction texts with
    | nil => exact ⟨[], rfl, fun r => .refl _⟩
    | cons s texts ih =>
      rw [List.forall_mem_cons] at h
      obtain ⟨a, ha, read⟩ := one h.1
      cases texts with
      | nil =>
        refine ⟨[a], List.filterMap_cons_some ha, fun r => ?_⟩
        rw [List.map_singleton, List.intercalate_singleton]
        exact read _ (Token.endsArgument_cons (.inr rfl))
      | cons s' texts =>
        obtain ⟨as, has, reads⟩ := ih h.2
        have kept : (a :: .comma :: as).filterMap Argument.text? = s :: s' :: texts := by
          rw [List.filterMap_cons_some ha, List.filterMap_cons_none rfl, has]
        refine ⟨a :: .comma :: as, kept, fun r => ?_⟩
        rw [List.map_cons, List.map_cons, List.intercalate_cons_cons, ← List.map_cons]
        simp only [List.append_assoc, List.singleton_append]
        exact (read _ (Token.endsArgument_cons (.inl rfl))).trans
          ((Token.reads_symbol (c := ',') (t := .comma) (by simp) _).trans (reads r))
  obtain ⟨as, has, reads⟩ := inside
  refine ⟨as, has, fun r => ?_⟩
  have text : (argumentText texts).toList ++ r =
      '(' :: ([','].intercalate (texts.map String.toList) ++ ')' :: r) := by
    simp [argumentText, String.toList_intercalate]
  rw [text, Argument.listed]
  exact (Token.reads_symbol (t := .lparen) (by simp) _).trans
    ((reads r).trans (Token.reads_symbol (t := .rparen) (by simp) r))

theorem isQuiet_arguments {texts : List String}
    (h : ∀ s ∈ texts, IsNumeral s.toList ∨ IsIdentifier s.toList) :
    IsQuiet (argumentText texts).toList := by
  have one {s : String} (hs : IsNumeral s.toList ∨ IsIdentifier s.toList) : IsQuiet s.toList :=
    hs.elim isQuiet_numeral fun word => isQuiet_of_inWord word.inWord
  have inside : IsQuiet ([','].intercalate (texts.map String.toList)) := by
    induction texts with
    | nil => decide
    | cons s texts ih =>
      rw [List.forall_mem_cons] at h
      cases texts with
      | nil => simpa using one h.1
      | cons s' texts =>
        rw [List.map_cons, List.map_cons, List.intercalate_cons_cons, ← List.map_cons,
          List.append_assoc]
        exact (one h.1).append ((ih h.2).behind (by decide) (by decide))
          (sameSign_cons (by decide) (by decide) _)
  have text : (argumentText texts).toList =
      ['('] ++ ([','].intercalate (texts.map String.toList) ++ [')']) := by
    simp [argumentText, String.toList_intercalate]
  rw [text]
  exact (inside.append (by decide) (sameSign_cons (by decide) (by decide) _)).behind (by decide)
    (by decide)

/-- Words with blanks between them. -/
theorem reads_words {v : String} {ws : List String}
    (h : ∀ w ∈ v :: ws, IsIdentifier w.toList) {r : List Char} (hr : EndsWord r) :
    Reads ((" ".intercalate (v :: ws)).toList ++ r) ((v :: ws).map (.word · none)) r := by
  induction ws generalizing v with
  | nil =>
    have word := (h v (by simp)).reads hr
    rw [String.ofList_toList] at word
    rwa [String.intercalate_singleton]
  | cons w ws ih =>
    rw [List.forall_mem_cons] at h
    have word := h.1.reads (Token.endsWord_of_isBlank (d := ' ')
      (r := (" ".intercalate (w :: ws)).toList ++ r) (by decide))
    rw [String.ofList_toList] at word
    have text : (" ".intercalate (v :: w :: ws)).toList ++ r =
        v.toList ++ ' ' :: ((" ".intercalate (w :: ws)).toList ++ r) := by
      rw [String.intercalate_cons_cons]
      simp
    rw [text]
    exact word.trans ((Token.reads_blank (by decide)).trans (ih h.2))

theorem isQuiet_words {v : String} {ws : List String}
    (h : ∀ w ∈ v :: ws, IsIdentifier w.toList) : IsQuiet (" ".intercalate (v :: ws)).toList := by
  induction ws generalizing v with
  | nil =>
    rw [String.intercalate_singleton]
    exact isQuiet_of_inWord (h v (by simp)).inWord
  | cons w ws ih =>
    rw [List.forall_mem_cons] at h
    have text : (" ".intercalate (v :: w :: ws)).toList =
        v.toList ++ ([' '] ++ (" ".intercalate (w :: ws)).toList) := by
      rw [String.intercalate_cons_cons]
      simp
    rw [text]
    exact (isQuiet_of_inWord h.1.inWord).append ((ih h.2).behind (by decide) (by decide))
      (sameSign_cons (by decide) (by decide) _)

theorem ColumnType.IsPortable.texts {t : ColumnType} (h : t.IsPortable) {as : List Argument}
    (has : t.arguments = some as) :
    ∀ s ∈ as.filterMap Argument.text?, IsNumeral s.toList ∨ IsIdentifier s.toList := by
  intro s hs
  obtain ⟨a, ha, text⟩ := List.mem_filterMap.mp hs
  have portable := h as (by simp [has]) a ha
  cases a with
  | number d _ =>
    cases text
    exact .inl portable
  | word n =>
    cases text
    exact .inr portable
  | comma => cases text

/-- The text of a portable type is read as a type with that text. -/
theorem exists_typeTokens {t : ColumnType} (h : t.IsPortable) :
    ∃ u : ColumnType, u.text = t.text ∧ ∀ r, EndsArgument r →
      Reads (t.text.toList ++ r) u.tokens r := by
  have words := t.isIdentifier_words
  cases has : t.arguments with
  | none =>
    refine ⟨⟨⟨t.base.value, none⟩, t.known, t.tail, t.follows, none⟩, ?_, fun r hr => ?_⟩
    · simp [ColumnType.text, has]
    · have read := reads_words words hr.endsWord
      simpa [ColumnType.text, ColumnType.tokens, Name.token, has] using read
  | some as =>
    obtain ⟨bs, hbs, read⟩ := exists_argumentTokens (h.texts has)
    refine ⟨⟨⟨t.base.value, none⟩, t.known, t.tail, t.follows, some bs⟩, ?_, fun r hr => ?_⟩
    · simp [ColumnType.text, has, Argument.texts, hbs]
    · have paren : EndsWord ((argumentText (as.filterMap Argument.text?)).toList ++ r) := by
        intro c hc
        simp only [argumentText, String.toList_append, List.append_assoc] at hc
        cases hc
        decide
      have all := (reads_words words paren).trans (read r)
      simpa [ColumnType.text, ColumnType.tokens, Name.token, has, Argument.texts] using all

theorem isQuiet_type {t : ColumnType} (h : t.IsPortable) : IsQuiet t.text.toList := by
  have words := isQuiet_words t.isIdentifier_words
  cases has : t.arguments with
  | none => simpa [ColumnType.text, has] using words
  | some as =>
    rw [ColumnType.text, has, String.toList_append]
    refine words.append (isQuiet_arguments (h.texts has)) ?_
    rw [Option.map_some, Option.getD_some, Argument.texts, argumentText, String.toList_append,
      String.toList_append, List.append_assoc]
    exact sameSign_cons (by decide) (by decide) _

/-! ### Columns -/

section column

variable {n : Name} {t : ColumnType}

/-- A plain name is portable. -/
theorem Name.isPortable_of_isPlain (h : n.token.isPlain) : n.IsPortable := by
  obtain ⟨v, q⟩ := n
  cases q with
  | none => exact (Token.isIdentifier_of_isPlainWord h).1
  | some q => cases h

/-- A type of plain tokens that a scan found is portable. -/
theorem ColumnType.isPortable_of_isPlain (h : ∀ x ∈ t.tokens, x.isPlain)
    (marks : ∀ x ∈ t.tokens, ∃ c s r, Token.Marks c s r x) : t.IsPortable := by
  intro as has a ha
  have inside : a.token ∈ t.tokens := by
    have listed : t.arguments = some as := has
    rw [tokens, listed]
    exact List.mem_cons_of_mem _ (List.mem_append_right _
      (List.mem_cons_of_mem _ (List.mem_append_left _ (List.mem_map_of_mem ha))))
  cases a with
  | number d long =>
    obtain ⟨c, s, r, mark⟩ := marks _ inside
    exact mark
  | word n =>
    obtain ⟨v, q⟩ := n
    cases q with
    | none => exact (Token.isIdentifier_of_isPlainWord (h _ inside)).1
    | some q => cases h _ inside
  | comma => trivial

theorem Name.IsPortable.isQuiet (h : n.IsPortable) : IsQuiet n.text.toList := by
  obtain ⟨v, q⟩ := n
  cases q with
  | none => exact isQuiet_of_inWord (IsIdentifier.inWord h)
  | some q => exact h.2.2

/-- A portable name and a portable type are read again as such. -/
theorem exists_columnTokens (hn : n.IsPortable) (ht : t.IsPortable) :
    ∃ u : ColumnType, u.text = t.text ∧ ∀ r, EndsArgument r →
      Reads ((n.text ++ " " ++ t.text).toList ++ r) (n.token :: u.tokens) r := by
  obtain ⟨u, hu, read⟩ := exists_typeTokens ht
  refine ⟨u, hu, fun r hr => ?_⟩
  have text : (n.text ++ " " ++ t.text).toList ++ r =
      n.text.toList ++ ' ' :: (t.text.toList ++ r) := by
    simp
  rw [text]
  exact (hn.reads (by decide) _).trans (read r hr)

theorem isQuiet_column (hn : n.IsPortable) (ht : t.IsPortable) :
    IsQuiet (n.text ++ " " ++ t.text).toList := by
  have text : (n.text ++ " " ++ t.text).toList = n.text.toList ++ ([' '] ++ t.text.toList) := by simp
  rw [text]
  exact hn.isQuiet.append ((isQuiet_type ht).behind (by decide) (by decide))
    (sameSign_cons (by decide) (by decide) _)

/-- A name with a type behind it is no constraint, even where it is a word that starts one, but for
CONSTRAINT itself. -/
theorem atConstraint_name (h : n.token.isWord "CONSTRAINT" = false) (t : ColumnType) (r : List Token) :
    atConstraint (n.token :: (t.tokens ++ r)) = false := by
  have no_key : t.base.token.isWord "KEY" = false := by
    have known := t.known
    generalize t.base = base at known ⊢
    obtain ⟨v, q⟩ := base
    cases q with
    | none =>
      by_contra hw
      rw [Bool.not_eq_false] at hw
      rw [(capitals_of_sameAscii (v := v) hw (by decide)).2] at known
      exact absurd known (by decide +kernel)
    | some q => rfl
  have no_paren (us : List Token) : atParen (t.base.token :: us) = false := rfl
  simp [atConstraint, atWord, atWords, h, ColumnType.tokens, no_key, no_paren]

/-- The name and the type of a column without attributes. -/
theorem tableItem_plain (h : n.token.isWord "CONSTRAINT" = false) (t : ColumnType) (position : Nat)
    {r : List Token} (hr : atItemEnd r = true) :
    tableItem position (n.token :: (t.tokens ++ r)) =
      .ok (.column { name := n.text, type := t.text, position }, r) := by
  have plain (c : ColumnDef) : columnAttributes c r = .ok (c, r) := by
    rw [columnAttributes, if_pos hr]
  simp [tableItem, atConstraint_name h, column, name_token, bind, Except.bind,
    typeName_tokens t n.text (stops_of_atItemEnd hr), plain, Except.map]

end column

/-! ### What is read of a column -/

/-- The name and the type of a column that is read stand first. -/
theorem exists_of_column {position : Nat} {c : ColumnDef} {ts r : List Token}
    (h : column position ts = .ok (c, r)) : ∃ (n : Name) (t : ColumnType) (us : List Token),
      ts = n.token :: (t.tokens ++ us) ∧ n.text = c.name ∧ t.text = c.type := by
  obtain ⟨-, us, vs, hname, htype⟩ := column_eq_ok h
  obtain ⟨t, rfl, type⟩ := exists_type htype
  unfold Grammar.name at hname
  split at hname
  · rename_i v q us
    simp only [Except.ok.injEq, Prod.mk.injEq] at hname
    obtain ⟨name, rfl⟩ := hname
    exact ⟨⟨v, q⟩, t, vs, rfl, name, type⟩
  · cases hname

/-- A column among items starts where no constraint does. -/
theorem exists_of_mem_columnsOf {position : Nat} {ts r : List Token} {items : List TableItem}
    (h : tableItems position ts = .ok (items, r)) : ∀ c ∈ columnsOf items, ∃ start p q,
      start <:+ ts ∧ atConstraint start = false ∧ column p start = .ok (c, q) := by
  have first {position : Nat} {ts r : List Token} {c : ColumnDef}
      (h : tableItem position ts = .ok (.column c, r)) :
      atConstraint ts = false ∧ column position ts = .ok (c, r) := by
    unfold tableItem at h
    split at h
    · obtain ⟨p, -, h⟩ := map_eq_ok_iff.mp h
      cases h
    · rename_i no
      obtain ⟨⟨d, _⟩, hd, h⟩ := map_eq_ok_iff.mp h
      cases h
      exact ⟨by simpa using no, hd⟩
  fun_induction tableItems position ts generalizing items with
  | case1 => cases h
  | case2 position ts i r' hi next =>
    rename_i ih
    obtain ⟨⟨is, _⟩, his, h⟩ := map_eq_ok_iff.mp h
    cases h
    have behind := (List.suffix_cons ..).trans (behind_tableItem _ _ _ _ hi)
    intro c hc
    have later (hc : c ∈ columnsOf is) : ∃ start p q,
        start <:+ ts ∧ atConstraint start = false ∧ column p start = .ok (c, q) := by
      obtain ⟨start, p, q, hs, rest⟩ := ih his c hc
      exact ⟨start, p, q, hs.trans behind, rest⟩
    cases i with
    | constraint d => exact later hc
    | column d =>
      rcases List.mem_cons.mp hc with rfl | hc
      · exact ⟨ts, position, _, List.suffix_rfl, first hi⟩
      · exact later hc
  | case3 position ts i r' _ hi =>
    cases h
    intro c hc
    cases i with
    | constraint d => cases hc
    | column d =>
      rw [List.mem_singleton.mp hc]
      exact ⟨ts, position, _, List.suffix_rfl, first hi⟩

end TableTree

end EtlFlow.Sql
