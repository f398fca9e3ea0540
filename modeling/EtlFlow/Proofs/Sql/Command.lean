import EtlFlow.Proofs.Sql.Stable
import EtlFlow.Proofs.Sql.ViewBody
import EtlFlow.Proofs.Text.Words
/-!
# The commands of a transaction

A command is told by its words, whatever their case and the blanks around them (`commandWords`).  In
the text a `BEGIN` is found in front where a semicolon ends it (`dropBegin?_eq_some_iff`), a `COMMIT`
at the end with one semicolon behind it or none (`isCommit_iff`).  The clean-up keeps the words of a
fragment, so the same commands are found among the statements (`opensTransaction_statement_iff`,
`closesTransaction_statement_iff`).
-/

namespace EtlFlow.Sql

open Text (isBlank trimStart trim words foldCase plainLetters words_trim words_eq_nil_iff
  isBlank_or_mem_words SameWords exists_words words_blanks_append words_word_append words_blanks
  exists_of_trimStart_eq trimStart_blanks_append trimStart_blanks_cons trimStart_eq_self)

variable {b f k r s t v w x : List Char}

/-! ### Commands -/

/-- The words of a text, in small letters. -/
def commandWords (x : List Char) : List (List Char) := (words x).map fun w => w.map foldCase

/-- The words hold letters alone. -/
def ArePlain (ks : List (List Char)) : Prop := ∀ k ∈ ks, ∀ l ∈ k, l ∈ plainLetters

instance (ks : List (List Char)) : Decidable (ArePlain ks) := inferInstanceAs (Decidable (∀ k ∈ ks, _))

theorem isCalm_of_commandWords (h : ArePlain (commandWords x)) : ∀ c ∈ x, isCalm c := by
  intro c hc
  rcases isBlank_or_mem_words hc with blank | ⟨w, hw, hcw⟩
  · exact isCalm_of_isBlank blank
  · have letter : foldCase c ∈ plainLetters :=
      h _ (List.mem_map_of_mem hw) _ (List.mem_map_of_mem hcw)
    exact Token.isCalm_of_inWord (Token.inWord_of_startsWord (Text.capitals_of_foldCase letter).2)

theorem isPlainCode_of_commandWords (h : ArePlain (commandWords x)) : IsPlainCode x :=
  isPlainCode_of_isCalm (isCalm_of_commandWords h)

theorem commandWords_blanks (hb : ∀ c ∈ b, isBlank c) : commandWords b = [] := by
  rw [commandWords, words_blanks hb, List.map_nil]

theorem commandWords_eq_nil_iff : commandWords x = [] ↔ ∀ c ∈ x, isBlank c := by
  rw [commandWords, List.map_eq_nil_iff, words_eq_nil_iff]

theorem commandWords_append (hb : ∀ c ∈ b, isBlank c) (hne : w ≠ [])
    (hw : ∀ c ∈ w, isBlank c = false) (hr : ∀ c ∈ r.head?, isBlank c = true) :
    commandWords (b ++ (w ++ r)) = w.map foldCase :: commandWords r := by
  rw [commandWords, words_blanks_append hb, words_word_append hne hw hr, List.map_cons]
  rfl

theorem commandWords_eq_cons_iff {ks : List (List Char)} : commandWords x = k :: ks ↔
    ∃ b w r, x = b ++ (w ++ r) ∧ (∀ c ∈ b, isBlank c) ∧ w ≠ [] ∧ (∀ c ∈ w, isBlank c = false) ∧
      (∀ c ∈ r.head?, isBlank c = true) ∧ w.map foldCase = k ∧ commandWords r = ks := by
  constructor
  · intro h
    obtain ⟨-, none⟩ | ⟨b, w, r, hx, hb, hne, hw, hr, hwords⟩ := exists_words x
    · rw [commandWords, none] at h
      cases h
    · rw [commandWords, hwords, List.map_cons, List.cons.injEq] at h
      exact ⟨b, w, r, hx, hb, hne, hw, hr, h.1, h.2⟩
  · rintro ⟨b, w, r, rfl, hb, hne, hw, hr, rfl, rfl⟩
    exact commandWords_append hb hne hw hr

/-- `BEGIN` or `BEGIN TRANSACTION`. -/
def OpensTransaction (x : List Char) : Prop :=
  commandWords x = ["begin".toList] ∨ commandWords x = ["begin".toList, "transaction".toList]

/-- `COMMIT`. -/
def ClosesTransaction (x : List Char) : Prop := commandWords x = ["commit".toList]

instance (x : List Char) : Decidable (OpensTransaction x) := inferInstanceAs (Decidable (_ ∨ _))

instance (x : List Char) : Decidable (ClosesTransaction x) := inferInstanceAs (Decidable (_ = _))

theorem OpensTransaction.arePlain (h : OpensTransaction x) : ArePlain (commandWords x) := by
  rcases h with h | h
  · rw [h]
    decide
  · rw [h]
    decide

theorem ClosesTransaction.arePlain (h : ClosesTransaction x) : ArePlain (commandWords x) := by
  rw [h]
  decide

/-! ### Where the text is stripped -/

variable {word : String}

theorem commandWords_word_append (hp : Warehouse.Header.IsPlain word) (hb : ∀ c ∈ b, isBlank c)
    (hw : w.map foldCase = word.toList) (hr : ∀ c ∈ r.head?, isBlank c = true) :
    commandWords (b ++ (w ++ r)) = word.toList :: commandWords r := by
  have hne : w ≠ [] := by
    rintro rfl
    exact hp.1 hw.symm
  have solid : ∀ c ∈ w, isBlank c = false := fun c hc =>
    Token.isBlank_of_inWord (Token.inWord_of_startsWord
      (Warehouse.Header.startsWord_of_map_foldCase hw hp c hc))
  rw [commandWords_append hb hne solid hr, hw]

/-- A command of one word, with blanks around it. -/
theorem commandWords_word (hp : Warehouse.Header.IsPlain word) (hb : ∀ c ∈ b, isBlank c)
    (hw : w.map foldCase = word.toList) (hr : ∀ c ∈ r, isBlank c) :
    commandWords (b ++ (w ++ r)) = [word.toList] := by
  rw [commandWords_word_append hp hb hw fun c hc => hr c (List.mem_of_mem_head? hc),
    commandWords_blanks hr]

theorem dropWord?_trimStart (hp : Warehouse.Header.IsPlain word) (hb : ∀ c ∈ b, isBlank c)
    (hw : w.map foldCase = word.toList) (s : List Char) :
    Text.dropWord? word.toList (trimStart (b ++ (w ++ s))) = some s := by
  rw [trimStart_blanks_append hb, trimStart_eq_self (ViewDef.isBlank_of_word hp hw s),
    ViewDef.dropWord?_append hw]

theorem exists_of_dropWord?_trimStart (h : Text.dropWord? word.toList (trimStart t) = some s) :
    ∃ b w, t = b ++ (w ++ s) ∧ (∀ c ∈ b, isBlank c) ∧ w.map foldCase = word.toList := by
  obtain ⟨w, ht, hw⟩ := Text.dropFolded?_eq_some_iff.mp h
  obtain ⟨b, hb, blank⟩ := exists_of_trimStart_eq ht
  exact ⟨b, w, hb, blank, hw⟩

/-- No word is found where only blanks stand before a semicolon. -/
theorem dropSpacedWord?_semicolon (hp : Warehouse.Header.IsPlain word) (hb : ∀ c ∈ b, isBlank c)
    (s : List Char) : Text.dropSpacedWord? word.toList (b ++ ';' :: s) = none := by
  by_cases hne : b = []
  · subst hne
    rfl
  · rw [Text.dropSpacedWord?, ViewDef.dropBlanks?_append hne hb, Option.bind_some,
      Option.eq_none_iff_forall_ne_some]
    intro r hr
    obtain ⟨w, hw, hword⟩ := Text.dropFolded?_eq_some_iff.mp hr
    cases w with
    | nil => exact hp.1 hword.symm
    | cons c w =>
      cases hw
      have letter : foldCase ';' ∈ plainLetters := hp.2 _ (by rw [← hword]; simp)
      revert letter
      decide

theorem exists_opens_of_dropBegin? (h : dropBegin? t = some r) :
    ∃ f, t = f ++ ';' :: r ∧ OpensTransaction f := by
  have begins : Warehouse.Header.IsPlain "begin" := by decide
  have transacts : Warehouse.Header.IsPlain "transaction" := by decide
  simp only [dropBegin?, Option.bind_eq_bind, Option.bind_eq_some_iff] at h
  obtain ⟨s, hs, h⟩ := h
  obtain ⟨b, w, rfl, hb, hw⟩ := exists_of_dropWord?_trimStart hs
  split at h
  · rename_i r' hr
    cases h
    obtain ⟨d, hd, gap⟩ := exists_of_trimStart_eq hr
    cases hspaced : Text.dropSpacedWord? "transaction".toList s with
    | none =>
      rw [hspaced, Option.getD_none] at hd
      exact ⟨b ++ (w ++ d), by simp [hd], .inl (commandWords_word begins hb hw gap)⟩
    | some q =>
      rw [hspaced, Option.getD_some] at hd
      obtain ⟨a, w', rfl, hne, ha, hw'⟩ := Text.exists_of_dropSpacedWord? hspaced
      refine ⟨b ++ (w ++ (a ++ (w' ++ d))), by simp [hd], .inr ?_⟩
      rw [commandWords_word_append begins hb hw, commandWords_word transacts ha hw' gap]
      intro c hc
      rw [List.head?_append_of_ne_nil _ hne] at hc
      exact ha c (List.mem_of_mem_head? hc)
  · cases h

theorem dropBegin?_append (h : OpensTransaction f) (r : List Char) :
    dropBegin? (f ++ ';' :: r) = some r := by
  have begins : Warehouse.Header.IsPlain "begin" := by decide
  have transacts : Warehouse.Header.IsPlain "transaction" := by decide
  rcases h with h | h
  · obtain ⟨b, w, d, rfl, hb, -, -, -, hw, hd⟩ := commandWords_eq_cons_iff.mp h
    have gap := commandWords_eq_nil_iff.mp hd
    have text : b ++ (w ++ d) ++ ';' :: r = b ++ (w ++ (d ++ ';' :: r)) := by simp
    rw [text, dropBegin?, dropWord?_trimStart begins hb hw, Option.bind_eq_bind, Option.bind_some,
      dropSpacedWord?_semicolon transacts gap, Option.getD_none]
    simp only [trimStart_blanks_cons gap (c := ';') (by decide)]
  · obtain ⟨b, w, d, rfl, hb, -, -, hd, hw, hrest⟩ := commandWords_eq_cons_iff.mp h
    obtain ⟨a, w', e, rfl, ha, hne, solid, -, hw', he⟩ := commandWords_eq_cons_iff.mp hrest
    have gap := commandWords_eq_nil_iff.mp he
    -- the first word ends where blanks stand, so that the second one is a word of its own
    have apart : a ≠ [] := by
      rintro rfl
      obtain ⟨c, w', rfl⟩ := List.exists_cons_of_ne_nil hne
      have := hd c rfl
      rw [solid c List.mem_cons_self] at this
      cases this
    have text : b ++ (w ++ (a ++ (w' ++ e))) ++ ';' :: r =
        b ++ (w ++ (a ++ (w' ++ (e ++ ';' :: r)))) := by simp
    rw [text, dropBegin?, dropWord?_trimStart begins hb hw, Option.bind_eq_bind, Option.bind_some,
      ViewDef.dropSpacedWord?_append transacts apart ha hw', Option.getD_some]
    simp only [trimStart_blanks_cons gap (c := ';') (by decide)]

/-- The text is freed from a `BEGIN` in front exactly when that ends with a semicolon. -/
theorem dropBegin?_eq_some_iff :
    dropBegin? t = some r ↔ ∃ f, t = f ++ ';' :: r ∧ OpensTransaction f := by
  refine ⟨exists_opens_of_dropBegin?, ?_⟩
  rintro ⟨f, rfl, opens⟩
  exact dropBegin?_append opens r

theorem isCommit_iff : isCommit v ↔ ∃ w, ClosesTransaction w ∧
    (v = w ∨ ∃ b, (∀ c ∈ b, isBlank c) ∧ v = w ++ ';' :: b) := by
  have commits : Warehouse.Header.IsPlain "commit" := by decide
  constructor
  · intro h
    rw [isCommit] at h
    split at h
    · cases h
    · rename_i s hs
      obtain ⟨b, w, rfl, hb, hw⟩ := exists_of_dropWord?_trimStart hs
      split at h
      · rename_i none
        have gap : ∀ c ∈ s, isBlank c := List.dropWhile_eq_nil_iff.mp none
        exact ⟨_, commandWords_word commits hb hw gap, .inl rfl⟩
      · rename_i r hr
        obtain ⟨d, rfl, gap⟩ := exists_of_trimStart_eq hr
        refine ⟨_, commandWords_word commits hb hw gap, .inr ⟨r, ?_, by simp⟩⟩
        exact List.dropWhile_eq_nil_iff.mp (List.isEmpty_iff.mp h)
      · cases h
  · rintro ⟨w, hw, hv⟩
    obtain ⟨b, k, d, rfl, hb, -, -, -, hk, hd⟩ := commandWords_eq_cons_iff.mp hw
    have gap := commandWords_eq_nil_iff.mp hd
    have none : trimStart d = [] := List.dropWhile_eq_nil_iff.mpr gap
    rcases hv with rfl | ⟨e, he, rfl⟩
    · rw [isCommit, dropWord?_trimStart commits hb hk]
      simp only [none]
    · have text : b ++ (k ++ d) ++ ';' :: e = b ++ (k ++ (d ++ ';' :: e)) := by simp
      have behind : trimStart e = [] := List.dropWhile_eq_nil_iff.mpr he
      rw [text, isCommit, dropWord?_trimStart commits hb hk]
      simp only [trimStart_blanks_cons gap (c := ';') (by decide), behind, List.isEmpty_nil]

/-! ### Commands among the statements -/

theorem quote_mem_solid : '\'' ∈ solid s ↔ '\'' ∈ s := by
  have gap : ∀ p : Piece, '\'' ∈ p.text → p.isGap = false := by
    rintro (c | body) hp
    · obtain rfl : '\'' = c := by simpa [Piece.text] using hp
      rfl
    · rfl
  conv_rhs => rw [← flatMap_text_pieces s]
  rw [solid, core, List.mem_flatMap, List.mem_flatMap]
  constructor
  · rintro ⟨p, hp, hq⟩
    exact ⟨p, (List.mem_filter.mp hp).1, hq⟩
  · rintro ⟨p, hp, hq⟩
    exact ⟨p, List.mem_filter.mpr ⟨hp, by simp [gap p hq]⟩, hq⟩

theorem quote_mem_statement : '\'' ∈ statement f ↔ '\'' ∈ f := by
  rw [← quote_mem_solid, solid, core_statement, ← solid, quote_mem_solid]

theorem sameWords_joinLines (s : List Char) : SameWords s (joinLines .code s) := by
  have h := linesJoined s
  generalize joinLines .code s = r at h
  induction h with
  | nil => exact .refl []
  | code _ _ _ _ ih => exact ih.cons _
  | newline _ ih => exact ih.blank (by decide) (by decide)
  | carriage _ ih => exact ih.blanks (by decide) (by decide)
  | literal _ _ ih => exact ((ih.cons _).append _).cons _
  | opened _ _ _ ih => exact ih.cons _

theorem Undivided.isPlainCode (hs : Undivided s) (hq : '\'' ∉ s) : IsPlainCode s := by
  rw [undivided_iff (closed_of_not_mem hq), pieces_code hq] at hs
  intro c hc
  refine ⟨?_, ?_⟩
  · rintro rfl
    exact hq hc
  · rintro rfl
    exact hs (List.mem_map_of_mem hc)

theorem commandWords_statement (hu : Undivided f) (hq : '\'' ∉ f) :
    commandWords (statement f) = commandWords f := by
  have quotes : '\'' ∉ joinLines .code f := by
    rw [← quote_mem_solid, solid, (linesJoined f).core_eq, ← solid, quote_mem_solid]
    exact hq
  have plain : IsPlainCode (joinLines .code f) := (undivided_joinLines hu).isPlainCode quotes
  rw [commandWords, statement, joinSemicolons_plain plain, words_trim,
    ← (sameWords_joinLines f).words_eq, commandWords]

theorem commandWords_statement_eq_iff {ks : List (List Char)} (hks : ArePlain ks) (hu : Undivided f) :
    commandWords (statement f) = ks ↔ commandWords f = ks := by
  by_cases hq : '\'' ∈ f
  · constructor
    · rintro rfl
      exact absurd (quote_mem_statement.mpr hq) (isPlainCode_of_commandWords hks).not_mem
    · rintro rfl
      exact absurd hq (isPlainCode_of_commandWords hks).not_mem
  · rw [commandWords_statement hu hq]

theorem opensTransaction_statement_iff (hu : Undivided f) :
    OpensTransaction (statement f) ↔ OpensTransaction f := by
  rw [OpensTransaction, commandWords_statement_eq_iff (by decide) hu,
    commandWords_statement_eq_iff (by decide) hu, OpensTransaction]

theorem closesTransaction_statement_iff (hu : Undivided f) :
    ClosesTransaction (statement f) ↔ ClosesTransaction f :=
  commandWords_statement_eq_iff (by decide) hu

theorem statement_eq_nil_iff (hu : Undivided f) : statement f = [] ↔ ∀ c ∈ f, isBlank c := by
  by_cases hq : '\'' ∈ f
  · refine iff_of_false ?_ ?_
    · intro h
      have := quote_mem_statement.mpr hq
      rw [h] at this
      cases this
    · intro h
      have := h _ hq
      revert this
      decide
  · rw [← commandWords_eq_nil_iff, ← commandWords_statement hu hq, commandWords_eq_nil_iff]
    refine ⟨fun h => by simp [h], fun h => ?_⟩
    rw [statement, ← Text.trim_trim, ← statement, Text.trim_blanks h]

end EtlFlow.Sql
