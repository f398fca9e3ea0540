import EtlFlow.Proofs.Sql.Lookahead
import EtlFlow.Proofs.Sql.Spans
import EtlFlow.Proofs.Sql.Words
/-!
# The texts that words are read from

A word in quotes is kept without its delimiters and with every doubled delimiter once.  `Spells` gives
the texts that it is read from, and they are read as this word alone (`spells_of_step`,
`Spells.reads`).  So every word has a text that is read as it (`exists_scan_eq_word`).

A word is shown by its value alone or, as a name, with its opening delimiter on both sides.  The value
is read as the same word exactly when the word has no quotes (`scan_value_iff`).  The name is read so
exactly when the quotes are no brackets and do not stand in the value (`scan_nameText_iff`).
-/

namespace EtlFlow.Sql.Token

open Text (isBlank trimStart exists_of_trimStart_eq trimStart_blanks_cons)
open Outcome (map_eq_ok_iff)

variable {c q : Char} {p r s v : List Char} {ts : List Token}

/-! ### Words in quotes -/

/-- The character starts a name in brackets. -/
def startsBracketed (c : Char) : Bool := startsWord c || c == '#'

/-- The texts of a word in quotes, by its opening delimiter and its value.  A name in double quotes may
stand in brackets, with blanks around it, and keeps these quotes. -/
inductive Spells : Char → List Char → List Char → Prop where
  | quotes {q : Char} {v : List Char} : q = '"' ∨ q = '`' → Spells q v (q :: (doubled q v ++ [q]))
  | brackets {v : List Char} : (trimStart v).head?.any startsBracketed →
      Spells '[' v ('[' :: (doubled ']' v ++ [']']))
  | nested {a b v : List Char} : (∀ c ∈ a, isBlank c) → (∀ c ∈ b, isBlank c) →
      Spells '[' ('"' :: (v ++ ['"'])) ('[' :: (a ++ '"' :: (doubled '"' v ++ '"' :: (b ++ [']']))))

/-- A text ends with the closing delimiter. -/
theorem Spells.getLast?_eq (h : Spells q v p) : p.getLast? = some (closingQuote q) := by
  cases h with
  | quotes quote =>
    rw [← List.cons_append, List.getLast?_concat]
    rcases quote with rfl | rfl <;> rfl
  | brackets =>
    rw [← List.cons_append, List.getLast?_concat]
    rfl
  | @nested a b v =>
    have text : '[' :: (a ++ '"' :: (doubled '"' v ++ '"' :: (b ++ [']']))) =
        '[' :: (a ++ '"' :: (doubled '"' v ++ '"' :: b)) ++ [']'] := by simp
    rw [text, List.getLast?_concat]
    rfl

/-- The first character behind blanks is the closing bracket in both texts, or the same one. -/
theorem head?_trimStart_doubled (v r : List Char) :
    (trimStart (doubled ']' v ++ ']' :: r)).head?.any startsBracketed =
      (trimStart v).head?.any startsBracketed := by
  have solid {c : Char} (hc : isBlank c = false) (s : List Char) : trimStart (c :: s) = c :: s :=
    List.dropWhile_cons_of_neg (by simp [hc])
  have bracket (s : List Char) : trimStart (']' :: s) = ']' :: s := solid (by decide) s
  induction v with
  | nil =>
    rw [doubled_nil, List.nil_append, bracket]
    rfl
  | cons c v ih =>
    by_cases hc : c = ']'
    · subst hc
      rw [doubled_cons_self, List.cons_append, bracket, bracket]
      rfl
    · rw [doubled_cons_of_ne hc, List.cons_append]
      cases hb : isBlank c with
      | false =>
        rw [solid hb, solid hb]
        rfl
      | true =>
        rw [trimStart, List.dropWhile_cons_of_pos hb, ← trimStart, ih, trimStart, trimStart,
          List.dropWhile_cons_of_pos hb]

/-! ### What a step reads a word from -/

/-- A word in quotes is spelled by what stands in `x` before `r`. -/
def IsSpelled (x : List Char) (t : Token) (r : List Char) : Prop :=
  ∀ v q, t = .word v (some q) → ∃ p, x = p ++ r ∧ Spells q v.toList p

theorem finds_spelled_bracket (s : List Char) : Finds (IsSpelled ('[' :: s)) (bracketStep s) := by
  unfold bracketStep
  split
  · rename_i inner hinner
    split
    · exact finds_error
    · rename_i v u hu
      split
      · rename_i z hz
        refine finds_some ?_
        rintro _ _ ⟨⟩
        obtain ⟨a, rfl, ha⟩ := exists_of_trimStart_eq hinner
        obtain ⟨rfl, -⟩ := readName_eq_some_iff.mp hu
        obtain ⟨b, rfl, hb⟩ := exists_of_trimStart_eq hz
        rw [String.toList_ofList]
        exact ⟨_, by simp, .nested ha hb⟩
      · exact finds_error
  · rename_i c z _ hz
    refine finds_ite (fun word => finds_closed fun v r found => ?_) fun _ => finds_some nofun
    rintro _ _ ⟨⟩
    obtain ⟨rfl, -⟩ := readName_eq_some_iff.mp found
    have first := head?_trimStart_doubled v r
    rw [hz] at first
    rw [String.toList_ofList]
    exact ⟨_, by simp, .brackets (first.symm.trans word)⟩
  · exact finds_some nofun

/-- What a step reads a word in quotes from spells it. -/
theorem spells_of_step {v : String} (h : step c s = .ok (some (.word v (some q)), r)) :
    ∃ p, c :: s = p ++ r ∧ Spells q v.toList p := by
  have spelled : Finds (IsSpelled (c :: s)) (step c s) := by
    refine finds_of_ordinary (fun t r ordinary => ?_) (fun _ => nofun) (fun quote => ?_) fun bracket => ?_
    · rintro _ _ rfl
      cases ordinary
    · refine finds_closed fun v r found => ?_
      rintro _ _ ⟨⟩
      obtain ⟨rfl, -⟩ := readName_eq_some_iff.mp found
      rw [String.toList_ofList]
      exact ⟨_, by simp, .quotes quote⟩
    · subst bracket
      exact finds_spelled_bracket s
  exact spelled _ _ h v q rfl

/-- A text that spells a word is read as the word where its delimiter does not follow. -/
theorem Spells.reads (h : Spells q v p) (hr : r.head? ≠ some (closingQuote q)) :
    Reads (p ++ r) [.word (String.ofList v) (some q)] r := by
  have bracket {u : List Char} (hu : bracketStep u = .ok (some (.word (String.ofList v) (some '[')), r)) :
      Reads ('[' :: u) [.word (String.ofList v) (some '[')] r := by
    refine reads_of_step (t := some _) ?_
    rw [← hu]
    simp [step, isBlank]
  cases h with
  | quotes quote =>
    have value : readName q (doubled q v ++ q :: r) = some (v, r) := by
      refine readName_eq_some_iff.mpr ⟨rfl, ?_⟩
      rcases quote with rfl | rfl <;> exact hr
    rw [List.cons_append, List.append_assoc, List.singleton_append]
    refine reads_of_step (t := some _) ?_
    rcases quote with rfl | rfl <;> simp [step, isBlank, value, closed]
  | brackets start =>
    have value : readName ']' (doubled ']' v ++ ']' :: r) = some (v, r) :=
      readName_eq_some_iff.mpr ⟨rfl, hr⟩
    obtain ⟨d, hd, word⟩ := (Option.any_eq_true _ _).mp ((head?_trimStart_doubled v r).trans start)
    obtain ⟨z, hz⟩ := List.head?_eq_some_iff.mp hd
    have unquoted : d ≠ '"' := by
      rintro rfl
      exact absurd word (by decide)
    rw [List.cons_append, List.append_assoc, List.singleton_append]
    refine bracket ?_
    rw [bracketStep_eq hz unquoted, ← startsBracketed, if_pos word, value]
    rfl
  | @nested a b v ha hb =>
    have close := trimStart_blanks_cons hb (c := ']') (by decide) r
    have quote := trimStart_blanks_cons ha (c := '"') (by decide) (doubled '"' v ++ '"' :: (b ++ ']' :: r))
    have value : readName '"' (doubled '"' v ++ '"' :: (b ++ ']' :: r)) = some (v, b ++ ']' :: r) := by
      refine readName_eq_some_iff.mpr ⟨rfl, ?_⟩
      cases b with
      | nil => simp
      | cons d b =>
        rintro ⟨⟩
        exact absurd (hb '"' (List.mem_cons_self ..)) (by decide)
    have text : '[' :: (a ++ '"' :: (doubled '"' v ++ '"' :: (b ++ [']']))) ++ r =
        '[' :: (a ++ '"' :: (doubled '"' v ++ '"' :: (b ++ ']' :: r))) := by simp
    rw [text]
    refine bracket ?_
    simp only [bracketStep, quote, value, close, List.cons_append]

/-! ### Words of a text -/

/-- The token of a text is found by a step in it. -/
theorem exists_step_of_mem {t : Token} (h : scanChars s = .ok ts) (ht : t ∈ ts) :
    ∃ c q r, step c q = .ok (some t, r) ∧ c :: q <:+ s := by
  fun_induction scanChars s generalizing ts with
  | case1 =>
    cases h
    cases ht
  | case2 => cases h
  | case3 c s u r hstep ih =>
    obtain ⟨us, hus, rfl⟩ := map_eq_ok_iff.mp h
    rcases List.mem_append.mp ht with ht | ht
    · rw [Option.mem_toList] at ht
      exact ⟨c, s, r, by rw [hstep, ht], List.suffix_rfl⟩
    · obtain ⟨d, q, r', hd, suffix⟩ := ih hus ht
      exact ⟨d, q, r', hd, (suffix.trans (step_suffix hstep)).trans (List.suffix_cons c s)⟩

/-- A word in quotes that a text has is spelled somewhere in it. -/
theorem exists_spells_of_mem {v : String} (h : scanChars s = .ok ts) (ht : .word v (some q) ∈ ts) :
    ∃ p, Spells q v.toList p := by
  obtain ⟨c, u, r, hstep, -⟩ := exists_step_of_mem h ht
  obtain ⟨p, -, spells⟩ := spells_of_step hstep
  exact ⟨p, spells⟩

/-- The text that a bare word is read from is its value. -/
theorem scan_value {v : String} (h : scanChars s = .ok ts) (ht : .word v none ∈ ts) :
    scan v = .ok [.word v none] := by
  obtain ⟨c, u, r, hstep, -⟩ := exists_step_of_mem h ht
  obtain ⟨p, rfl, again⟩ := localStep_step c _ _ _ hstep []
    (.of_stops (by simp [Stops]) fun _ => rfl) nofun
  obtain ⟨value, -⟩ := (shows_step c _).token _ _ hstep
  have own : v.toList = c :: p := List.append_cancel_right (value.trans (List.cons_append ..).symm)
  have read := reads_of_step again
  rw [List.append_nil, ← own] at read
  exact read.scan

/-- Every word of a text is the only token of some text. -/
theorem exists_scan_eq_word {v : String} {q : Option Char} (h : scanChars s = .ok ts)
    (ht : .word v q ∈ ts) : ∃ x, scan x = .ok [.word v q] := by
  cases q with
  | none => exact ⟨v, scan_value h ht⟩
  | some q =>
    obtain ⟨p, spells⟩ := exists_spells_of_mem h ht
    have read := spells.reads (r := []) (by simp)
    rw [List.append_nil, String.ofList_toList, ← String.toList_ofList (l := p)] at read
    exact ⟨String.ofList p, read.scan⟩

/-- The value of a word of a text is read as this word exactly when the word has no quotes. -/
theorem scan_value_iff {v : String} {q : Option Char} (h : scanChars s = .ok ts)
    (ht : .word v q ∈ ts) : scan v = .ok [.word v q] ↔ q = none := by
  constructor
  · intro again
    cases q with
    | none => rfl
    | some q =>
      -- a word in quotes is longer than its value
      obtain ⟨c, u, r, hstep, suffix⟩ := exists_step_of_mem again (List.mem_singleton_self _)
      have short : v.toList.length + r.length < u.length := finds_step c u _ _ hstep
      have long := suffix.length_le
      rw [List.length_cons] at long
      omega
  · rintro rfl
    exact scan_value h ht

/-! ### Names -/

/-- The value between two opening delimiters spells the word exactly when these are no brackets and do
not stand in the value. -/
theorem Spells.shown_iff (h : Spells q v p) :
    Spells q v (q :: (v ++ [q])) ↔ q ≠ '[' ∧ q ∉ v := by
  constructor
  · intro shown
    have last := shown.getLast?_eq
    rw [← List.cons_append, List.getLast?_concat, Option.some.injEq] at last
    have bracket : q ≠ '[' := by
      rintro rfl
      exact absurd last (by decide)
    generalize hx : q :: (v ++ [q]) = x at shown
    cases shown with
    | quotes =>
      have same := List.append_cancel_right (List.cons.inj hx).2
      exact ⟨bracket, doubled_eq_self_iff.mp same.symm⟩
    | brackets | nested => exact absurd rfl bracket
  · rintro ⟨bracket, hv⟩
    have same := doubled_eq_self_iff.mpr hv
    cases h with
    | quotes quote =>
      have shown := Spells.quotes (v := v) quote
      rwa [same] at shown
    | brackets | nested => exact absurd rfl bracket

/-- The name that a word of a text stands for is read as this word exactly when the word has no quotes,
or quotes other than brackets that do not stand in its value. -/
theorem scan_nameText_iff {sql v : String} {q : Option Char} (h : scan sql = .ok ts)
    (ht : .word v q ∈ ts) :
    scan (nameText v q) = .ok [.word v q] ↔ ∀ d ∈ q, d ≠ '[' ∧ d ∉ v.toList := by
  cases q with
  | none => simpa [nameText] using scan_value h ht
  | some q =>
    obtain ⟨p, spells⟩ := exists_spells_of_mem h ht
    simp only [Option.mem_def, Option.some.injEq, forall_eq', ← spells.shown_iff]
    have text : (nameText v (some q)).toList = q :: (v.toList ++ [q]) := by simp [nameText]
    constructor
    · intro again
      -- a word in quotes is longer than its value by two characters, so the step reads the whole name
      obtain ⟨c, u, r, hstep, suffix⟩ := exists_step_of_mem again (List.mem_singleton_self _)
      have short : v.toList.length + r.length < u.length := finds_step c u _ _ hstep
      have long := suffix.length_le
      rw [text] at suffix long
      simp only [List.length_cons, List.length_append, List.length_nil] at long
      have nothing : r = [] := List.eq_nil_of_length_eq_zero (by omega)
      have whole : c :: u = q :: (v.toList ++ [q]) := suffix.eq_of_length_le (by
        simp only [List.length_cons, List.length_append, List.length_nil]
        omega)
      obtain ⟨p', found, shown⟩ := spells_of_step hstep
      rw [whole, nothing, List.append_nil] at found
      exact found ▸ shown
    · intro shown
      have read := shown.reads (r := []) (by simp)
      rw [List.append_nil, ← text, String.ofList_toList] at read
      exact read.scan

/-- A name in backticks may hold other quotes and a closing bracket. -/
theorem scan_nameText_price :
    scan "SELECT `unit \"price\"]` FROM #staging" = .ok [.word "SELECT" none,
      .word "unit \"price\"]" (some '`'), .word "FROM" none, .word "#staging" none] ∧
    scan (nameText "unit \"price\"]" (some '`')) = .ok [.word "unit \"price\"]" (some '`')] := by
  have tokens : scan "SELECT `unit \"price\"]` FROM #staging" = .ok [.word "SELECT" none,
      .word "unit \"price\"]" (some '`'), .word "FROM" none, .word "#staging" none] := by
    decide +kernel
  have allowed : ∀ d ∈ some '`', d ≠ '[' ∧ d ∉ "unit \"price\"]".toList := by
    rintro _ ⟨⟩
    decide +kernel
  exact ⟨tokens, (scan_nameText_iff tokens (by decide)).mpr allowed⟩

/-- A quote in a name is not doubled again, so the name is not closed or another one is read, and
brackets are not closed at all. -/
theorem scan_nameText_ne :
    (scan "\"a\"\"b\"" = .ok [.word "a\"b" (some '"')] ∧
      scan (nameText "a\"b" (some '"')) = .error (.openName '"')) ∧
    (scan "\"a\"\"\"\"b\"" = .ok [.word "a\"\"b" (some '"')] ∧
      scan (nameText "a\"\"b" (some '"')) = .ok [.word "a\"b" (some '"')]) ∧
    (scan "[c]" = .ok [.word "c" (some '[')] ∧
      scan (nameText "c" (some '[')) = .error (.openName ']')) := by
  decide +kernel

end EtlFlow.Sql.Token
