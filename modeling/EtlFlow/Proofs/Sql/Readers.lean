import EtlFlow.Proofs.Sql.Scan
import Mathlib.Data.List.Basic
import Mathlib.Data.List.TakeWhile
/-!
# Readers that look no further than a stop

A token ends where the text behind it lets it end, so what reads it looks at characters that it leaves
there.  The readers of texts, names and numbers never look past a blank or a semicolon (`Local`,
`LocalFront`): what they read is read again in front of every text that goes on in the same way up to
where it stops (`Resumes`).
-/

namespace EtlFlow.Sql.Token

open Text (isBlank trimStart)

variable {r r' s : List Char} {c : Char}

/-! ### Texts that go on in the same way -/

/-- A blank or a semicolon. -/
def isStop (c : Char) : Bool := isBlank c || c == ';'

/-- The text is at its end or at a blank or a semicolon. -/
def Stops (s : List Char) : Prop := ∀ d ∈ s.head?, isStop d

/-- The second text goes on like the first one up to where it stops, and ends where the first one
ends. -/
def Resumes (r r' : List Char) : Prop :=
  ∃ w x y, r = w ++ x ∧ r' = w ++ y ∧ Stops y ∧ (x = [] → y = [])

theorem isStop_iff : isStop c ↔ isBlank c ∨ c = ';' := by
  simp [isStop]

theorem inWord_of_isStop (h : isStop c) : inWord c = false := by
  rcases isStop_iff.mp h with h | rfl
  · exact inWord_of_isBlank h
  · decide

/-- What no code of a blank has and no semicolon, no stop has. -/
theorem false_of_isStop {p : Char → Bool} (table : ∀ n ∈ blankCodes, p (Char.ofNat n) = false)
    (semicolon : p ';' = false) (h : isStop c) : p c = false := by
  rcases isStop_iff.mp h with h | rfl
  · have := table _ (mem_blankCodes h)
    rwa [Char.ofNat_toNat] at this
  · exact semicolon

theorem ne_of_isStop {q : Char} (hq : isStop q = false) (h : isStop c) : c ≠ q := by
  rintro rfl
  rw [h] at hq
  cases hq

namespace Resumes

theorem append (h : Resumes r r') (p : List Char) : Resumes (p ++ r) (p ++ r') := by
  obtain ⟨w, x, y, rfl, rfl, hy, hx⟩ := h
  exact ⟨p ++ w, x, y, (List.append_assoc ..).symm, (List.append_assoc ..).symm, hy, hx⟩

theorem eq_nil (h : Resumes [] r') : r' = [] := by
  obtain ⟨w, x, y, hr, rfl, -, hx⟩ := h
  obtain ⟨rfl, rfl⟩ := List.append_eq_nil_iff.mp hr.symm
  exact hx rfl

theorem of_stops (h : Stops r') (hr : r = [] → r' = []) : Resumes r r' := ⟨[], r, r', rfl, rfl, h, hr⟩

/-- What holds of the next character and of every stop holds of the next character again. -/
theorem head (h : Resumes r r') {p : Char → Prop} (hr : ∀ d ∈ r.head?, p d)
    (hs : ∀ d, isStop d → p d) : ∀ d ∈ r'.head?, p d := by
  obtain ⟨w, x, y, rfl, rfl, hy, -⟩ := h
  cases w with
  | nil => exact fun d hd => hs d (hy d hd)
  | cons c w => exact hr

theorem head_ne (h : Resumes r r') {q : Char} (hr : r.head? ≠ some q) (hq : isStop q = false) :
    r'.head? ≠ some q := by
  intro hr'
  refine h.head (p := (· ≠ q)) (fun d hd => ?_) (fun d hd => ne_of_isStop hq hd) q hr' rfl
  rintro rfl
  exact hr hd

end Resumes

/-! ### Readers that look no further -/

/-- What is read is not empty and is read again in front of every text that resumes the rest. -/
def Local {α : Type} (read : List Char → Option (α × List Char)) : Prop :=
  ∀ s v r, read s = some (v, r) → ∀ r', Resumes r r' →
    ∃ p, p ≠ [] ∧ s = p ++ r ∧ read (p ++ r') = some (v, r')

theorem takeWhile_exact {p : Char → Bool} {w : List Char} (hw : ∀ d ∈ w, p d)
    (hr : ∀ d ∈ r.head?, p d = false) : (w ++ r).takeWhile p = w ∧ (w ++ r).dropWhile p = r := by
  rw [List.takeWhile_append_of_pos hw, List.dropWhile_append_of_pos hw]
  cases r with
  | nil => simp
  | cons d r => simp [hr d rfl]

theorem head?_dropWhile {p : Char → Bool} (s : List Char) :
    ∀ d ∈ (s.dropWhile p).head?, p d = false := by
  intro d hd
  have := List.head?_dropWhile_not p s
  rw [Option.mem_def.mp hd] at this
  simpa using this

theorem readText_cons (hb : c ≠ '\\') (hq : c ≠ '\'') (s : List Char) :
    readText (c :: s) = (readText s).map fun (v, r) => (c :: v, r) := by
  rw [readText.eq_def]
  split <;> simp_all

theorem readText_end (hr : r.head? ≠ some '\'') : readText ('\'' :: r) = some ([], r) := by
  cases r with
  | nil => simp [readText]
  | cons d r =>
    have : d ≠ '\'' := by simpa using hr
    rw [readText.eq_def]
    split <;> grind

theorem local_readText : Local readText := by
  intro s v r h
  fun_induction readText s generalizing v r with
  | case1 => cases h
  | case2 c s ih =>
    simp only [Option.map_eq_some_iff, Prod.exists, Prod.mk.injEq] at h
    obtain ⟨v', _, h', rfl, rfl⟩ := h
    intro r' hr
    obtain ⟨p, -, rfl, hp⟩ := ih _ _ h' r' hr
    exact ⟨'\\' :: c :: p, by simp, rfl, by simp [readText, hp]⟩
  | case3 s ih =>
    simp only [Option.map_eq_some_iff, Prod.exists, Prod.mk.injEq] at h
    obtain ⟨v', _, h', rfl, rfl⟩ := h
    intro r' hr
    obtain ⟨p, -, rfl, hp⟩ := ih _ _ h' r' hr
    exact ⟨'\'' :: '\'' :: p, by simp, rfl, by simp [readText, hp]⟩
  | case4 s hs =>
    cases h
    intro r' hr
    have next : s.head? ≠ some '\'' := by
      cases s with
      | nil => simp
      | cons d s =>
        rintro ⟨⟩
        exact hs s rfl
    exact ⟨['\''], by simp, rfl, readText_end (hr.head_ne next (by decide))⟩
  | case5 c s escape double quote ih =>
    simp only [Option.map_eq_some_iff, Prod.exists, Prod.mk.injEq] at h
    obtain ⟨v', _, h', rfl, rfl⟩ := h
    intro r' hr
    obtain ⟨p, -, rfl, hp⟩ := ih _ _ h' r' hr
    have hb : c ≠ '\\' := by
      rintro rfl
      cases hs : p ++ _ with
      | nil =>
        rw [hs] at h'
        cases h'
      | cons d q => exact escape d q rfl hs
    exact ⟨c :: p, by simp, rfl, by rw [List.cons_append, readText_cons hb quote, hp]; rfl⟩

/-- The text with every copy of `q` twice. -/
def doubled (q : Char) (v : List Char) : List Char := v.flatMap fun c => if c = q then [q, q] else [c]

section doubled

variable {q : Char} {v : List Char}

@[simp]
theorem doubled_nil (q : Char) : doubled q [] = [] := rfl

theorem doubled_cons_self (q : Char) (v : List Char) : doubled q (q :: v) = q :: q :: doubled q v := by
  simp [doubled]

theorem doubled_cons_of_ne (h : c ≠ q) (v : List Char) : doubled q (c :: v) = c :: doubled q v := by
  simp [doubled, h]

theorem length_doubled (q : Char) (v : List Char) : (doubled q v).length = v.length + v.count q := by
  induction v with
  | nil => rfl
  | cons c v ih =>
    by_cases h : c = q
    · subst h
      rw [doubled_cons_self, List.length_cons, List.length_cons, ih, List.count_cons_self,
        List.length_cons]
      omega
    · rw [doubled_cons_of_ne h, List.length_cons, ih, List.count_cons_of_ne h, List.length_cons]
      omega

theorem doubled_eq_self_iff : doubled q v = v ↔ q ∉ v := by
  constructor
  · intro h
    have length := length_doubled q v
    rw [h] at length
    exact List.count_eq_zero.mp (by omega)
  · intro h
    induction v with
    | nil => rfl
    | cons c v ih =>
      rw [List.mem_cons, not_or] at h
      rw [doubled_cons_of_ne (Ne.symm h.1), ih h.2]

end doubled

theorem readName_end {q : Char} (hr : r.head? ≠ some q) : readName q (q :: r) = some ([], r) := by
  cases r with
  | nil => simp [readName]
  | cons d r =>
    have : d ≠ q := by simpa using hr
    simp [readName, this]

theorem readName_cons {q : Char} (hc : c ≠ q) (s : List Char) :
    readName q (c :: s) = (readName q s).map fun (v, r) => (c :: v, r) := by
  cases s with
  | nil => simp [readName, hc]
  | cons d s => rw [readName, if_neg hc]

/-- A name is read up to its first delimiter that is not doubled. -/
theorem readName_eq_some_iff {q : Char} {v : List Char} :
    readName q s = some (v, r) ↔ s = doubled q v ++ q :: r ∧ r.head? ≠ some q := by
  constructor
  · intro h
    fun_induction readName q s generalizing v r with
    | case1 => cases h
    | case2 =>
      cases h
      exact ⟨rfl, by simp⟩
    | case3 => cases h
    | case4 s ih =>
      simp only [Option.map_eq_some_iff, Prod.exists, Prod.mk.injEq] at h
      obtain ⟨v', _, h', rfl, rfl⟩ := h
      obtain ⟨rfl, next⟩ := ih h'
      rw [doubled_cons_self]
      exact ⟨rfl, next⟩
    | case5 d s hd =>
      cases h
      exact ⟨rfl, by simpa using hd⟩
    | case6 c d s hc ih =>
      simp only [Option.map_eq_some_iff, Prod.exists, Prod.mk.injEq] at h
      obtain ⟨v', _, h', rfl, rfl⟩ := h
      obtain ⟨hs, next⟩ := ih h'
      rw [doubled_cons_of_ne hc, hs]
      exact ⟨rfl, next⟩
  · rintro ⟨rfl, hr⟩
    induction v with
    | nil => exact readName_end hr
    | cons c v ih =>
      by_cases hc : c = q
      · subst hc
        rw [doubled_cons_self, List.cons_append, List.cons_append, readName, if_pos rfl, if_pos rfl, ih]
        rfl
      · rw [doubled_cons_of_ne hc, List.cons_append, readName_cons hc, ih]
        rfl

theorem local_readName {q : Char} (hq : isStop q = false) : Local (readName q) := by
  intro s v r h r' hr
  obtain ⟨rfl, next⟩ := readName_eq_some_iff.mp h
  refine ⟨doubled q v ++ [q], by simp, by simp, ?_⟩
  exact readName_eq_some_iff.mpr ⟨by simp, hr.head_ne next hq⟩

theorem exists_readUntil {close : List Char} (hclose : close ≠ []) {v : List Char}
    (h : readUntil close s = some (v, r)) : ∃ p, s = p ++ r ∧ close.length ≤ p.length ∧
      ∀ r', readUntil close (p ++ r') = some (v, r') := by
  fun_induction readUntil close s generalizing v r with
  | case1 => cases h
  | case2 c s hprefix =>
    cases h
    obtain ⟨z, hz⟩ := List.isPrefixOf_iff_prefix.mp hprefix
    refine ⟨close, ?_, Nat.le_refl _, fun r' => ?_⟩
    · rw [← hz, List.drop_left]
    · obtain ⟨d, q, rfl⟩ := List.exists_cons_of_ne_nil hclose
      have here : (d :: q).isPrefixOf (d :: (q ++ r')) :=
        List.isPrefixOf_iff_prefix.mpr (List.prefix_append (d :: q) r')
      rw [List.cons_append, readUntil, if_pos here, ← List.cons_append, List.drop_left]
  | case3 c s hprefix ih =>
    simp only [Option.map_eq_some_iff, Prod.exists, Prod.mk.injEq] at h
    obtain ⟨v', _, h', rfl, rfl⟩ := h
    obtain ⟨p, rfl, hlen, hp⟩ := ih h'
    refine ⟨c :: p, rfl, by simp; omega, fun r' => ?_⟩
    have later : ¬close.isPrefixOf (c :: (p ++ r')) := by
      rw [List.isPrefixOf_iff_prefix] at hprefix ⊢
      intro hc
      have inside : close <+: c :: p := List.prefix_of_prefix_length_le hc
        (List.prefix_append (c :: p) r') (by simp; omega)
      exact hprefix (inside.trans (List.prefix_append (c :: p) _))
    rw [List.cons_append, readUntil, if_neg later, hp]
    rfl

theorem local_readUntil {close : List Char} (hclose : close ≠ []) : Local (readUntil close) := by
  intro s v r h r' _
  obtain ⟨p, hs, long, hp⟩ := exists_readUntil hclose h
  refine ⟨p, ?_, hs, hp r'⟩
  rintro rfl
  exact hclose (List.length_eq_zero_iff.mp (Nat.le_zero.mp long))

/-- The first digits of a text, at most some number of them, are found again when the same character
follows. -/
theorem takeWhile_take {p : Char → Bool} (n : Nat) (s : List Char)
    (h : r'.head? = (s.drop ((s.take n).takeWhile p).length).head?) :
    (((s.take n).takeWhile p ++ r').take n).takeWhile p = (s.take n).takeWhile p := by
  induction n generalizing s with
  | zero => simp
  | succ n ih =>
    cases s with
    | nil =>
      rw [List.head?_eq_none_iff.mp h]
      simp
    | cons c s =>
      rw [List.take_succ_cons, List.takeWhile_cons] at h ⊢
      by_cases hc : p c
      · rw [if_pos hc] at h ⊢
        simpa [hc] using ih s (by simpa using h)
      · rw [if_neg hc] at h ⊢
        obtain ⟨z, rfl⟩ := List.head?_eq_some_iff.mp h
        simp [hc]

theorem takeWhile_take_append (p : Char → Bool) (n : Nat) (s : List Char) :
    (s.take n).takeWhile p ++ s.drop ((s.take n).takeWhile p).length = s := by
  obtain ⟨z, hz⟩ := (List.takeWhile_prefix (l := s.take n) p).trans (List.take_prefix n s)
  generalize (s.take n).takeWhile p = w at hz
  rw [← hz, List.drop_left]

/-- The character of a fixed number of digits is found again in front of every text. -/
theorem charOfHex_again {n : Nat} {d : Char} (hn : n ≤ s.length)
    (h : (charOfHex? (s.take n)).map (·, s.drop n) = some (d, r)) :
    s = s.take n ++ r ∧ ∀ r', n ≤ (s.take n ++ r').length ∧
      (charOfHex? ((s.take n ++ r').take n)).map (·, (s.take n ++ r').drop n) = some (d, r') := by
  simp only [Option.map_eq_some_iff, Prod.mk.injEq] at h
  obtain ⟨e, he, rfl, rfl⟩ := h
  have length : (s.take n).length = n := List.length_take_of_le hn
  refine ⟨(List.take_append_drop n s).symm, fun r' => ⟨by simp [length], ?_⟩⟩
  rw [List.take_left' length, List.drop_left' length, he]
  rfl

theorem exists_readEscape_hex {d : Char} (h : readEscape ('x' :: s) = some (d, r)) :
    ∃ p, 'x' :: s = p ++ r ∧ ∀ r', r'.head? = r.head? → readEscape (p ++ r') = some (d, r') := by
  rw [readEscape] at h
  have rest : s.drop ((s.take 2).takeWhile (isDigitIn 16)).length = r := by
    split at h
    · rename_i none
      cases h
      rw [none]
      rfl
    · obtain ⟨e, -, he⟩ := Option.map_eq_some_iff.mp h
      exact (Prod.mk.inj he).2
  refine ⟨'x' :: (s.take 2).takeWhile (isDigitIn 16), ?_, fun r' next => ?_⟩
  · rw [List.cons_append, ← rest, takeWhile_take_append]
  · have again := takeWhile_take (p := isDigitIn 16) 2 s (rest ▸ next)
    rw [List.cons_append, readEscape, again, List.drop_left]
    split at h
    · rename_i none
      cases h
      rw [if_pos none, none]
      rfl
    · obtain ⟨e, code, he⟩ := Option.map_eq_some_iff.mp h
      rw [if_neg ‹_›, code, (Prod.mk.inj he).1.symm]
      rfl

/-- An escape by a character without a meaning of its own. -/
theorem exists_readEscape_octal {d : Char} (hc : c ∉ ['b', 'f', 'n', 'r', 't', 'u', 'U', 'x'])
    (h : readEscape (c :: s) = some (d, r)) :
    ∃ p, c :: s = p ++ r ∧ ∀ r', r'.head? = r.head? → readEscape (p ++ r') = some (d, r') := by
  have plain (z : List Char) : readEscape (c :: z) = if isDigitIn 8 c then
      let ds := (z.take 2).takeWhile (isDigitIn 8)
      (charOfByte? (digitsValue 8 (c :: ds))).map (·, z.drop ds.length) else some (c, z) := by
    rw [readEscape.eq_def]
    split <;> simp_all
  rw [plain] at h
  split at h
  · rename_i digit
    obtain ⟨e, code, he⟩ := Option.map_eq_some_iff.mp h
    obtain ⟨rfl, rfl⟩ := Prod.mk.inj he
    refine ⟨c :: (s.take 2).takeWhile (isDigitIn 8), ?_, fun r' next => ?_⟩
    · rw [List.cons_append, takeWhile_take_append]
    · have again := takeWhile_take (p := isDigitIn 8) 2 s next
      rw [List.cons_append, plain, if_pos digit]
      dsimp only
      rw [again, List.drop_left, code]
      rfl
  · obtain ⟨rfl, rfl⟩ := Prod.mk.inj (Option.some.inj h)
    exact ⟨[c], rfl, fun r' _ => (plain r').trans (if_neg ‹_›)⟩

/-- An escape is read again when the same character follows. -/
theorem exists_readEscape {d : Char} (h : readEscape s = some (d, r)) :
    ∃ p, s = p ++ r ∧ ∀ r', r'.head? = r.head? → readEscape (p ++ r') = some (d, r') := by
  have whole := h
  unfold readEscape at h
  split at h
  · cases h
  · cases h
    exact ⟨['b'], rfl, fun _ _ => rfl⟩
  · cases h
    exact ⟨['f'], rfl, fun _ _ => rfl⟩
  · cases h
    exact ⟨['n'], rfl, fun _ _ => rfl⟩
  · cases h
    exact ⟨['r'], rfl, fun _ _ => rfl⟩
  · cases h
    exact ⟨['t'], rfl, fun _ _ => rfl⟩
  · rename_i u
    split at h
    · obtain ⟨cut, again⟩ := charOfHex_again ‹_› h
      refine ⟨'u' :: u.take 4, congrArg ('u' :: ·) cut, fun r' _ => ?_⟩
      rw [List.cons_append, readEscape, if_pos (again r').1, (again r').2]
    · cases h
  · rename_i u
    split at h
    · obtain ⟨cut, again⟩ := charOfHex_again ‹_› h
      refine ⟨'U' :: u.take 8, congrArg ('U' :: ·) cut, fun r' _ => ?_⟩
      rw [List.cons_append, readEscape, if_pos (again r').1, (again r').2]
    · cases h
  · exact exists_readEscape_hex whole
  · exact exists_readEscape_octal (by simp_all) whole

theorem readEscapedText_end (hr : r.head? ≠ some '\'') : readEscapedText ('\'' :: r) = some ([], r) := by
  cases r with
  | nil => simp [readEscapedText]
  | cons d r =>
    have : d ≠ '\'' := by simpa using hr
    rw [readEscapedText.eq_def]
    split <;> grind

theorem readEscapedText_cons (hb : c ≠ '\\') (hq : c ≠ '\'') (s : List Char) :
    readEscapedText (c :: s) = (readEscapedText s).map fun (v, r) => (c :: v, r) := by
  rw [readEscapedText.eq_def]
  split <;> simp_all

theorem local_readEscapedText : Local readEscapedText := by
  intro s v r h
  fun_induction readEscapedText s generalizing v r with
  | case1 => cases h
  | case2 s ih =>
    simp only [Option.map_eq_some_iff, Prod.exists, Prod.mk.injEq] at h
    obtain ⟨v', _, h', rfl, rfl⟩ := h
    intro r' hr
    obtain ⟨p, -, rfl, hp⟩ := ih _ _ h' r' hr
    exact ⟨'\'' :: '\'' :: p, by simp, rfl, by simp [readEscapedText, hp]⟩
  | case3 s hs =>
    cases h
    intro r' hr
    have next : s.head? ≠ some '\'' := by
      cases s with
      | nil => simp
      | cons d s =>
        rintro ⟨⟩
        exact hs s rfl
    exact ⟨['\''], by simp, rfl, readEscapedText_end (hr.head_ne next (by decide))⟩
  | case4 => cases h
  | case5 => cases h
  | case6 s c t he hc ih =>
    simp only [Option.map_eq_some_iff, Prod.exists, Prod.mk.injEq] at h
    obtain ⟨v', _, h', rfl, rfl⟩ := h
    intro r' hr
    obtain ⟨p, hne, ht, hp⟩ := ih _ _ h' r' hr
    obtain ⟨e, hs, again⟩ := exists_readEscape he
    have first : (p ++ r').head? = t.head? := by
      rw [ht, List.head?_append_of_ne_nil _ hne, List.head?_append_of_ne_nil _ hne]
    refine ⟨'\\' :: e ++ p, by simp, by rw [hs, ht]; simp, ?_⟩
    rw [List.cons_append, List.cons_append, List.append_assoc, readEscapedText]
    split
    · rename_i none
      rw [again _ first] at none
      cases none
    · rename_i d u found
      rw [again _ first] at found
      cases found
      rw [if_neg hc, hp]
      rfl
  | case7 c s double quote escape ih =>
    simp only [Option.map_eq_some_iff, Prod.exists, Prod.mk.injEq] at h
    obtain ⟨v', _, h', rfl, rfl⟩ := h
    intro r' hr
    obtain ⟨p, -, rfl, hp⟩ := ih _ _ h' r' hr
    exact ⟨c :: p, by simp, rfl, by rw [List.cons_append, readEscapedText_cons escape quote, hp]; rfl⟩

/-! ### Numbers -/

/-- What is read, if anything, is read again in front of every text that resumes the rest. -/
def LocalFront {α : Type} (read : List Char → α × List Char) : Prop :=
  ∀ s v r, read s = (v, r) → ∀ r', Resumes r r' → ∃ p, s = p ++ r ∧ read (p ++ r') = (v, r')

theorem isDigit_of_isStop (h : isStop c) : c.isDigit = false :=
  false_of_isStop (by decide) (by decide) h

/-- The character is the sign of an exponent. -/
def isSign (c : Char) : Bool := decide (c = '+' ∨ c = '-')

/-- An exponent stands at the front of the text. -/
def startsExponent (e : Char) (s : List Char) : Prop :=
  (e = 'e' ∨ e = 'E') ∧ (s.takeWhile isSign).length ≤ 1 ∧ (s.dropWhile isSign).head?.any Char.isDigit

instance (e : Char) (s : List Char) : Decidable (startsExponent e s) :=
  inferInstanceAs (Decidable (_ ∧ _ ∧ _))

theorem drop_length_takeWhile (p : Char → Bool) (s : List Char) :
    s.drop (s.takeWhile p).length = s.dropWhile p := by
  induction s with
  | nil => rfl
  | cons c s ih => by_cases hc : p c <;> simp [hc, ih]

theorem readExponent_cons (e : Char) (s : List Char) :
    readExponent (e :: s) = if startsExponent e s then
      (e :: s.takeWhile isSign ++ (s.dropWhile isSign).takeWhile Char.isDigit,
        (s.dropWhile isSign).dropWhile Char.isDigit)
      else ([], e :: s) := by
  have sign : isSign = fun c => decide (c = '+' ∨ c = '-') := rfl
  have split := drop_length_takeWhile isSign s
  rw [sign] at split
  simp only [readExponent, startsExponent, sign, split]

/-- Whether an exponent starts is seen before the text stops. -/
theorem not_startsExponent {e : Char} {w x y : List Char} (hy : Stops y)
    (h : ¬startsExponent e (w ++ x)) : ¬startsExponent e (w ++ y) := by
  rintro ⟨he, short, digit⟩
  have split := List.takeWhile_append_dropWhile (p := isSign) (l := w)
  have signs : ∀ d ∈ w.takeWhile isSign, isSign d := fun d hd => List.mem_takeWhile_imp hd
  cases hw : w.dropWhile isSign with
  | nil =>
    rw [hw, List.append_nil] at split
    have behind : ∀ d ∈ y.head?, isSign d = false := fun d hd =>
      false_of_isStop (by decide) (by decide) (hy d hd)
    rw [← split, (takeWhile_exact signs behind).2] at digit
    cases y with
    | nil => cases digit
    | cons d y =>
      have : d.isDigit = false := isDigit_of_isStop (hy d rfl)
      simp [this] at digit
  | cons d z =>
    have behind : isSign d = false := head?_dropWhile w d (by rw [hw]; rfl)
    have both (q : List Char) : (w ++ q).takeWhile isSign = w.takeWhile isSign ∧
        (w ++ q).dropWhile isSign = d :: (z ++ q) := by
      rw [hw] at split
      have exact := takeWhile_exact signs (r := d :: (z ++ q)) (by simpa using behind)
      rwa [← List.cons_append, ← List.append_assoc, split] at exact
    rw [(both y).1] at short
    rw [(both y).2] at digit
    exact h ⟨he, (both x).1 ▸ short, (both x).2 ▸ digit⟩

/-- An exponent is read again where no digit follows it. -/
theorem readExponent_again {e : Char} (starts : startsExponent e s)
    (behind : ∀ d ∈ r.head?, d.isDigit = false) :
    readExponent (e :: s.takeWhile isSign ++ (s.dropWhile isSign).takeWhile Char.isDigit ++ r) =
      (e :: s.takeWhile isSign ++ (s.dropWhile isSign).takeWhile Char.isDigit, r) := by
  have signs : ∀ d ∈ s.takeWhile isSign, isSign d := fun d hd => List.mem_takeWhile_imp hd
  have digits : ∀ d ∈ (s.dropWhile isSign).takeWhile Char.isDigit, d.isDigit :=
    fun d hd => List.mem_takeWhile_imp hd
  obtain ⟨d, z, hz, hd⟩ : ∃ d z, (s.dropWhile isSign).takeWhile Char.isDigit = d :: z ∧
      d.isDigit := by
    obtain ⟨-, -, digit⟩ := starts
    cases hs : s.dropWhile isSign with
    | nil =>
      rw [hs] at digit
      cases digit
    | cons d z =>
      have hd : d.isDigit := by simpa [hs] using digit
      exact ⟨d, _, List.takeWhile_cons_of_pos hd, hd⟩
  have unsigned : isSign d = false := forall_digit (p := fun d => isSign d = false) (by decide) hd
  rw [hz] at digits ⊢
  have number := takeWhile_exact digits behind
  have sign := takeWhile_exact signs (r := d :: z ++ r) (by simpa using unsigned)
  rw [List.cons_append, List.cons_append, List.append_assoc, readExponent_cons, if_pos, sign.1,
    sign.2, number.1, number.2]
  · rfl
  · refine ⟨starts.1, ?_, ?_⟩
    · rw [sign.1]
      exact starts.2.1
    · rw [sign.2]
      exact hd

theorem localFront_readExponent : LocalFront readExponent := by
  intro s v r h r' hr
  cases s with
  | nil =>
    cases h
    rw [hr.eq_nil]
    exact ⟨[], rfl, rfl⟩
  | cons e s =>
    rw [readExponent_cons] at h
    split at h
    · rename_i starts
      obtain ⟨rfl, rfl⟩ := Prod.mk.inj h
      have behind := hr.head (p := (Char.isDigit · = false)) (head?_dropWhile _)
        fun d => isDigit_of_isStop
      refine ⟨_, ?_, readExponent_again starts behind⟩
      rw [List.append_assoc, List.takeWhile_append_dropWhile, List.cons_append,
        List.takeWhile_append_dropWhile]
    · rename_i none
      obtain ⟨rfl, rfl⟩ := Prod.mk.inj h
      refine ⟨[], rfl, ?_⟩
      obtain ⟨w, x, y, hs, rfl, hy, -⟩ := hr
      cases w with
      | nil =>
        cases y with
        | nil => rfl
        | cons d y =>
          have : d ≠ 'e' ∧ d ≠ 'E' :=
            ⟨ne_of_isStop (by decide) (hy d rfl), ne_of_isStop (by decide) (hy d rfl)⟩
          rw [List.nil_append, List.nil_append, readExponent_cons,
            if_neg (by simp [startsExponent, this])]
      | cons d w =>
        obtain ⟨rfl, rfl⟩ := List.cons.inj hs
        rw [List.nil_append, List.cons_append, readExponent_cons, if_neg (not_startsExponent hy none)]

theorem localFront_finishNumber (digits : List Char) : LocalFront (finishNumber digits) := by
  intro s v r h r' hr
  have whole (z : List Char) : finishNumber digits z =
      if (readExponent z).2.head? = some 'L' then
        (.number (String.ofList (digits ++ (readExponent z).1)) true, (readExponent z).2.tail)
      else (.number (String.ofList (digits ++ (readExponent z).1)) false, (readExponent z).2) := rfl
  rw [whole] at h
  generalize he : readExponent s = x at h
  obtain ⟨exponent, u⟩ := x
  split at h
  · rename_i long
    obtain ⟨u, rfl⟩ := List.head?_eq_some_iff.mp long
    cases h
    obtain ⟨p, rfl, hp⟩ := localFront_readExponent _ _ _ he _ (hr.append ['L'])
    refine ⟨p ++ ['L'], by simp, ?_⟩
    rw [whole, List.append_assoc, hp]
    rfl
  · rename_i short
    cases h
    obtain ⟨p, rfl, hp⟩ := localFront_readExponent _ _ _ he _ hr
    refine ⟨p, rfl, ?_⟩
    rw [whole, hp]
    exact if_neg (hr.head_ne short (by decide))

/-- A run of characters is read whole when no stop belongs to it. -/
theorem localFront_span {α : Type} {p : Char → Bool} {f : List Char → List Char → α × List Char}
    (hp : ∀ d, isStop d → p d = false) (h : ∀ w, LocalFront (f w)) :
    LocalFront fun s => f (s.takeWhile p) (s.dropWhile p) := by
  intro s v r hs r' hr
  obtain ⟨q, hq, again⟩ := h _ _ _ _ hs _ hr
  have run : ∀ d ∈ s.takeWhile p, p d := fun d hd => List.mem_takeWhile_imp hd
  have behind : ∀ d ∈ (q ++ r').head?, p d = false :=
    (hr.append q).head (hq ▸ head?_dropWhile s) hp
  refine ⟨s.takeWhile p ++ q, by rw [List.append_assoc, ← hq, List.takeWhile_append_dropWhile], ?_⟩
  have exact := takeWhile_exact run behind
  dsimp only
  rw [List.append_assoc, exact.1, exact.2, again]

/-- A character is read when it comes next. -/
theorem localFront_head {α : Type} {f g : List Char → α × List Char} {q : Char}
    (hq : isStop q = false) (hf : LocalFront f) (hg : LocalFront g) :
    LocalFront fun s => if s.head? = some q then f s.tail else g s := by
  intro s v r hs r' hr
  dsimp only at hs
  split at hs
  · rename_i next
    obtain ⟨u, rfl⟩ := List.head?_eq_some_iff.mp next
    obtain ⟨p, rfl, again⟩ := hf _ _ _ hs _ hr
    exact ⟨q :: p, rfl, (if_pos rfl).trans again⟩
  · rename_i next
    obtain ⟨p, rfl, again⟩ := hg _ _ _ hs _ hr
    exact ⟨p, rfl, (if_neg ((hr.append p).head_ne next hq)).trans again⟩

theorem localFront_rest {α : Type} (v : α) : LocalFront fun s => (v, s) := by
  rintro s _ _ ⟨⟩ r' -
  exact ⟨[], rfl, rfl⟩

theorem localFront_readWord (front : List Char) : LocalFront (readWord front) :=
  localFront_span (f := fun w s => (Token.word (String.ofList (front ++ w)) none, s))
    (fun _ => inWord_of_isStop) fun _ => localFront_rest _

theorem localFront_readPeriod : LocalFront readPeriod := by
  let read (w s : List Char) : Token × List Char :=
    if w = [] then (.period, s) else finishNumber ('.' :: w) s
  have whole : readPeriod = fun s => read (s.takeWhile Char.isDigit) (s.dropWhile Char.isDigit) := by
    funext s
    have split := List.takeWhile_append_dropWhile (p := Char.isDigit) (l := s)
    dsimp only [readPeriod, read]
    split
    · rename_i none
      rw [none, List.nil_append] at split
      rw [split]
    · rfl
  rw [whole]
  refine localFront_span (fun _ => isDigit_of_isStop) fun w => ?_
  by_cases hw : w = []
  · simpa only [read, if_pos hw] using localFront_rest _
  · simpa only [read, if_neg hw] using localFront_finishNumber _

theorem localFront_readNumber (c : Char) : LocalFront (readNumber c) := by
  have hexadecimal (d : Char) : isStop d → isDigitIn 16 d = false :=
    false_of_isStop (by decide) (by decide)
  refine localFront_span (f := fun w s => if c :: w = ['0'] ∧ s.head? = some 'x' then
      (.literal .hex (String.ofList (s.tail.takeWhile (isDigitIn 16))),
        s.tail.dropWhile (isDigitIn 16))
    else if s.head? = some '.' then
      finishNumber (c :: w ++ '.' :: s.tail.takeWhile Char.isDigit) (s.tail.dropWhile Char.isDigit)
    else finishNumber (c :: w) s) (fun _ => isDigit_of_isStop) fun w => ?_
  have hex : LocalFront fun s => (Token.literal .hex (String.ofList (s.takeWhile (isDigitIn 16))),
      s.dropWhile (isDigitIn 16)) :=
    localFront_span (f := fun w s => (Token.literal .hex (String.ofList w), s)) hexadecimal
      fun _ => localFront_rest _
  have fraction : LocalFront fun s =>
      finishNumber (c :: w ++ '.' :: s.takeWhile Char.isDigit) (s.dropWhile Char.isDigit) :=
    localFront_span (f := fun v => finishNumber (c :: w ++ '.' :: v))
      (fun _ => isDigit_of_isStop) fun _ => localFront_finishNumber _
  have decimal := localFront_head (q := '.') (by decide) fraction (localFront_finishNumber (c :: w))
  by_cases zero : c :: w = ['0']
  · simpa only [zero, true_and] using localFront_head (q := 'x') (by decide) hex (zero ▸ decimal)
  · simpa only [zero, false_and, if_false] using decimal

end EtlFlow.Sql.Token
