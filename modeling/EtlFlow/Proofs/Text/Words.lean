import EtlFlow.Text.Blank
import Mathlib.Data.List.DropRight
import Mathlib.Data.List.TakeWhile
/-!
# Blanks and words

A text is its trimmed part with blanks around it (`exists_trim`), and trimming gives back a text that
neither starts nor ends with a blank from between any blanks (`trim_between`).

The words of a text stand between its blanks (`exists_words`).  Which blanks these are and how many
of them there are makes no difference (`words_trim`, `SameWords`).
-/

namespace EtlFlow.Text

variable {a b s x : List Char}

/-! ### The start -/

/-- A text is what trimming leaves of it behind blanks. -/
theorem exists_of_trimStart_eq (h : trimStart s = x) : ∃ b, s = b ++ x ∧ ∀ c ∈ b, isBlank c :=
  ⟨s.takeWhile isBlank, by rw [← h, trimStart, List.takeWhile_append_dropWhile],
    fun _ => List.mem_takeWhile_imp⟩

theorem trimStart_blanks_append (hb : ∀ c ∈ b, isBlank c) (s : List Char) :
    trimStart (b ++ s) = trimStart s := List.dropWhile_append_of_pos hb

theorem trimStart_blanks_cons {c : Char} (hb : ∀ d ∈ b, isBlank d) (hc : isBlank c = false)
    (s : List Char) : trimStart (b ++ c :: s) = c :: s := by
  rw [trimStart_blanks_append hb, trimStart, List.dropWhile_cons_of_neg (by simp [hc])]

/-! ### The end -/

theorem trimEnd_isPrefix (s : List Char) : trimEnd s <+: s := by
  rw [trimEnd, ← List.reverse_suffix, List.reverse_reverse]
  exact List.dropWhile_suffix _

theorem trimEnd_append {p s : List Char} (hp : ∀ c ∈ p.getLast?, isBlank c = false) :
    trimEnd (p ++ s) = p ++ trimEnd s := by
  have front : p.reverse.dropWhile isBlank = p.reverse := by
    cases h : p.reverse with
    | nil => rfl
    | cons c r =>
      rw [List.dropWhile_cons_of_neg]
      rw [hp c (by rw [← List.head?_reverse, h]; rfl)]
      exact Bool.false_ne_true
  rw [trimEnd, trimEnd, List.reverse_append, List.dropWhile_append]
  split
  · rename_i h
    rw [List.isEmpty_iff.mp h, front]
    simp
  · simp

/-! ### Texts without blanks at their ends -/

theorem trimStart_eq_self (h : ∀ c ∈ s.head?, isBlank c = false) : trimStart s = s := by
  cases s with
  | nil => rfl
  | cons c s => rw [trimStart, List.dropWhile_cons_of_neg (by simp [h c rfl])]

theorem trim_eq_self (hhead : ∀ c ∈ s.head?, isBlank c = false)
    (hlast : ∀ c ∈ s.getLast?, isBlank c = false) : trim s = s := by
  have start : trimStart s = s := trimStart_eq_self hhead
  have stop := trimEnd_append (s := []) hlast
  rw [List.append_nil] at stop
  rw [trim, start, stop]
  exact List.append_nil s

theorem trim_trim (s : List Char) : trim (trim s) = trim s := by
  have first : trimStart (trim s) = trim s := by
    have head := List.head?_dropWhile_not isBlank s
    rw [trim]
    cases hs : trimStart s with
    | nil => rfl
    | cons c r =>
      rw [trimStart] at hs
      rw [hs] at head
      have hc : isBlank c = false := by simpa using head
      have back := trimEnd_append (p := [c]) (s := r) (by simpa using hc)
      rw [List.singleton_append] at back
      rw [back, List.singleton_append, trimStart, List.dropWhile_cons_of_neg (by simp [hc])]
  rw [trim, first, trim, trimEnd, trimEnd, List.reverse_reverse, List.dropWhile_idempotent]

theorem trim_ends (h : trim x = x) :
    (∀ c ∈ x.head?, isBlank c = false) ∧ ∀ c ∈ x.getLast?, isBlank c = false := by
  have last : ∀ c ∈ x.getLast?, isBlank c = false := by
    intro c hc
    rw [← h, trim, trimEnd, List.getLast?_reverse] at hc
    have := List.head?_dropWhile_not isBlank (trimStart x).reverse
    rw [Option.mem_def.mp hc] at this
    simpa using this
  refine ⟨fun c hc => ?_, last⟩
  obtain ⟨t, ht⟩ := trimEnd_isPrefix (trimStart x)
  have hx : (trimStart x).head? = some c := by
    rw [← ht, List.head?_append, ← trim, h, Option.mem_def.mp hc, Option.some_or]
  have := List.head?_dropWhile_not isBlank x
  rw [trimStart] at hx
  rw [hx] at this
  simpa using this

/-! ### Blanks around a text -/

theorem exists_trim (s : List Char) : ∃ a b, s = a ++ (trim s ++ b) ∧ (∀ c ∈ a, isBlank c) ∧
    ∀ c ∈ b, isBlank c := by
  have start : s.takeWhile isBlank ++ trimStart s = s := List.takeWhile_append_dropWhile
  have stop (u : List Char) : trimEnd u ++ (u.reverse.takeWhile isBlank).reverse = u := by
    rw [trimEnd, ← List.reverse_append, List.takeWhile_append_dropWhile, List.reverse_reverse]
  refine ⟨s.takeWhile isBlank, ((trimStart s).reverse.takeWhile isBlank).reverse, ?_, ?_, ?_⟩
  · rw [trim, stop, start]
  · exact fun c hc => List.mem_takeWhile_imp hc
  · exact fun c hc => List.mem_takeWhile_imp (List.mem_reverse.mp hc)

theorem trim_blanks (hb : ∀ c ∈ b, isBlank c) : trim b = [] := by
  have start : trimStart b = [] := List.dropWhile_eq_nil_iff.mpr hb
  rw [trim, start]
  rfl

/-- Blanks in front are trimmed. -/
theorem trim_blanks_append (ha : ∀ c ∈ a, isBlank c) (s : List Char) : trim (a ++ s) = trim s := by
  rw [trim, trimStart_blanks_append ha, ← trim]

/-- Blanks at the end are trimmed. -/
theorem trim_append_blanks (hb : ∀ c ∈ b, isBlank c) (s : List Char) : trim (s ++ b) = trim s := by
  have stop (u : List Char) : trimEnd (u ++ b) = trimEnd u := by
    rw [trimEnd, List.reverse_append, List.dropWhile_append_of_pos (by simpa using hb)]
    rfl
  cases hs : trimStart s with
  | nil =>
    have blank : ∀ c ∈ s, isBlank c := List.dropWhile_eq_nil_iff.mp hs
    have all : ∀ c ∈ s ++ b, isBlank c := by
      intro c hc
      exact (List.mem_append.mp hc).elim (blank c) (hb c)
    rw [trim_blanks all, trim_blanks blank]
  | cons c t =>
    have start : trimStart (s ++ b) = trimStart s ++ b := by
      rw [trimStart, List.dropWhile_append, ← trimStart, hs]
      rfl
    rw [trim, start, stop, ← trim]

theorem trim_between (ha : ∀ c ∈ a, isBlank c) (hb : ∀ c ∈ b, isBlank c)
    (hhead : ∀ c ∈ s.head?, isBlank c = false) (hlast : ∀ c ∈ s.getLast?, isBlank c = false) :
    trim (a ++ (s ++ b)) = s := by
  rw [trim_blanks_append ha, trim_append_blanks hb, trim_eq_self hhead hlast]

/-! ### Words -/

variable {r w y : List Char} {c : Char}

theorem words_append_cons (hc : isBlank c = true) (x y : List Char) :
    words (x ++ c :: y) = words x ++ words y := by
  rw [words, List.splitOnP_append_cons x y hc, List.filter_append]
  rfl

theorem words_cons (hc : isBlank c = true) (s : List Char) : words (c :: s) = words s :=
  words_append_cons hc [] s

theorem words_word (hne : w ≠ []) (hw : ∀ c ∈ w, isBlank c = false) : words w = [w] := by
  rw [words, List.splitOnP_eq_singleton hw]
  simp [hne]

theorem words_blanks_append (hb : ∀ c ∈ b, isBlank c) (s : List Char) : words (b ++ s) = words s := by
  induction b with
  | nil => rfl
  | cons c b ih =>
    obtain ⟨hc, hb⟩ := List.forall_mem_cons.mp hb
    rw [List.cons_append, words_cons hc, ih hb]

theorem words_blanks (hb : ∀ c ∈ b, isBlank c) : words b = [] := by
  have h := words_blanks_append hb []
  rwa [List.append_nil] at h

theorem words_append_blanks (hb : ∀ c ∈ b, isBlank c) (s : List Char) : words (s ++ b) = words s := by
  cases b with
  | nil => rw [List.append_nil]
  | cons c b =>
    obtain ⟨hc, hb⟩ := List.forall_mem_cons.mp hb
    rw [words_append_cons hc, words_blanks hb, List.append_nil]

theorem words_trim (s : List Char) : words (trim s) = words s := by
  obtain ⟨a, b, h, ha, hb⟩ := exists_trim s
  conv_rhs => rw [h]
  rw [words_blanks_append ha, words_append_blanks hb]

/-- A word ends where a blank follows. -/
theorem words_word_append (hne : w ≠ []) (hw : ∀ c ∈ w, isBlank c = false)
    (hr : ∀ c ∈ r.head?, isBlank c = true) : words (w ++ r) = w :: words r := by
  cases r with
  | nil => rw [List.append_nil, words_word hne hw]; rfl
  | cons c r =>
    have hc := hr c rfl
    rw [words_append_cons hc, words_word hne hw, words_cons hc]
    rfl

/-- A text is blank, or its first word stands between blanks and its other words. -/
theorem exists_words (x : List Char) : (∀ c ∈ x, isBlank c) ∧ words x = [] ∨
    ∃ b w r, x = b ++ (w ++ r) ∧ (∀ c ∈ b, isBlank c) ∧ w ≠ [] ∧ (∀ c ∈ w, isBlank c = false) ∧
      (∀ c ∈ r.head?, isBlank c = true) ∧ words x = w :: words r := by
  have front : x.takeWhile isBlank ++ trimStart x = x := List.takeWhile_append_dropWhile
  have blanks : ∀ c ∈ x.takeWhile isBlank, isBlank c := fun c hc => List.mem_takeWhile_imp hc
  cases hx : trimStart x with
  | nil =>
    have all : ∀ c ∈ x, isBlank c := List.dropWhile_eq_nil_iff.mp hx
    exact .inl ⟨all, words_blanks all⟩
  | cons d t =>
    have start := List.head?_dropWhile_not isBlank x
    rw [← trimStart, hx] at start
    have hd : isBlank d = false := by simpa using start
    rw [hx] at front
    set w := (d :: t).takeWhile fun c => !isBlank c with hw
    set r := (d :: t).dropWhile fun c => !isBlank c with hr
    have cut : w ++ r = d :: t := List.takeWhile_append_dropWhile
    have word : ∀ c ∈ w, isBlank c = false := fun c hc => by simpa using List.mem_takeWhile_imp hc
    have hne : w ≠ [] := by
      rw [hw, List.takeWhile_cons_of_pos (by simp [hd])]
      exact List.cons_ne_nil _ _
    have behind : ∀ c ∈ r.head?, isBlank c = true := by
      intro c hc
      have := List.head?_dropWhile_not (fun c => !isBlank c) (d :: t)
      rw [← hr, Option.mem_def.mp hc] at this
      simpa using this
    refine .inr ⟨_, w, r, ?_, blanks, hne, word, behind, ?_⟩
    · rw [cut, front]
    · rw [← words_word_append hne word behind, cut]
      conv_lhs => rw [← front]
      exact words_blanks_append blanks _

theorem words_eq_nil_iff : words x = [] ↔ ∀ c ∈ x, isBlank c := by
  refine ⟨fun h => ?_, words_blanks⟩
  obtain ⟨all, -⟩ | ⟨_, w, _, -, -, -, -, -, hx⟩ := exists_words x
  · exact all
  · rw [h] at hx
    cases hx

/-- Every character is a blank or stands in a word. -/
theorem isBlank_or_mem_words (hc : c ∈ x) : isBlank c = true ∨ ∃ w ∈ words x, c ∈ w := by
  induction hn : x.length using Nat.strong_induction_on generalizing x with
  | _ n ih =>
    obtain ⟨all, -⟩ | ⟨b, w, r, rfl, hb, hne, -, -, hx⟩ := exists_words x
    · exact .inl (all c hc)
    · rw [hx]
      rcases List.mem_append.mp hc with hc | hc
      · exact .inl (hb c hc)
      rcases List.mem_append.mp hc with hc | hc
      · exact .inr ⟨w, List.mem_cons_self, hc⟩
      have shorter : r.length < n := by
        have := List.length_pos_iff.mpr hne
        rw [← hn, List.length_append, List.length_append]
        omega
      refine (ih r.length shorter hc rfl).imp_right ?_
      rintro ⟨v, hv, hcv⟩
      exact ⟨v, List.mem_cons_of_mem _ hv, hcv⟩

/-! ### Other blanks -/

/-- The texts have the same words, also behind a character in front of both. -/
def SameWords (x y : List Char) : Prop := ∃ h us vs, x.splitOnP isBlank = h :: us ∧
  y.splitOnP isBlank = h :: vs ∧ us.filter (· ≠ []) = vs.filter (· ≠ [])

namespace SameWords

theorem words_eq (h : SameWords x y) : words x = words y := by
  obtain ⟨h, us, vs, hx, hy, same⟩ := h
  rw [words, words, hx, hy, List.filter_cons, List.filter_cons, same]

theorem refl (x : List Char) : SameWords x x := by
  obtain ⟨h, us, hx⟩ := List.exists_cons_of_ne_nil (List.splitOnP_ne_nil isBlank x)
  exact ⟨h, us, us, hx, hx, rfl⟩

theorem cons (c : Char) (h : SameWords x y) : SameWords (c :: x) (c :: y) := by
  obtain ⟨h, us, vs, hx, hy, same⟩ := h
  by_cases hc : isBlank c = true
  · refine ⟨[], h :: us, h :: vs, ?_, ?_, ?_⟩
    · rw [List.splitOnP_cons_eq_if_modifyHead, if_pos hc, hx]
    · rw [List.splitOnP_cons_eq_if_modifyHead, if_pos hc, hy]
    · rw [List.filter_cons, List.filter_cons, same]
  · refine ⟨c :: h, us, vs, ?_, ?_, same⟩
    · rw [List.splitOnP_cons_eq_if_modifyHead, if_neg hc, hx]
      rfl
    · rw [List.splitOnP_cons_eq_if_modifyHead, if_neg hc, hy]
      rfl

theorem append (b : List Char) (h : SameWords x y) : SameWords (b ++ x) (b ++ y) := by
  induction b with
  | nil => exact h
  | cons c b ih => exact ih.cons c

/-- One blank is as good as another. -/
theorem blank {a b : Char} (ha : isBlank a = true) (hb : isBlank b = true) (h : SameWords x y) :
    SameWords (a :: x) (b :: y) := by
  obtain ⟨h, us, vs, hx, hy, same⟩ := h
  refine ⟨[], h :: us, h :: vs, ?_, ?_, ?_⟩
  · rw [List.splitOnP_cons_eq_if_modifyHead, if_pos ha, hx]
  · rw [List.splitOnP_cons_eq_if_modifyHead, if_pos hb, hy]
  · rw [List.filter_cons, List.filter_cons, same]

/-- Two blanks are as good as one. -/
theorem blanks {a b : Char} (ha : isBlank a = true) (hb : isBlank b = true)
    (h : SameWords (b :: x) y) : SameWords (a :: b :: x) y := by
  obtain ⟨h, us, vs, hx, hy, same⟩ := h
  rw [List.splitOnP_cons_eq_if_modifyHead, if_pos hb, List.cons.injEq] at hx
  obtain ⟨rfl, rfl⟩ := hx
  refine ⟨[], [] :: x.splitOnP isBlank, vs, ?_, hy, ?_⟩
  · rw [List.splitOnP_cons_eq_if_modifyHead, if_pos ha, List.splitOnP_cons_eq_if_modifyHead, if_pos hb]
  · rw [List.filter_cons, if_neg (by simp), same]

end SameWords

end EtlFlow.Text
