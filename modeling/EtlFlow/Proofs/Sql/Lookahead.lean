import EtlFlow.Proofs.Sql.Readers
import EtlFlow.Proofs.Text.Words
/-!
# How far a step looks ahead

A step of the scan never looks past a blank or a semicolon, the opening bracket and the number sign
apart, which look for what stands behind blanks.  So a token is read again in front of every text that
goes on in the same way up to where it stops (`localStep_step`).
-/

namespace EtlFlow.Sql.Token

open Text (isBlank trimStart exists_of_trimStart_eq trimStart_blanks_cons)

variable {r r' s : List Char} {c : Char}

/-! ### Steps -/

/-- The token looks for what stands behind blanks. -/
def looksFar : Token → Bool
  | .operator t => t == "[" || t == "#"
  | _ => false

/-- Both texts start with the same character, and it is no blank. -/
def SameNext (r r' : List Char) : Prop :=
  ∃ d, isBlank d = false ∧ r.head? = some d ∧ r'.head? = some d

/-- A token that a step finds is found again in front of every text that resumes the rest, and, when it
looks far, starts with the same character. -/
def LocalStep (step : List Char → Except LexError (Option Token × List Char)) : Prop :=
  ∀ s t r, step s = .ok (some t, r) → ∀ r', Resumes r r' → (looksFar t → SameNext r r') →
    ∃ p, s = p ++ r ∧ step (p ++ r') = .ok (some t, r')

section combinators

variable {f g : List Char → Except LexError (Option Token × List Char)} {q : Char}

theorem localStep_found {read : List Char → Token × List Char} (h : LocalFront read) :
    LocalStep fun s => found (read s) := by
  intro s t r hs r' hr _
  simp only [found, Except.ok.injEq, Prod.mk.injEq, Option.some.injEq] at hs
  obtain ⟨p, rfl, again⟩ := h s t r (Prod.ext hs.1 hs.2) r' hr
  exact ⟨p, rfl, congrArg found again⟩

theorem localStep_closed {read : List Char → Option (List Char × List Char)} {e : LexError}
    {make : String → Token} (h : Local read) : LocalStep fun s => closed e make (read s) := by
  intro s t r hs r' hr _
  dsimp only at hs
  cases found : read s with
  | none =>
    rw [found] at hs
    cases hs
  | some x =>
    rw [found] at hs
    cases hs
    obtain ⟨p, -, rfl, again⟩ := h s _ _ found r' hr
    exact ⟨p, rfl, congrArg (closed e make) again⟩

theorem localStep_ite {p : Prop} [Decidable p] (hf : p → LocalStep f) (hg : ¬p → LocalStep g) :
    LocalStep fun s => if p then f s else g s := by
  by_cases hp : p
  · simpa only [if_pos hp] using hf hp
  · simpa only [if_neg hp] using hg hp

theorem localStep_head {a : Prop} [Decidable a] (hq : isStop q = false) (hf : LocalStep f)
    (hg : LocalStep g) : LocalStep fun s => if a ∧ s.head? = some q then f s.tail else g s := by
  intro s t r hs r' hr near
  dsimp only at hs
  split at hs
  · rename_i next
    obtain ⟨u, rfl⟩ := List.head?_eq_some_iff.mp next.2
    obtain ⟨p, rfl, again⟩ := hf _ _ _ hs _ hr near
    exact ⟨q :: p, rfl, (if_pos ⟨next.1, rfl⟩).trans again⟩
  · rename_i next
    obtain ⟨p, rfl, again⟩ := hg _ _ _ hs _ hr near
    refine ⟨p, rfl, (if_neg fun next' => ?_).trans again⟩
    exact (hr.append p).head_ne (fun same => next ⟨next'.1, same⟩) hq next'.2

/-- What finds no token does not count, unless it comes next. -/
theorem localStep_skip {a : Prop} [Decidable a] (hq : isStop q = false)
    (hf : ∀ s t r, f s ≠ .ok (some t, r)) (hg : LocalStep g) :
    LocalStep fun s => if a ∧ s.head? = some q then f s else g s := by
  intro s t r hs r' hr near
  dsimp only at hs
  split at hs
  · exact absurd hs (hf _ _ _)
  · rename_i next
    obtain ⟨p, rfl, again⟩ := hg _ _ _ hs _ hr near
    refine ⟨p, rfl, (if_neg fun next' => ?_).trans again⟩
    exact (hr.append p).head_ne (fun same => next ⟨next'.1, same⟩) hq next'.2

theorem localStep_span {p : Char → Bool}
    {read : List Char → List Char → Except LexError (Option Token × List Char)}
    (hp : ∀ d, isStop d → p d = false) (h : ∀ w, LocalStep (read w)) :
    LocalStep fun s => read (s.takeWhile p) (s.dropWhile p) := by
  intro s t r hs r' hr near
  obtain ⟨q, hq, again⟩ := h _ _ _ _ hs _ hr near
  have run : ∀ d ∈ s.takeWhile p, p d := fun d hd => List.mem_takeWhile_imp hd
  have behind : ∀ d ∈ (q ++ r').head?, p d = false :=
    (hr.append q).head (hq ▸ head?_dropWhile s) hp
  refine ⟨s.takeWhile p ++ q, by rw [List.append_assoc, ← hq, List.takeWhile_append_dropWhile], ?_⟩
  have exact := takeWhile_exact run behind
  dsimp only
  rw [List.append_assoc, exact.1, exact.2, again]

end combinators

/-! ### Operators -/

theorem operators_plain : ∀ e ∈ operators, e.1.toList ≠ [] ∧ ∀ d ∈ e.1.toList, isStop d = false := by
  -- a check of the list: a decision over all characters would not end
  have table : operators.all fun e => !e.1.toList.isEmpty && e.1.toList.all (!isStop ·) := by
    decide +kernel
  intro e he
  simpa using List.all_eq_true.mp table e he

/-- The text that an operator is shown as. -/
def OperatorForm.text : OperatorForm → Option String
  | .shown t | .greedy t => some t
  | .part => none

/-- A text without stops at the front of another one stands before the other one stops. -/
theorem isPrefix_of_stops {o m x y : List Char} (ho : ∀ d ∈ o, isStop d = false) (hy : Stops y)
    (h : o <+: m ++ y) : o <+: m ++ x := by
  rcases Nat.le_total o.length m.length with short | long
  · exact (List.prefix_of_prefix_length_le h (List.prefix_append m y) short).trans
      (List.prefix_append m x)
  · obtain ⟨t, rfl⟩ := List.prefix_of_prefix_length_le (List.prefix_append m y) h long
    cases t with
    | nil => exact (List.append_nil m).symm ▸ List.prefix_append m x
    | cons d t =>
      obtain ⟨z, rfl⟩ := (List.prefix_append_right_inj m).mp h
      have := hy d rfl
      rw [ho d (by simp)] at this
      cases this

/-- The operator at the front is seen before the text stops. -/
theorem operatorAt_resumes {p : List Char} (hr : Resumes r r') {o : Option (String × OperatorForm)}
    (h : operatorAt c (p ++ r) = o) (inside : ∀ e ∈ o, e.1.toList <+: c :: p) :
    operatorAt c (p ++ r') = o := by
  have before : ∀ e ∈ operators, e.1.toList.isPrefixOf (c :: (p ++ r')) →
      e.1.toList.isPrefixOf (c :: (p ++ r)) := by
    obtain ⟨w, x, y, rfl, rfl, hy, -⟩ := hr
    intro e he hprefix
    rw [List.isPrefixOf_iff_prefix, ← List.append_assoc, ← List.cons_append] at hprefix ⊢
    exact isPrefix_of_stops (operators_plain e he).2 hy hprefix
  rw [operatorAt] at h ⊢
  cases o with
  | none =>
    rw [List.find?_eq_none] at h ⊢
    exact fun e he hprefix => h e he (before e he hprefix)
  | some e =>
    rw [List.find?_eq_some_iff_append] at h ⊢
    obtain ⟨-, as, bs, split, first⟩ := h
    refine ⟨?_, as, bs, split, fun a ha => ?_⟩
    · rw [List.isPrefixOf_iff_prefix, ← List.cons_append]
      exact (inside e rfl).trans (List.prefix_append _ _)
    · have ha' : a ∈ operators := split ▸ List.mem_append_left _ ha
      have := first a ha
      simp only [Bool.not_eq_true'] at this ⊢
      by_contra hprefix
      rw [before a ha' (by simpa using hprefix)] at this
      cases this

/-- The operator that is found stands at the front. -/
theorem exists_of_operatorAt {lexeme : String} {form : OperatorForm}
    (h : operatorAt c s = some (lexeme, form)) :
    ∃ l z, lexeme.toList = c :: l ∧ s = l ++ z ∧ lexeme.length = l.length + 1 := by
  have mem : (lexeme, form) ∈ operators := List.mem_of_find?_eq_some h
  have front : lexeme.toList.isPrefixOf (c :: s) :=
    List.find?_some (p := fun e : String × OperatorForm => e.1.toList.isPrefixOf (c :: s)) h
  obtain ⟨z, hz⟩ := List.isPrefixOf_iff_prefix.mp front
  obtain ⟨d, l, hl⟩ := List.exists_cons_of_ne_nil (operators_plain _ mem).1
  rw [hl, List.cons_append, List.cons.injEq] at hz
  obtain ⟨rfl, rfl⟩ := hz
  exact ⟨l, z, hl, rfl, by rw [← String.length_toList, hl, List.length_cons]⟩

theorem localStep_operatorStep (c : Char) : LocalStep (operatorStep c) := by
  intro s t r hs r' hr _
  rw [operatorStep] at hs
  split at hs
  · rename_i lexeme u found
    obtain ⟨l, z, hl, rfl, length⟩ := exists_of_operatorAt found
    rw [length, Nat.add_sub_cancel, List.drop_left] at hs
    cases hs
    have again := operatorAt_resumes hr found (by
      rintro _ ⟨⟩
      exact hl ▸ List.prefix_rfl)
    refine ⟨l, rfl, ?_⟩
    rw [operatorStep, again]
    dsimp only
    rw [length, Nat.add_sub_cancel, List.drop_left]
  · rename_i lexeme u found
    obtain ⟨l, z, hl, rfl, length⟩ := exists_of_operatorAt found
    have rest (z : List Char) : (l ++ z).drop lexeme.length = z.tail := by
      rw [length, ← List.drop_drop, List.drop_left, List.drop_one]
    rw [rest] at hs
    cases hs
    -- the operator takes the character behind it along, where there is one
    cases z with
    | nil =>
      cases hr.eq_nil
      refine ⟨l, rfl, ?_⟩
      rw [operatorStep, found]
      dsimp only
      rw [rest]
      rfl
    | cons d z =>
      rw [List.append_cons] at found
      have again := operatorAt_resumes hr found (by
        rintro _ ⟨⟩
        rw [hl]
        exact List.prefix_append (c :: l) [d])
      refine ⟨l ++ [d], List.append_cons .., ?_⟩
      rw [operatorStep, again]
      dsimp only
      rw [List.append_assoc, rest]
      rfl
  · cases hs
  · rename_i found
    cases hs
    have again := operatorAt_resumes (p := []) hr found (by simp)
    refine ⟨[], rfl, ?_⟩
    rw [List.nil_append] at again ⊢
    rw [operatorStep, again]

/-- No operator is shown as the number sign alone. -/
theorem isNone_of_operatorStep (h : operatorStep c s = .ok (some (.operator (String.singleton '#')), r)) :
    (operatorAt c s).isNone := by
  have signs : ∀ e ∈ operators, e.2.text ≠ some (String.singleton '#') := by decide +kernel
  cases found : operatorAt c s with
  | none => rfl
  | some e =>
    obtain ⟨lexeme, form⟩ := e
    have sign := signs _ (List.mem_of_find?_eq_some found)
    rw [operatorStep, found] at h
    cases form with
    | shown t | greedy t =>
      cases h
      exact absurd rfl sign
    | part => cases h

/-- A number sign starts a word where it starts no operator and no space follows. -/
theorem localStep_numberSign : LocalStep fun s =>
    if (operatorAt '#' s).isNone ∧ s.head?.any (· ≠ ' ') then
      found (readWord ('#' :: s.take 1) (s.drop 1)) else operatorStep '#' s := by
  intro s t r hs r' hr near
  dsimp only at hs
  split at hs
  · rename_i word
    obtain ⟨none, next⟩ := word
    cases s with
    | nil => cases next
    | cons d u =>
      obtain ⟨p, rfl, again⟩ := localStep_found (localFront_readWord ['#', d]) u _ _ hs _ hr near
      have none' := operatorAt_resumes (p := d :: p) hr (Option.isNone_iff_eq_none.mp none) (by simp)
      exact ⟨d :: p, rfl, (if_pos ⟨Option.isNone_iff_eq_none.mpr none', next⟩).trans again⟩
  · rename_i word
    obtain ⟨p, rfl, again⟩ := localStep_operatorStep '#' _ _ _ hs _ hr near
    refine ⟨p, rfl, (if_neg fun word' => ?_).trans again⟩
    rw [operatorStep, Option.isNone_iff_eq_none.mp word'.1] at again
    simp only [Except.ok.injEq, Prod.mk.injEq, Option.some.injEq] at again
    obtain ⟨rfl, hp⟩ := again
    obtain rfl : p = [] := by simpa using hp
    obtain ⟨d, hd, next, -⟩ := near (by decide +kernel)
    refine word ⟨isNone_of_operatorStep hs, ?_⟩
    have : d ≠ ' ' := by
      rintro rfl
      exact absurd hd (by decide)
    simpa [next] using this

/-! ### Dollar signs and brackets -/

theorem isNumeral_of_isStop (h : isStop c) : Text.isNumeral c = false :=
  false_of_isStop (by decide +kernel) (by decide +kernel) h

/-- The character may stand in the tag of a literal between dollar signs. -/
def inTag (c : Char) : Bool := Text.isAlphabetic c || Text.isNumeral c || c == '_'

/-- The step behind a dollar sign and a tag: a literal when the tag is closed, a placeholder else. -/
def tagStep (tag s : List Char) : Except LexError (Option Token × List Char) :=
  if True ∧ s.head? = some '$' then
    closed .openTaggedText (.literal (.dollar (String.ofList tag)))
      (readUntil ('$' :: tag ++ ['$']) s.tail)
  else found (.placeholder (String.ofList tag), s)

theorem inTag_of_isStop (h : isStop c) : inTag c = false := by
  have word := inWord_of_isStop h
  simp only [inWord, Bool.or_eq_false_iff] at word
  simp only [inTag, Bool.or_eq_false_iff]
  exact ⟨⟨word.1.1.1.1, isNumeral_of_isStop h⟩, word.1.2⟩

theorem dollarStep_eq : dollarStep = fun s => if True ∧ s.head? = some '$' then
    closed .openDollarText (.literal (.dollar "")) (readUntil ['$', '$'] s.tail)
    else tagStep (s.takeWhile inTag) (s.dropWhile inTag) := by
  funext s
  rw [dollarStep]
  by_cases opened : s.head? = some '$'
  · rw [if_pos opened, if_pos ⟨trivial, opened⟩]
  · rw [if_neg opened, if_neg fun both => opened both.2]
    dsimp only
    split
    · rename_i r next
      have next : s.dropWhile inTag = '$' :: r := next
      rw [next]
      rfl
    · rename_i other
      refine (if_neg ?_).symm
      rintro ⟨-, next⟩
      obtain ⟨z, hz⟩ := List.head?_eq_some_iff.mp next
      exact other z hz

theorem localStep_dollarStep : LocalStep dollarStep := by
  rw [dollarStep_eq]
  refine localStep_head (by decide) (localStep_closed (local_readUntil (by simp)))
    (localStep_span (fun _ => inTag_of_isStop) fun tag => ?_)
  exact localStep_head (by decide) (localStep_closed (local_readUntil (by simp)))
    (localStep_found (localFront_rest _))

theorem mem_of_readName {q : Char} {v : List Char} (h : readName q s = some (v, r)) : q ∈ s := by
  rw [(readName_eq_some_iff.mp h).1]
  simp

theorem bracketStep_eq {z : List Char} (h : trimStart s = c :: z) (hc : c ≠ '"') :
    bracketStep s = if startsWord c || c == '#' then
      closed (.openName ']') (.word · (some '[')) (readName ']' s)
    else .ok (some (.operator "["), s) := by
  rw [bracketStep, h]
  split
  · rename_i heq
    exact absurd (List.cons.inj heq).1 hc
  · rename_i heq
    rw [(List.cons.inj heq).1]
  · rename_i heq
    cases heq

/-- A name in quotes between brackets is read again. -/
theorem bracketStep_quoted_again {inner v u : List Char} (hinner : trimStart s = '"' :: inner)
    (hu : readName '"' inner = some (v, u)) (hz : trimStart u = ']' :: r) (hr : Resumes r r') :
    ∃ p, s = p ++ r ∧ bracketStep (p ++ r') =
      .ok (some (.word (String.ofList ('"' :: v ++ ['"'])) (some '[')), r') := by
  obtain ⟨b, rfl, hb⟩ := exists_of_trimStart_eq hinner
  obtain ⟨b', rfl, hb'⟩ := exists_of_trimStart_eq hz
  rw [List.append_cons] at hu
  obtain ⟨p, -, rfl, again⟩ := local_readName (by decide) _ _ _ hu _ (hr.append (b' ++ [']']))
  refine ⟨b ++ '"' :: (p ++ (b' ++ [']'])), by simp, ?_⟩
  have quote := trimStart_blanks_cons hb (c := '"') (by decide) (p ++ (b' ++ [']'] ++ r'))
  have close := trimStart_blanks_cons hb' (c := ']') (by decide) r'
  rw [List.append_cons] at close
  rw [List.append_assoc, List.cons_append, List.append_assoc]
  simp only [bracketStep, quote, again, close]

/-- A name between brackets is read again. -/
theorem bracketStep_word_again {d : Char} {v z : List Char} (hz : trimStart s = d :: z)
    (unquoted : d ≠ '"') (word : startsWord d || d == '#') (found : readName ']' s = some (v, r))
    (hr : Resumes r r') : ∃ p, s = p ++ r ∧
      bracketStep (p ++ r') = .ok (some (.word (String.ofList v) (some '[')), r') := by
  have named := local_readName (q := ']') (by decide) _ _ _ found
  obtain ⟨p, -, rfl, again⟩ := named _ hr
  -- the closing bracket is no blank, so the first character behind blanks is read with it
  have close : ']' ∈ p := by
    obtain ⟨p', -, hp', alone⟩ := named [] (.of_stops (by simp [Stops]) fun _ => rfl)
    rw [List.append_cancel_right hp']
    exact mem_of_readName (List.append_nil p' ▸ alone)
  have solid : trimStart p ≠ [] := by
    rw [trimStart, ne_eq, List.dropWhile_eq_nil_iff]
    exact fun blanks => absurd (blanks _ close) (by decide)
  obtain ⟨e, y, hy⟩ := List.exists_cons_of_ne_nil solid
  obtain ⟨b, rfl, hb⟩ := exists_of_trimStart_eq hy
  have nonblank : isBlank e = false := head?_dropWhile (b ++ e :: y) e (by rw [← trimStart, hy]; rfl)
  have first (r : List Char) := trimStart_blanks_cons hb nonblank (y ++ r)
  rw [List.append_assoc, List.cons_append, first] at hz
  obtain ⟨rfl, -⟩ := List.cons.inj hz
  refine ⟨_, rfl, ?_⟩
  rw [List.append_assoc, List.cons_append] at again ⊢
  rw [bracketStep_eq (first r') unquoted, if_pos word, again]
  rfl

theorem localStep_bracketStep : LocalStep bracketStep := by
  intro s t r hs r' hr near
  unfold bracketStep at hs
  split at hs
  · rename_i inner hinner
    split at hs
    · cases hs
    · rename_i v u hu
      split at hs
      · rename_i z hz
        cases hs
        exact bracketStep_quoted_again hinner hu hz hr
      · cases hs
  · rename_i d z other hz
    split at hs
    · rename_i word
      cases found : readName ']' s with
      | none =>
        rw [found] at hs
        cases hs
      | some x =>
        rw [found] at hs
        cases hs
        exact bracketStep_word_again hz other word found hr
    · rename_i bare
      cases hs
      obtain ⟨e, he, next, next'⟩ := near (by decide)
      obtain ⟨u, rfl⟩ := List.head?_eq_some_iff.mp next
      obtain ⟨u', rfl⟩ := List.head?_eq_some_iff.mp next'
      have same (v : List Char) : trimStart (e :: v) = e :: v := trimStart_blanks_cons (b := []) (by simp) he v
      obtain ⟨rfl, -⟩ := List.cons.inj ((same u).symm.trans hz)
      exact ⟨[], rfl, (bracketStep_eq (same u') other).trans (if_neg bare)⟩
  · rename_i hz
    cases hs
    obtain ⟨e, he, next, -⟩ := near (by decide)
    obtain ⟨u, rfl⟩ := List.head?_eq_some_iff.mp next
    have same := trimStart_blanks_cons (b := []) (by simp) he u
    rw [List.nil_append, hz] at same
    cases same

/-- A token is found again in front of every text that resumes the rest, and, when it looks far, starts
with the same character. -/
theorem localStep_step (c : Char) : LocalStep (step c) := by
  have symbol (t : Token) : LocalStep fun s => .ok (some t, s) := localStep_found (localFront_rest t)
  have blank : LocalStep fun s => .ok (none, s) := by
    rintro s t r ⟨⟩
  refine localStep_ite (fun _ => blank) fun _ => ?_
  refine localStep_ite (fun _ => symbol _) fun _ => ?_
  refine localStep_ite (fun _ => symbol _) fun _ => ?_
  refine localStep_ite (fun _ => symbol _) fun _ => ?_
  refine localStep_ite (fun _ => symbol _) fun _ => ?_
  refine localStep_ite (fun _ => localStep_closed local_readText) fun _ => ?_
  refine localStep_head (by decide) (localStep_closed local_readText) ?_
  refine localStep_head (by decide) (localStep_closed local_readEscapedText) ?_
  refine localStep_head (by decide) (localStep_closed local_readText) ?_
  refine localStep_ite (fun quote => localStep_closed (local_readName ?_)) fun _ => ?_
  · rcases quote with rfl | rfl <;> decide
  refine localStep_ite (fun _ => localStep_bracketStep) fun _ => ?_
  refine localStep_ite (fun _ => localStep_found localFront_readPeriod) fun _ => ?_
  refine localStep_ite (fun _ => localStep_found (localFront_readNumber c)) fun _ => ?_
  refine localStep_skip (by decide) (fun s t r h => by cases h) ?_
  refine localStep_skip (by decide) (fun s t r h => ?_) ?_
  · split at h <;> cases h
  refine localStep_ite (fun _ => localStep_dollarStep) fun _ => ?_
  refine localStep_ite (fun _ => localStep_found (localFront_readWord [c])) fun _ => ?_
  by_cases sign : c = '#'
  · subst sign
    simpa only [true_and] using localStep_numberSign
  · simpa only [sign, false_and, if_false] using localStep_operatorStep c

end EtlFlow.Sql.Token
