import EtlFlow.Proofs.Sql.Clean
import EtlFlow.Proofs.Sql.Scan
import Mathlib.Data.List.TakeWhile
/-!
# Numbers and words in a text

The text that is kept of a number (`IsNumeral`) is read as that number again, wherever a comma or a
parenthesis follows it (`IsNumeral.reads`); the L behind a long number is not kept.

A bare word among the tokens stands in the text, up to where no more of it follows (`Marks`), and the
text before it holds blanks and comments alone (`Shows.none`).  In a text without comments
(`CommentFree`) the first token is therefore the first of the text (`scan_token`).
-/

namespace EtlFlow.Sql.Token

open Text (isBlank isAlphabetic)

/-! ### Numerals -/

/-- The characters are digits. -/
def IsDigits (ds : List Char) : Prop := ∀ c ∈ ds, c.isDigit

instance (ds : List Char) : Decidable (IsDigits ds) :=
  List.decidableBAll (fun c : Char => c.isDigit = true) ds

/-- An exponent, which may be missing. -/
inductive IsExponent : List Char → Prop where
  | missing : IsExponent []
  | found {e : Char} {sign ds : List Char} : e = 'e' ∨ e = 'E' → sign ∈ [[], ['+'], ['-']] →
      IsDigits ds → ds ≠ [] → IsExponent (e :: (sign ++ ds))

/-- Digits, and perhaps a period among them, before them or behind them. -/
inductive IsMantissa : List Char → Prop where
  | whole {c : Char} {ds : List Char} : c.isDigit → IsDigits ds → IsMantissa (c :: ds)
  | part {c : Char} {ds fs : List Char} : c.isDigit → IsDigits ds → IsDigits fs →
      IsMantissa (c :: (ds ++ '.' :: fs))
  | fraction {fs : List Char} : IsDigits fs → fs ≠ [] → IsMantissa ('.' :: fs)

/-- What is kept of a number. -/
def IsNumeral (d : List Char) : Prop := ∃ m x, d = m ++ x ∧ IsMantissa m ∧ IsExponent x

theorem isDigits_takeWhile (s : List Char) : IsDigits (s.takeWhile Char.isDigit) :=
  fun _ hc => List.mem_takeWhile_imp hc

theorem isExponent_readExponent (s : List Char) : IsExponent (readExponent s).1 := by
  cases s with
  | nil => exact .missing
  | cons e s =>
    rw [readExponent]
    split
    · rename_i h
      obtain ⟨he, hsign, hd⟩ := h
      generalize hsgn : s.takeWhile (fun c => decide (c = '+' ∨ c = '-')) = sign at hsign hd ⊢
      refine .found he ?_ (isDigits_takeWhile _) ?_
      · have signs : ∀ c ∈ sign, c = '+' ∨ c = '-' := by
          intro c hc
          rw [← hsgn] at hc
          simpa using List.mem_takeWhile_imp hc
        rcases sign with _ | ⟨c, _ | ⟨d, sign⟩⟩
        · simp
        · rcases signs c (by simp) with rfl | rfl <;> simp
        · simp at hsign
      · intro hnil
        cases hr : s.drop sign.length with
        | nil => simp [hr] at hd
        | cons d r =>
          rw [hr] at hd hnil
          have : d.isDigit = true := by simpa using hd
          simp [this] at hnil
    · exact .missing

/-- The number that is made of a mantissa and what follows it is a numeral. -/
theorem exists_finishNumber {m s : List Char} (hm : IsMantissa m) :
    ∃ d long, (finishNumber m s).1 = .number d long ∧ IsNumeral d.toList := by
  have numeral : IsNumeral (String.ofList (m ++ (readExponent s).1)).toList :=
    ⟨m, _, String.toList_ofList, hm, isExponent_readExponent s⟩
  unfold finishNumber
  dsimp only
  split <;> exact ⟨_, _, rfl, numeral⟩

/-! ### Reading a numeral again -/

/-- The text ends an argument that stands before it. -/
def EndsArgument (r : List Char) : Prop := ∀ c ∈ r.head?, c = ',' ∨ c = ')'

theorem endsArgument_cons {c : Char} {r : List Char} (h : c = ',' ∨ c = ')') :
    EndsArgument (c :: r) := fun _ hd => Option.some.inj hd ▸ h

theorem EndsArgument.endsWord {r : List Char} (h : EndsArgument r) : EndsWord r := by
  intro c hc
  rcases h c hc with rfl | rfl <;> decide

/-- A digit is the start of a number and of nothing else. -/
theorem step_of_isDigit {c : Char} (s : List Char) (h : c.isDigit) :
    step c s = found (readNumber c s) := by
  obtain ⟨blank, upper⟩ := forall_digit (p := fun c => isBlank c = false ∧ c.toUpper = c)
    (by decide) h
  have ne {d : Char} (hd : d.isDigit = false) : c ≠ d := by
    rintro rfl
    rw [h] at hd
    cases hd
  simp [step, blank, upper, h, ne (d := ',') (by decide), ne (d := ';') (by decide),
    ne (d := '(') (by decide), ne (d := ')') (by decide), ne (d := '\'') (by decide),
    ne (d := 'N') (by decide), ne (d := 'E') (by decide), ne (d := 'X') (by decide),
    ne (d := '"') (by decide), ne (d := '`') (by decide), ne (d := '[') (by decide),
    ne (d := '.') (by decide)]

theorem span_digits {ds r : List Char} (hd : IsDigits ds) (hr : ∀ c ∈ r.head?, c.isDigit = false) :
    (ds ++ r).takeWhile Char.isDigit = ds ∧ (ds ++ r).dropWhile Char.isDigit = r := by
  rw [List.takeWhile_append_of_pos hd, List.dropWhile_append_of_pos hd]
  cases r with
  | nil => simp
  | cons c r => simp [hr c rfl]

theorem readExponent_append {x r : List Char} (hx : IsExponent x) (hr : EndsArgument r) :
    readExponent (x ++ r) = (x, r) := by
  have no_digit : ∀ c ∈ r.head?, c.isDigit = false := by
    intro c hc
    rcases hr c hc with rfl | rfl <;> decide
  cases hx with
  | missing =>
    cases r with
    | nil => rfl
    | cons c r =>
      have : c ≠ 'e' ∧ c ≠ 'E' := by rcases hr c rfl with rfl | rfl <;> decide
      simp [readExponent, this]
  | @found e sign ds he hs hd hne =>
    obtain ⟨d, u, rfl⟩ := List.exists_cons_of_ne_nil hne
    have digit := hd d (by simp)
    have no_sign : d ≠ '+' ∧ d ≠ '-' := by
      constructor <;> rintro rfl <;> revert digit <;> decide
    obtain ⟨takes, drops⟩ := span_digits hd no_digit
    rw [List.cons_append] at takes drops
    simp only [List.mem_cons, List.not_mem_nil, or_false] at hs
    rcases hs with rfl | rfl | rfl <;>
      simp [readExponent, he, no_sign, digit, takes, drops]

theorem finishNumber_append {m x r : List Char} (hx : IsExponent x) (hr : EndsArgument r) :
    finishNumber m (x ++ r) = (.number (String.ofList (m ++ x)) false, r) := by
  have no_long : r.head? ≠ some 'L' := by
    intro h
    rcases hr _ h with h | h <;> cases h
  rw [finishNumber, readExponent_append hx hr]
  simp [no_long]

/-- What follows the mantissa of a number is neither a digit nor a part of another number. -/
theorem head_exponent {x r : List Char} (hx : IsExponent x) (hr : EndsArgument r) :
    ∀ c ∈ (x ++ r).head?, c.isDigit = false ∧ c ≠ '.' ∧ c ≠ 'x' := by
  intro c hc
  cases hx with
  | missing => rcases hr c hc with rfl | rfl <;> decide
  | found he =>
    cases hc
    rcases he with rfl | rfl <;> decide

/-- A numeral is read as the number that it was kept of. -/
theorem IsNumeral.reads {d r : List Char} (h : IsNumeral d) (hr : EndsArgument r) :
    Reads (d ++ r) [.number (String.ofList d) false] r := by
  obtain ⟨m, x, rfl, hm, hx⟩ := h
  have behind := head_exponent hx hr
  have no_digit : ∀ c ∈ (x ++ r).head?, c.isDigit = false := fun c hc => (behind c hc).1
  have no_period : (x ++ r).head? ≠ some '.' := fun h => (behind _ h).2.1 rfl
  have no_hex : (x ++ r).head? ≠ some 'x' := fun h => (behind _ h).2.2 rfl
  rw [List.append_assoc]
  cases hm with
  | @whole c ds hc hd =>
    obtain ⟨takes, drops⟩ := span_digits hd no_digit
    rw [List.cons_append]
    refine reads_of_step (t := some _) ?_
    rw [step_of_isDigit _ hc, readNumber, takes, drops, if_neg fun h => no_hex h.2,
      if_neg no_period, finishNumber_append hx hr]
    rfl
  | @part c ds fs hc hd hf =>
    obtain ⟨takes, drops⟩ := span_digits (r := '.' :: (fs ++ (x ++ r))) hd (by simp)
    obtain ⟨takes', drops'⟩ := span_digits hf no_digit
    rw [List.cons_append, List.append_assoc, List.cons_append]
    refine reads_of_step (t := some _) ?_
    rw [step_of_isDigit _ hc, readNumber, takes, drops]
    simp [takes', drops', finishNumber_append hx hr, found]
  | @fraction fs hf hne =>
    obtain ⟨takes, drops⟩ := span_digits hf no_digit
    have upper : '.'.toUpper = '.' := by decide
    refine reads_of_step (t := some _) ?_
    rw [step]
    simp [found, readPeriod, takes, drops, hne, isBlank, upper, finishNumber_append hx hr]

end EtlFlow.Sql.Token

namespace EtlFlow.Sql

/-- The clean-up finds no comment in the text. -/
def CommentFree (s : List Char) : Prop := dropComments .code s = s

instance (s : List Char) : Decidable (CommentFree s) := inferInstanceAs (Decidable (_ = _))

theorem CommentFree.of_append {p s : List Char} (hp : ∀ c ∈ p, isCalm c)
    (h : CommentFree (p ++ s)) : CommentFree s := by
  rw [CommentFree, dropComments_append hp] at h
  exact List.append_cancel_left h

theorem length_dropComments_le (z : Zone) (s : List Char) :
    (dropComments z s).length ≤ s.length := by
  fun_induction dropComments z s <;> simp_all <;> omega

end EtlFlow.Sql

namespace EtlFlow.Sql.Token

open Text (isBlank isAlphabetic)
open Outcome (map_eq_ok_iff)

/-- The text `c :: s` opens a comment. -/
def OpensComment (c : Char) (s : List Char) : Prop :=
  c = '-' ∧ s.head? = some '-' ∨ c = '/' ∧ s.head? = some '*'

/-- What a token shows of the text `c :: s` that it was read from, where `r` goes on: a bare word is the
text up to where no more of it stands, a quoted one starts with its quote, a number is kept as a numeral,
and a parenthesis or a period is its character. -/
def Marks (c : Char) (s r : List Char) : Token → Prop
  | .word v none => v.toList ++ r = c :: s ∧ (∀ d ∈ r.head?, inWord d = false) ∧
    (c = '#' ∨ IsIdentifier v.toList)
  | .word _ (some q) => c = q ∧ startsWord q = false
  | .number d _ => IsNumeral d.toList
  | .lparen => c = '(' ∧ r = s
  | .period => c = '.' ∧ r = s
  | _ => True

/-- What a step over `c :: s` shows: a token is marked in the text, and only a blank or a comment gives
no token. -/
structure Shows (c : Char) (s : List Char) (outcome : Except LexError (Option Token × List Char)) :
    Prop where
  token (t : Token) (r : List Char) : outcome = .ok (some t, r) → Marks c s r t
  none (r : List Char) : outcome = .ok (none, r) → isBlank c ∧ r = s ∨ OpensComment c s

section shows

variable {c : Char} {s : List Char} {x y : Except LexError (Option Token × List Char)}

theorem shows_ite {p : Prop} [Decidable p] (hx : p → Shows c s x) (hy : ¬p → Shows c s y) :
    Shows c s (if p then x else y) := by
  split
  · exact hx ‹_›
  · exact hy ‹_›

theorem shows_error {e : LexError} : Shows c s (.error e) := ⟨nofun, nofun⟩

theorem shows_some {t : Token} {r : List Char} (ht : Marks c s r t) : Shows c s (.ok (some t, r)) where
  token t' r' h := by
    cases h
    exact ht
  none r' h := by cases h

theorem shows_closed {e : LexError} {make : String → Token} {o : Option (List Char × List Char)}
    (ht : ∀ v r, Marks c s r (make v)) : Shows c s (closed e make o) := by
  cases o with
  | none => exact shows_error
  | some p => exact shows_some (ht _ _)

theorem shows_finishNumber {m : List Char} (hm : IsMantissa m) (q : List Char) :
    Shows c s (found (finishNumber m q)) := by
  obtain ⟨d, long, hd, numeral⟩ := exists_finishNumber (s := q) hm
  refine shows_some ?_
  rw [hd]
  exact numeral

theorem shows_readNumber {d : Char} (hd : d.isDigit) (r : List Char) :
    Shows c s (found (readNumber d r)) := by
  unfold readNumber
  dsimp only
  split
  · exact shows_some trivial
  split
  · exact shows_finishNumber (.part hd (isDigits_takeWhile _) (isDigits_takeWhile _)) _
  · exact shows_finishNumber (.whole hd (isDigits_takeWhile _)) _

theorem shows_readPeriod (hc : c = '.') : Shows c s (found (readPeriod s)) := by
  unfold readPeriod
  dsimp only
  split
  · exact shows_some ⟨hc, rfl⟩
  · rename_i hne
    exact shows_finishNumber (.fraction (isDigits_takeWhile _) hne) _

theorem shows_bracketStep (hc : c = '[') (r : List Char) : Shows c s (bracketStep r) := by
  have bracket : Marks c s r (.operator "[") := trivial
  have quoted (v : String) (r : List Char) : Marks c s r (.word v (some '[')) := ⟨hc, by decide⟩
  unfold bracketStep
  split
  · split
    · exact shows_error
    · split
      · exact shows_some (quoted _ _)
      · exact shows_error
  · exact shows_ite (fun _ => shows_closed quoted) fun _ => shows_some bracket
  · exact shows_some bracket

theorem shows_dollarStep (r : List Char) : Shows c s (dollarStep r) := by
  unfold dollarStep
  refine shows_ite (fun _ => shows_closed fun _ _ => trivial) fun _ => ?_
  dsimp only
  split
  · exact shows_closed fun _ _ => trivial
  · exact shows_some trivial

theorem shows_operatorStep (d : Char) (r : List Char) : Shows c s (operatorStep d r) := by
  unfold operatorStep
  split
  · exact shows_some trivial
  · exact shows_some trivial
  · exact shows_error
  · exact shows_some trivial

theorem shows_readWord {front r : List Char} (h : front ++ r = c :: s)
    (hv : c = '#' ∨ IsIdentifier (front ++ r.takeWhile inWord)) :
    Shows c s (found (readWord front r)) := by
  refine shows_some ?_
  rw [readWord, Marks, String.toList_ofList, List.append_assoc, List.takeWhile_append_dropWhile]
  refine ⟨h, fun d hd => ?_, hv⟩
  have := List.head?_dropWhile_not inWord r
  rw [Option.mem_def.mp hd] at this
  simpa using this

theorem shows_step (c : Char) (s : List Char) : Shows c s (step c s) := by
  have skip {r : List Char} (h : isBlank c ∧ r = s ∨ OpensComment c s) :
      Shows c s (.ok (none, r)) :=
    ⟨nofun, fun r' h' => by cases h'; exact h⟩
  have quoted (h : c = '"' ∨ c = '`') (v : String) (r : List Char) :
      Marks c s r (.word v (some c)) := ⟨rfl, by rcases h with rfl | rfl <;> decide⟩
  unfold step
  refine shows_ite (fun h => skip (.inl ⟨h, rfl⟩)) fun _ => ?_
  refine shows_ite (fun _ => shows_some trivial) fun _ => ?_
  refine shows_ite (fun _ => shows_some trivial) fun _ => ?_
  refine shows_ite (fun h => shows_some ⟨h, rfl⟩) fun _ => ?_
  refine shows_ite (fun _ => shows_some trivial) fun _ => ?_
  refine shows_ite (fun _ => shows_closed fun _ _ => trivial) fun _ => ?_
  refine shows_ite (fun _ => shows_closed fun _ _ => trivial) fun _ => ?_
  refine shows_ite (fun _ => shows_closed fun _ _ => trivial) fun _ => ?_
  refine shows_ite (fun _ => shows_closed fun _ _ => trivial) fun _ => ?_
  refine shows_ite (fun h => shows_closed (quoted h)) fun _ => ?_
  refine shows_ite (fun h => shows_bracketStep h s) fun _ => ?_
  refine shows_ite (fun h => shows_readPeriod h) fun _ => ?_
  refine shows_ite (fun h => shows_readNumber h s) fun _ => ?_
  refine shows_ite (fun h => skip (.inr (.inl h))) fun _ => ?_
  refine shows_ite (fun h => ?_) fun _ => ?_
  · cases afterComment s.tail with
    | none => exact shows_error
    | some r => exact skip (.inr (.inr h))
  refine shows_ite (fun _ => shows_dollarStep s) fun _ => ?_
  refine shows_ite (fun h => shows_readWord rfl (.inr ?_)) fun _ => ?_
  · exact ⟨c, _, rfl, h, fun d hd => List.mem_takeWhile_imp hd⟩
  refine shows_ite (fun h => shows_readWord ?_ (.inl h.1)) fun _ => shows_operatorStep c s
  rw [List.cons_append, List.take_append_drop]

end shows

/-- Every token is marked in the text. -/
theorem marks_of_mem {s : List Char} {ts : List Token} (h : scanChars s = .ok ts) :
    ∀ t ∈ ts, ∃ c q r, Marks c q r t := by
  fun_induction scanChars s generalizing ts with
  | case1 =>
    cases h
    simp
  | case2 => cases h
  | case3 c s t r hstep ih =>
    rw [map_eq_ok_iff] at h
    obtain ⟨us, hus, rfl⟩ := h
    rw [List.forall_mem_append]
    refine ⟨fun u hu => ?_, ih hus⟩
    rw [Option.mem_toList] at hu
    exact ⟨c, s, r, (shows_step c s).token u r (by rw [hstep, hu])⟩

/-- No comment opens a text without comments. -/
theorem not_opensComment {c : Char} {s : List Char} (h : CommentFree (c :: s)) :
    ¬OpensComment c s := by
  intro ho
  have shorter : (dropComments .code (c :: s)).length < (c :: s).length := by
    rcases ho with ⟨rfl, hs⟩ | ⟨rfl, hs⟩
    · cases s with
      | nil => cases hs
      | cons d s =>
        cases hs
        have := length_dropComments_le .lineComment s
        simp only [dropComments, List.length_cons]
        omega
    · cases s with
      | nil => cases hs
      | cons d s =>
        cases hs
        have := length_dropComments_le .blockComment s
        simp only [dropComments, List.length_cons]
        omega
  rw [h] at shorter
  exact absurd shorter (Nat.lt_irrefl _)

theorem isCalm_of_inWord {c : Char} (h : inWord c) : isCalm c := by
  refine isCalm_iff.mpr ⟨?_, ?_, ?_, ?_⟩ <;> rintro rfl <;> revert h <;> decide

theorem IsIdentifier.inWord {w : List Char} (h : IsIdentifier w) : ∀ c ∈ w, Token.inWord c := by
  obtain ⟨c, u, rfl, hc, hu⟩ := h
  rw [List.forall_mem_cons]
  exact ⟨inWord_of_startsWord hc, hu⟩

/-- No blanks stand before a text that starts with none. -/
theorem eq_nil_of_isBlank {b r : List Char} (hb : ∀ c ∈ b, isBlank c)
    (h : ∀ c ∈ (b ++ r).head?, isBlank c = false) : b = [] := by
  cases b with
  | nil => rfl
  | cons c b =>
    have := h c rfl
    rw [hb c (List.mem_cons_self ..)] at this
    cases this

/-- The first token of a text without comments is found behind blanks, and the scan goes on where it
ends. -/
theorem scan_token {s : List Char} {t : Token} {ts : List Token} (h : scanChars s = .ok (t :: ts))
    (hs : CommentFree s) : ∃ b c q r, s = b ++ c :: q ∧ (∀ d ∈ b, isBlank d) ∧ Marks c q r t ∧
      scanChars r = .ok ts ∧ CommentFree (c :: q) := by
  induction s with
  | nil =>
    rw [scanChars.eq_def] at h
    cases h
  | cons c s ih =>
    have shown := shows_step c s
    rw [scanChars.eq_def] at h
    dsimp only at h
    split at h
    · cases h
    · rename_i t' r hstep
      rw [map_eq_ok_iff] at h
      obtain ⟨us, hus, h⟩ := h
      cases t' with
      | none =>
        rcases shown.none r hstep with ⟨hc, rfl⟩ | ho
        · have calm : ∀ d ∈ [c], isCalm d := by simpa using isCalm_of_isBlank hc
          rw [Option.toList_none, List.nil_append] at h
          obtain ⟨b, d, q, r, rfl, hb, rest⟩ := ih (h ▸ hus) (hs.of_append (p := [c]) calm)
          exact ⟨c :: b, d, q, r, rfl, List.forall_mem_cons.mpr ⟨hc, hb⟩, rest⟩
        · exact absurd ho (not_opensComment hs)
      | some t' =>
        rw [Option.toList_some, List.singleton_append, List.cons.injEq] at h
        obtain ⟨rfl, rfl⟩ := h
        exact ⟨[], c, s, r, rfl, by simp, shown.token _ r hstep, hus, hs⟩

/-- An identifier that comes first is found behind blanks, and no more of it follows. -/
theorem scan_word {s : List Char} {v : String} {ts : List Token}
    (h : scanChars s = .ok (.word v none :: ts)) (hs : CommentFree s) (hv : IsIdentifier v.toList) :
    ∃ b r, s = b ++ (v.toList ++ r) ∧ (∀ c ∈ b, isBlank c) ∧ scanChars r = .ok ts ∧
      CommentFree r ∧ ∀ d ∈ r.head?, inWord d = false := by
  obtain ⟨b, c, q, r, rfl, hb, ⟨word, behind, -⟩, hr, hfree⟩ := scan_token h hs
  rw [← word] at hfree ⊢
  exact ⟨b, r, rfl, hb, hr, hfree.of_append fun d hd => isCalm_of_inWord (hv.inWord d hd), behind⟩

/-! ### Plain words -/

/-- The word is an identifier in ASCII. -/
def isPlainWord (w : List Char) : Bool :=
  w.head?.any startsWord && w.all fun c => inWord c && decide (c.toNat < 128)

/-- The token is no word, or a plain one without quotes. -/
def isPlain : Token → Bool
  | .word v none => isPlainWord v.toList
  | .word _ (some _) => false
  | _ => true

theorem isIdentifier_of_isPlainWord {w : List Char} (h : isPlainWord w) :
    IsIdentifier w ∧ ∀ c ∈ w, c.toNat < 128 := by
  simp only [isPlainWord, Bool.and_eq_true, List.all_eq_true, decide_eq_true_eq] at h
  obtain ⟨hc, hw⟩ := h
  cases w with
  | nil => cases hc
  | cons c u =>
    rw [List.forall_mem_cons] at hw
    refine ⟨⟨c, u, rfl, by simpa using hc, fun d hd => (hw.2 d hd).1⟩, ?_⟩
    rw [List.forall_mem_cons]
    exact ⟨hw.1.2, fun d hd => (hw.2 d hd).2⟩

end EtlFlow.Sql.Token
