import EtlFlow.Proofs.Outcome
import EtlFlow.Sql.Grammar
import EtlFlow.Sql.Token.Lexer
/-!
# Scanning the front of a text

`Reads s ts r` says that the scan of `s` gives the tokens `ts` and goes on with `r`.  Blanks, bare
words and periods are read off the front of a text one by one, and a dotted list of identifiers as a
whole (`Path.reads`).
-/

namespace EtlFlow.Sql.Token

open Text (isBlank isAlphabetic)
open Outcome (map_eq_ok_iff)

/-! ### Kinds of characters -/

/-- The code points of the blanks. -/
def blankCodes : List Nat :=
  List.range' 9 5 ++ [32, 0x85, 0xA0, 0x1680] ++ List.range' 0x2000 11 ++
    [0x2028, 0x2029, 0x202F, 0x205F, 0x3000]

theorem mem_blankCodes {c : Char} (h : isBlank c) : c.toNat ∈ blankCodes := by
  simp only [isBlank, Bool.or_eq_true, Bool.and_eq_true, decide_eq_true_eq, beq_iff_eq] at h
  simp only [blankCodes, List.mem_append, List.mem_range'_1, List.mem_cons, List.not_mem_nil,
    or_false]
  omega

theorem inWord_of_isBlank {c : Char} (h : isBlank c) : inWord c = false := by
  have table : ∀ n ∈ blankCodes, inWord (Char.ofNat n) = false := by decide +kernel
  have hc := table _ (mem_blankCodes h)
  rwa [Char.ofNat_toNat] at hc

/-- What holds of the ASCII characters, one by one. -/
theorem forall_ascii {p : Char → Prop} (h : ∀ n ∈ List.range 128, p (Char.ofNat n)) {c : Char}
    (hc : c.toNat < 128) : p c := by
  have := h c.toNat (List.mem_range.mpr hc)
  rwa [Char.ofNat_toNat] at this

/-- What holds of the digits, one by one. -/
theorem forall_digit {p : Char → Prop} (h : ∀ n ∈ List.range' 48 10, p (Char.ofNat n)) {c : Char}
    (hc : c.isDigit) : p c := by
  simp only [Char.isDigit, Bool.and_eq_true, decide_eq_true_eq, UInt32.le_iff_toNat_le] at hc
  have range : 48 ≤ c.toNat ∧ c.toNat ≤ 57 := hc
  have := h c.toNat (List.mem_range'_1.mpr (by omega))
  rwa [Char.ofNat_toNat] at this

theorem inWord_of_startsWord {c : Char} (h : startsWord c) : inWord c := by
  simp only [startsWord, inWord, Bool.or_eq_true] at h ⊢
  tauto

theorem isBlank_of_inWord {c : Char} (h : inWord c) : isBlank c = false := by
  by_contra hb
  rw [inWord_of_isBlank (by simpa using hb)] at h
  cases h

theorem isDigit_of_startsWord {c : Char} (h : startsWord c) : c.isDigit = false := by
  by_contra hd
  have none_starts : startsWord c = false :=
    forall_digit (p := fun c => startsWord c = false) (by decide) (by simpa using hd)
  rw [h] at none_starts
  cases none_starts

/-- The text ends a bare word that stands before it. -/
def EndsWord (r : List Char) : Prop := ∀ d ∈ r.head?, inWord d = false ∧ d ≠ '\''

@[simp]
theorem endsWord_nil : EndsWord [] := by simp [EndsWord]

@[simp]
theorem endsWord_cons {d : Char} {r : List Char} :
    EndsWord (d :: r) ↔ inWord d = false ∧ d ≠ '\'' := by
  simp [EndsWord]

theorem endsWord_of_isBlank {d : Char} {r : List Char} (h : isBlank d) : EndsWord (d :: r) := by
  refine endsWord_cons.mpr ⟨inWord_of_isBlank h, ?_⟩
  rintro rfl
  revert h
  decide

/-! ### Tokens off the front -/

/-- The scan of `s` gives `ts` and goes on with `r`. -/
def Reads (s : List Char) (ts : List Token) (r : List Char) : Prop :=
  scanChars s = (scanChars r).map (ts ++ ·)

theorem Reads.refl (s : List Char) : Reads s [] s := by
  unfold Reads
  cases scanChars s <;> rfl

theorem Reads.trans {s r q : List Char} {ts us : List Token} (h : Reads s ts r)
    (g : Reads r us q) : Reads s (ts ++ us) q := by
  unfold Reads at *
  rw [h, g]
  cases scanChars q with
  | error e => rfl
  | ok vs => simp [Except.map]

theorem scanChars_nil : scanChars [] = .ok [] := by rw [scanChars.eq_def]

/-- What reads a text to its end is its scan. -/
theorem Reads.scan {s : List Char} {ts : List Token} (h : Reads s ts []) : scanChars s = .ok ts := by
  rw [Reads, scanChars_nil] at h
  exact h.trans (congrArg Except.ok (List.append_nil ts))

theorem reads_of_step {c : Char} {s r : List Char} {t : Option Token}
    (h : step c s = .ok (t, r)) : Reads (c :: s) t.toList r := by
  unfold Reads
  rw [scanChars.eq_def]
  dsimp only
  split
  · rename_i e he
    rw [h] at he
    cases he
  · rename_i t' r' ht
    rw [h] at ht
    cases ht
    rfl

theorem reads_blank {c : Char} {s : List Char} (h : isBlank c) : Reads (c :: s) [] s :=
  reads_of_step (by rw [step, if_pos h])

theorem reads_blanks {b s : List Char} (h : ∀ c ∈ b, isBlank c) : Reads (b ++ s) [] s := by
  induction b with
  | nil => exact .refl s
  | cons c b ih =>
    rw [List.forall_mem_cons] at h
    exact (reads_blank h.1).trans (ih h.2)

theorem step_of_startsWord {c : Char} {s : List Char} (h : startsWord c)
    (hs : s.head? ≠ some '\'') : step c s = found (readWord [c] s) := by
  have ne {d : Char} (hd : startsWord d = false) : c ≠ d := by
    rintro rfl
    rw [h] at hd
    cases hd
  have blank := isBlank_of_inWord (inWord_of_startsWord h)
  have digit := isDigit_of_startsWord h
  have := ne (d := ',') (by decide)
  have := ne (d := ';') (by decide)
  have := ne (d := '(') (by decide)
  have := ne (d := ')') (by decide)
  have := ne (d := '\'') (by decide)
  have := ne (d := '"') (by decide)
  have := ne (d := '`') (by decide)
  have := ne (d := '[') (by decide)
  have := ne (d := '.') (by decide)
  have := ne (d := '-') (by decide)
  have := ne (d := '/') (by decide)
  have := ne (d := '$') (by decide)
  simp_all [step]

theorem reads_word {c : Char} {w r : List Char} (hc : startsWord c) (hw : ∀ d ∈ w, inWord d)
    (hr : EndsWord r) : Reads (c :: (w ++ r)) [.word (String.ofList (c :: w)) none] r := by
  have takes : (w ++ r).takeWhile inWord = w := by
    rw [List.takeWhile_append_of_pos hw]
    cases r with
    | nil => simp
    | cons d r => simp [(endsWord_cons.mp hr).1]
  have drops : (w ++ r).dropWhile inWord = r := by
    rw [List.dropWhile_append_of_pos hw]
    cases r with
    | nil => rfl
    | cons d r => simp [(endsWord_cons.mp hr).1]
  have hs : (w ++ r).head? ≠ some '\'' := by
    cases w with
    | nil =>
      intro h
      exact (hr '\'' h).2 rfl
    | cons d w =>
      have := hw d (by simp)
      rintro ⟨⟩
      revert this
      decide
  have h := step_of_startsWord hc hs
  rw [found, readWord, takes, drops] at h
  exact reads_of_step h

theorem reads_period {r : List Char} (h : ∀ d ∈ r.head?, d.isDigit = false) :
    Reads ('.' :: r) [.period] r := by
  have digits : r.takeWhile Char.isDigit = [] := by
    cases r with
    | nil => rfl
    | cons d r => simp [h d (by simp)]
  have upper : '.'.toUpper = '.' := by decide
  refine reads_of_step (t := some .period) ?_
  rw [step]
  simp [found, readPeriod, digits, isBlank, upper]

theorem reads_symbol {c : Char} {t : Token}
    (h : (c, t) ∈ [(',', .comma), ('(', .lparen), (')', .rparen)]) (r : List Char) :
    Reads (c :: r) [t] r := by
  simp only [List.mem_cons, Prod.mk.injEq, List.not_mem_nil, or_false] at h
  rcases h with ⟨rfl, rfl⟩ | ⟨rfl, rfl⟩ | ⟨rfl, rfl⟩ <;>
    exact Token.reads_of_step (t := some _) (by simp [Token.step, isBlank])

/-! ### Dotted lists of identifiers -/

/-- A bare word that starts with a letter or an underscore. -/
def IsIdentifier (w : List Char) : Prop :=
  ∃ c u, w = c :: u ∧ startsWord c ∧ ∀ d ∈ u, inWord d

/-- A dotted list of identifiers and its tokens. -/
inductive Path : List Char → List Token → Prop where
  | one {w : List Char} : IsIdentifier w → Path w [.word (String.ofList w) none]
  | cons {w p : List Char} {ts : List Token} : IsIdentifier w → Path p ts →
      Path (w ++ '.' :: p) (.word (String.ofList w) none :: .period :: ts)

theorem IsIdentifier.append {w e : List Char} (h : IsIdentifier w) (he : ∀ d ∈ e, inWord d) :
    IsIdentifier (w ++ e) := by
  obtain ⟨c, u, rfl, hc, hu⟩ := h
  refine ⟨c, u ++ e, rfl, hc, ?_⟩
  rw [List.forall_mem_append]
  exact ⟨hu, he⟩

theorem IsIdentifier.reads {w r : List Char} (h : IsIdentifier w) (hr : EndsWord r) :
    Reads (w ++ r) [.word (String.ofList w) none] r := by
  obtain ⟨c, u, rfl, hc, hu⟩ := h
  exact reads_word hc hu hr

/-- The tokens of a path start with the word that the path starts with. -/
theorem Path.head {p : List Char} {ts : List Token} (h : Path p ts) :
    ∃ c q, p = c :: q ∧ startsWord c := by
  cases h with
  | one h =>
    obtain ⟨c, u, rfl, hc, -⟩ := h
    exact ⟨c, u, rfl, hc⟩
  | cons h _ =>
    obtain ⟨c, u, rfl, hc, -⟩ := h
    exact ⟨c, _, rfl, hc⟩

theorem Path.mem {p : List Char} {ts : List Token} (h : Path p ts) :
    ∀ c ∈ p, inWord c ∨ c = '.' := by
  have word {w : List Char} (hw : IsIdentifier w) : ∀ c ∈ w, inWord c ∨ c = '.' := by
    obtain ⟨c, u, rfl, hc, hu⟩ := hw
    rw [List.forall_mem_cons]
    exact ⟨.inl (inWord_of_startsWord hc), fun d hd => .inl (hu d hd)⟩
  induction h with
  | one h => exact word h
  | cons h _ ih =>
    rw [List.forall_mem_append, List.forall_mem_cons]
    exact ⟨word h, .inr rfl, ih⟩

theorem Path.isBlank {p : List Char} {ts : List Token} (h : Path p ts) :
    ∀ c ∈ p, Text.isBlank c = false := by
  intro c hc
  rcases h.mem c hc with hc | rfl
  · exact isBlank_of_inWord hc
  · decide

theorem Path.reads {p r : List Char} {ts : List Token} (h : Path p ts) (hr : EndsWord r) :
    Reads (p ++ r) ts r := by
  induction h with
  | one h => exact h.reads hr
  | @cons w p ts h hp ih =>
    have word := h.reads (r := '.' :: (p ++ r)) (by simp [inWord, isAlphabetic])
    have period : Reads ('.' :: (p ++ r)) [.period] (p ++ r) := by
      obtain ⟨c, q, rfl, hc⟩ := hp.head
      exact reads_period (by simpa using isDigit_of_startsWord hc)
    rw [List.append_assoc]
    exact word.trans (period.trans ih)

/-- A longer last word makes a path again. -/
theorem Path.append {p e : List Char} {ts : List Token} (h : Path p ts) (he : ∀ d ∈ e, inWord d) :
    ∃ us, Path (p ++ e) us := by
  induction h with
  | one h => exact ⟨_, .one (h.append he)⟩
  | cons h _ ih =>
    obtain ⟨us, hu⟩ := ih
    rw [List.append_assoc]
    exact ⟨_, .cons h hu⟩

/-- The name is a dotted list of identifiers. -/
def IsPath (name : String) : Prop := ∃ ts, Path name.toList ts

theorem IsPath.append {name e : String} (h : IsPath name) (he : ∀ d ∈ e.toList, inWord d) :
    IsPath (name ++ e) := by
  obtain ⟨ts, h⟩ := h
  rw [IsPath, String.toList_append]
  exact h.append he

/-! ### Names of relations -/

theorem relationName_word {v : String} {q : Option Char} {ts : List Token}
    (h : ts.head? ≠ some .period) :
    Grammar.relationName (.word v q :: ts) = .ok (nameText v q, ts) := by
  cases ts with
  | nil => rfl
  | cons t ts => cases t <;> first | rfl | exact absurd rfl h

theorem Path.relationName_of_ne {p : List Char} {ts us : List Token} (h : Path p ts)
    (hu : us.head? ≠ some .period) :
    Grammar.relationName (ts ++ us) = .ok (String.ofList p, us) := by
  induction h with
  | one h => exact relationName_word hu
  | cons h _ ih =>
    simp [Grammar.relationName, ih, Except.map, nameText, String.ofList_append, String.append_assoc]

/-- Behind a period the name goes on. -/
theorem Path.relationName_period {p : List Char} {ts us vs : List Token} {name : String}
    (h : Path p ts) (hu : us.head? = some .period)
    (hn : Grammar.relationName (ts ++ us) = .ok (name, vs)) :
    ∃ more, name = String.ofList p ++ "." ++ more := by
  obtain ⟨us, rfl⟩ := List.head?_eq_some_iff.mp hu
  induction h generalizing name with
  | one h =>
    simp only [List.singleton_append, Grammar.relationName, map_eq_ok_iff, Prod.mk.injEq] at hn
    obtain ⟨a, -, rfl, -⟩ := hn
    exact ⟨a.1, rfl⟩
  | cons h _ ih =>
    simp only [List.cons_append, Grammar.relationName, map_eq_ok_iff, Prod.mk.injEq] at hn
    obtain ⟨a, ha, rfl, rfl⟩ := hn
    obtain ⟨more, h⟩ := ih ha
    exact ⟨more, by rw [h]; simp [nameText, String.ofList_append, String.append_assoc]⟩

/-- The name that starts with a path and goes on only behind a period. -/
theorem Path.relationName {p : List Char} {ts us vs : List Token} {name : String} (h : Path p ts)
    (hn : Grammar.relationName (ts ++ us) = .ok (name, vs)) :
    name = String.ofList p ∨ ∃ more, name = String.ofList p ++ "." ++ more := by
  by_cases hu : us.head? = some .period
  · exact .inr (h.relationName_period hu hn)
  · rw [h.relationName_of_ne hu] at hn
    cases hn
    exact .inl rfl

/-- Where the path is the whole name, what is behind the name is behind the path. -/
theorem Path.eq_of_relationName {p : List Char} {ts us vs : List Token} (h : Path p ts)
    (hn : Grammar.relationName (ts ++ us) = .ok (String.ofList p, vs)) : vs = us := by
  by_cases hu : us.head? = some .period
  · obtain ⟨more, longer⟩ := h.relationName_period hu hn
    have lengths := congrArg String.length longer
    have one : ".".length = 1 := rfl
    rw [String.length_append, String.length_append, one] at lengths
    omega
  · rw [h.relationName_of_ne hu] at hn
    cases hn
    rfl

end EtlFlow.Sql.Token
