import EtlFlow.Number.Digits
import EtlFlow.Text.Blank
import Mathlib.Tactic.Common
/-!
# Numerals

The texts that are read as numbers are decimal digits behind an optional sign (`natural?_eq_some_iff`,
`integer?_eq_some_iff`).
-/

namespace EtlFlow.Number

variable {bound n : Nat} {z : Int} {s ds : List Char}

/-- Decimal digits that spell `n`, behind an optional plus. -/
def IsNatural (s : List Char) (n : Nat) : Prop :=
  digits? s = some n ∨ ∃ ds, s = '+' :: ds ∧ digits? ds = some n

/-- Decimal digits that spell `z`, behind an optional sign. -/
def IsInteger (s : List Char) (z : Int) : Prop :=
  (∃ n : Nat, IsNatural s n ∧ z = n) ∨ ∃ ds, ∃ n : Nat, s = '-' :: ds ∧ digits? ds = some n ∧ z = -n

/-- A character of a numeral. -/
def IsNumeral (c : Char) : Prop := c.isDigit ∨ c = '+' ∨ c = '-'

/-! ### Characters -/

theorem of_digits?_eq_some (h : digits? ds = some n) : ds ≠ [] ∧ ∀ c ∈ ds, c.isDigit := by
  unfold digits? at h
  split at h
  · next hds => exact ⟨hds.1, List.all_eq_true.mp hds.2⟩
  · cases h

theorem digits?_cons {c : Char} (hc : c.isDigit = false) : digits? (c :: ds) = none := by
  simp [digits?, hc]

theorem IsNatural.isInteger (h : IsNatural s n) : IsInteger s n := .inl ⟨n, h, rfl⟩

theorem IsInteger.numerals (h : IsInteger s z) : s ≠ [] ∧ ∀ c ∈ s, IsNumeral c := by
  have digits {ds : List Char} {n : Nat} (h : digits? ds = some n) : ∀ c ∈ ds, IsNumeral c :=
    fun c hc => .inl ((of_digits?_eq_some h).2 c hc)
  rcases h with ⟨n, h | ⟨ds, rfl, h⟩, -⟩ | ⟨ds, n, rfl, h, -⟩
  · exact ⟨(of_digits?_eq_some h).1, digits h⟩
  · exact ⟨List.cons_ne_nil _ _, List.forall_mem_cons.mpr ⟨.inr (.inl rfl), digits h⟩⟩
  · exact ⟨List.cons_ne_nil _ _, List.forall_mem_cons.mpr ⟨.inr (.inr rfl), digits h⟩⟩

theorem IsNumeral.not_isBlank {c : Char} (h : IsNumeral c) : Text.isBlank c = false := by
  rcases h with h | rfl | rfl
  · have hrange : 48 ≤ c.toNat ∧ c.toNat ≤ 57 := by
      rw [Char.isDigit, Bool.and_eq_true, decide_eq_true_eq, decide_eq_true_eq] at h
      exact h
    simp only [Text.isBlank, Bool.or_eq_false_iff, Bool.and_eq_false_iff, beq_eq_false_iff_ne,
      decide_eq_false_iff_not]
    omega
  · rfl
  · rfl

theorem IsNumeral.ne_colon {c : Char} (h : IsNumeral c) : c ≠ ':' := by
  rintro rfl
  rcases h with h | h | h <;> cases h

theorem IsNumeral.ne_slash {c : Char} (h : IsNumeral c) : c ≠ '/' := by
  rintro rfl
  rcases h with h | h | h <;> cases h

theorem isDigit_of_mem_padded {width : Nat} {c : Char} (h : c ∈ (padded width n).toList) :
    c.isDigit := by
  rw [padded, String.toList_append, String.toList_ofList, List.mem_append] at h
  rcases h with h | h
  · rw [(List.mem_replicate.mp h).2]
    decide
  · rw [Nat.toString_eq_repr, Nat.toList_repr] at h
    exact Nat.isDigit_of_mem_toDigits (by decide) (by decide) h

/-! ### What is read -/

theorem natural?_eq_some_iff : natural? bound s = some n ↔ IsNatural s n ∧ n < bound := by
  unfold natural? IsNatural
  rw [Option.filter_eq_some_iff, decide_eq_true_eq]
  refine and_congr_left fun _ => ?_
  split
  · next ds => simp [digits?_cons (c := '+') (by decide)]
  · next ds hds =>
      constructor
      · exact .inl
      · rintro (h | ⟨ds', rfl, -⟩)
        · exact h
        · exact absurd rfl (hds ds')

theorem integer?_eq_some_iff (hbound : 0 < bound) :
    integer? bound s = some z ↔ IsInteger s z ∧ -(bound : Int) ≤ z ∧ z < bound := by
  unfold integer?
  rw [Option.filter_eq_some_iff, decide_eq_true_eq]
  split
  · next ds =>
      have hplus : ∀ n, ¬ IsNatural ('-' :: ds) n := by
        rintro n (h | ⟨_, h, _⟩)
        · rw [digits?_cons (by decide)] at h
          cases h
        · cases h
      simp only [IsInteger, Option.map_eq_some_iff, Option.bind_eq_bind, Option.bind_eq_some_iff,
        Option.pure_def, Option.some.injEq, hplus, false_and, exists_false, false_or, List.cons.injEq,
        true_and]
      constructor
      · rintro ⟨⟨_, ⟨n, hn, rfl⟩, rfl⟩, hz⟩
        exact ⟨⟨ds, n, rfl, hn, rfl⟩, hz, by omega⟩
      · rintro ⟨⟨_, n, rfl, hn, rfl⟩, hz, -⟩
        exact ⟨⟨n, ⟨n, hn, rfl⟩, rfl⟩, hz⟩
  · next hs =>
      have hminus : ∀ ds, s ≠ '-' :: ds := hs
      simp only [IsInteger, Option.map_eq_some_iff, natural?_eq_some_iff, hminus, false_and,
        exists_false, or_false, Int.ofNat_eq_natCast]
      constructor
      · rintro ⟨⟨n, ⟨hn, hlt⟩, rfl⟩, hz⟩
        exact ⟨⟨n, hn, rfl⟩, hz, by omega⟩
      · rintro ⟨⟨n, hn, rfl⟩, hz, hlt⟩
        exact ⟨⟨n, ⟨hn, by omega⟩, rfl⟩, hz⟩

end EtlFlow.Number
