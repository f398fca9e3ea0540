import EtlFlow.Text.Blank
import Mathlib.Data.List.Basic
/-!
# What stands outside parentheses and quotes

A text whose parentheses are balanced and whose quotes are closed has a surface (`Surface`): its characters
outside of them, with a mark for each quotation and for each outermost pair of parentheses.  Either quote
character opens a quotation that ends at the next character of its kind, and parentheses in a quotation
do not count.
-/

namespace EtlFlow.Sql

/-- The characters that open or close something. -/
def brackets : List Char := ['(', ')', '\'', '"']

/-- The parentheses are balanced and the quotes closed, and `o` is what stands outside of them. -/
inductive Surface : List Char → List (Option Char) → Prop where
  | nil : Surface [] []
  | plain {c : Char} {s : List Char} {o : List (Option Char)} : c ∉ brackets → Surface s o →
      Surface (c :: s) (some c :: o)
  | quoted {q : Char} {body s : List Char} {o : List (Option Char)} : q = '\'' ∨ q = '"' →
      q ∉ body → Surface s o → Surface (q :: (body ++ q :: s)) (none :: o)
  | group {inner s : List Char} {i o : List (Option Char)} : Surface inner i → Surface s o →
      Surface ('(' :: (inner ++ ')' :: s)) (none :: o)

variable {c : Char} {a b s w : List Char} {o p : List (Option Char)}

theorem Surface.append (ha : Surface a p) (hb : Surface b o) : Surface (a ++ b) (p ++ o) := by
  induction ha with
  | nil => exact hb
  | plain hc _ ih => exact .plain hc ih
  | quoted hq hbody _ ih =>
      rw [List.cons_append, List.append_assoc, List.cons_append]
      exact .quoted hq hbody ih
  | group hinner _ _ ih =>
      rw [List.cons_append, List.append_assoc, List.cons_append]
      exact .group hinner ih

/-- Plain characters are their own surface. -/
theorem surface_map_some (hs : ∀ c ∈ s, c ∉ brackets) : Surface s (s.map some) := by
  induction s with
  | nil => exact .nil
  | cons c s ih =>
      obtain ⟨hc, hs⟩ := List.forall_mem_cons.mp hs
      exact .plain hc (ih hs)

theorem surface_blanks (hs : ∀ c ∈ s, Text.isBlank c) : Surface s (s.map some) := by
  have table : brackets.all (fun d => !Text.isBlank d) = true := by decide
  refine surface_map_some fun c hc hbracket => ?_
  have other := List.all_eq_true.mp table c hbracket
  rw [hs c hc] at other
  cases other

theorem Surface.of_cons (hc : c ∉ brackets) (h : Surface (c :: s) o) :
    ∃ o', o = some c :: o' ∧ Surface s o' := by
  cases h with
  | plain _ h => exact ⟨_, rfl, h⟩
  | quoted hq =>
      refine absurd ?_ hc
      rcases hq with rfl | rfl
      all_goals decide
  | group => exact absurd (by decide) hc

/-- Behind plain characters the surface goes on as that of the rest. -/
theorem Surface.of_append (hw : ∀ c ∈ w, c ∉ brackets) (h : Surface (w ++ s) o) :
    ∃ o', o = w.map some ++ o' ∧ Surface s o' := by
  induction w generalizing o with
  | nil => exact ⟨o, rfl, h⟩
  | cons c w ih =>
      obtain ⟨hc, hw⟩ := List.forall_mem_cons.mp hw
      obtain ⟨rest, rfl, hrest⟩ := Surface.of_cons hc h
      obtain ⟨o', rfl, hs⟩ := ih hw hrest
      exact ⟨o', rfl, hs⟩

/-- A surface that starts with a character is that of a text that starts with it. -/
theorem Surface.head?_eq (h : Surface s o) (ho : o.head? = some (some c)) : s.head? = some c := by
  cases h with
  | nil => cases ho
  | plain => exact (Option.some.inj ho)
  | quoted => cases ho
  | group => cases ho

/-! ### What a scan passes over -/

/-- What a scan finds, with a text in front of it. -/
def behind (a : List Char) (found : Option (List Char × List Char)) :
    Option (List Char × List Char) :=
  found.map fun (v, r) => (a ++ v, r)

variable {found : Option (List Char × List Char)}

@[simp]
theorem behind_nil : behind [] found = found := by
  cases found <;> rfl

@[simp]
theorem map_cons_behind :
    (behind a found).map (fun (v, r) => (c :: v, r)) = behind (c :: a) found := by
  cases found <;> rfl

theorem behind_behind : behind a (behind b found) = behind (a ++ b) found := by
  unfold behind
  cases found with
  | none => rfl
  | some found => simp

end EtlFlow.Sql
