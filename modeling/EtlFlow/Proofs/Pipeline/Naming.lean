import EtlFlow.Proofs.Pipeline.Progress
import EtlFlow.Proofs.Workflow.References
/-!
# Ids that are made up

A step without a name gets its id from where it stands (`Spot`): from its origin, its kind and its
position there.  The objects of a step have its id with an ending.  Nothing separates these parts,
and an ending may hold any text, but an id tells all the same what it is made up for
(`MadeUp.text_injOn`): it starts with words of which none is a prefix of another one
(`Word.eq_of_isPrefix`), and the digits behind them end where the ending begins.
-/

namespace EtlFlow.Pipeline

open Step (Kind Machine)
open Workflow (ObjectId Resource)

/-! ### Words -/

/-- What ids of steps start with. -/
inductive Word where
  | kind (k : Kind)
  | ec2
  | emr
  | teardown
  deriving DecidableEq

namespace Word

/-- How a word is written. -/
def text : Word → String
  | kind k => k.idStart
  | ec2 => Build.bootstrapStart .ec2
  | emr => Build.bootstrapStart .emr
  | teardown => "Teardown"

/-- All words. -/
def all : List Word := Kind.all.map kind ++ [ec2, emr, teardown]

theorem mem_all (w : Word) : w ∈ all := by
  cases w with
  | kind k => exact List.mem_append_left _ (List.mem_map_of_mem k.mem_all)
  | ec2 => exact List.mem_append_right _ (by decide)
  | emr => exact List.mem_append_right _ (by decide)
  | teardown => exact List.mem_append_right _ (by decide)

/-- No word is a prefix of another one. -/
theorem eq_of_isPrefix {w w' : Word} (h : w.text.toList <+: w'.text.toList) : w = w' := by
  have hall : ∀ w ∈ all, ∀ w' ∈ all, w.text.toList <+: w'.text.toList → w = w' := by decide +kernel
  exact hall w w.mem_all w' w'.mem_all h

/-- Words one behind the other. -/
def spell : List Word → String
  | [] => ""
  | w :: ws => w.text ++ spell ws

/-- Nothing separates the words, but they can be told apart. -/
theorem prefix_of_spell {ws ws' : List Word} {rest rest' : List Char}
    (h : (spell ws).toList ++ rest = (spell ws').toList ++ rest') : ws <+: ws' ∨ ws' <+: ws := by
  induction ws generalizing ws' with
  | nil => exact .inl List.nil_prefix
  | cons w ws ih =>
      cases ws' with
      | nil => exact .inr List.nil_prefix
      | cons w' ws' =>
          simp only [spell, String.toList_append, List.append_assoc] at h
          have hw : w.text.toList <+: w'.text.toList ++ ((spell ws').toList ++ rest') := ⟨_, h⟩
          have hsame : w = w' := by
            rcases List.prefix_or_prefix_of_prefix hw (List.prefix_append _ _) with h | h
            · exact eq_of_isPrefix h
            · exact (eq_of_isPrefix h).symm
          subst hsame
          rw [List.cons_prefix_cons, List.cons_prefix_cons]
          exact (ih (List.append_cancel_left h)).imp (⟨rfl, ·⟩) (⟨rfl, ·⟩)

end Word

/-! ### Steps -/

/-- Where a step stands that has no name. -/
structure Spot where
  origin : Origin
  kind : Kind
  position : ℕ

/-- The words of an origin.  None come from where no machine is. -/
def Origin.words : Origin → List Word
  | .machine .ec2 => [.ec2]
  | .machine .emr => [.emr]
  | .teardown => [.teardown]
  | _ => []

namespace Spot

/-- What an id starts with. -/
def words (s : Spot) : List Word := s.origin.words ++ [.kind s.kind]

/-- The position as an id holds it; the teardown has one step only. -/
def number (s : Spot) : String := if s.origin = .teardown then "" else toString s.position

/-- The id of a step. -/
def id (s : Spot) : String := Word.spell s.words ++ s.number

theorem id_definition (k : Kind) (n : ℕ) : id ⟨.definition, k, n⟩ = k.idStart ++ toString n := by
  simp [id, words, Origin.words, Word.spell, Word.text, number]

theorem id_machine {m : Machine} (hm : m ≠ .none) (k : Kind) (n : ℕ) :
    id ⟨.machine m, k, n⟩ = Build.bootstrapStart m ++ k.idStart ++ toString n := by
  cases m with
  | ec2 => simp [id, words, Origin.words, Word.spell, Word.text, number]
  | emr => simp [id, words, Origin.words, Word.spell, Word.text, number]
  | none => exact absurd rfl hm

theorem id_teardown (k : Kind) (n : ℕ) : id ⟨.teardown, k, n⟩ = "Teardown" ++ k.idStart := by
  simp [id, words, Origin.words, Word.spell, Word.text, number]

/-- Steps can stand there. -/
structure IsProper (s : Spot) : Prop where
  origin : s.origin ≠ .machine .none
  position : s.origin = .teardown → s.position = 0

end Spot

/-- What can stand behind the id of a step begins with no digit. -/
def IsEnding (e : String) : Prop := ∀ c ∈ e.toList.head?, c.isDigit = false

instance : DecidablePred IsEnding := fun e =>
  decidable_of_iff (e.toList.head?.all (fun c => !c.isDigit) = true)
    (by simp [IsEnding, Option.all_eq_true])

/-- The digits of a number end where an ending begins. -/
theorem takeWhile_toString {n : ℕ} {e : String} (he : IsEnding e) :
    ((toString n).toList ++ e.toList).takeWhile Char.isDigit = (toString n).toList := by
  have hdigits : ∀ c ∈ (toString n).toList, c.isDigit = true := by
    rw [Nat.toString_eq_repr, Nat.toList_repr]
    exact fun c hc => Nat.isDigit_of_mem_toDigits (by decide) (by decide) hc
  have hend : e.toList.takeWhile Char.isDigit = [] := by
    cases hchars : e.toList with
    | nil => rfl
    | cons c cs =>
        refine List.takeWhile_cons_of_neg ?_
        simp [he c (by simp [hchars])]
  rw [List.takeWhile_append_of_pos hdigits, hend, List.append_nil]

theorem toString_append_inj {n n' : ℕ} {e e' : String} (he : IsEnding e) (he' : IsEnding e')
    (h : (toString n).toList ++ e.toList = (toString n').toList ++ e'.toList) :
    n = n' ∧ e = e' := by
  have hdigits : (toString n).toList = (toString n').toList := by
    rw [← takeWhile_toString he, h, takeWhile_toString he']
  rw [hdigits] at h
  refine ⟨?_, String.toList_inj.mp (List.append_cancel_left h)⟩
  rw [Nat.toString_eq_repr, Nat.toString_eq_repr, Nat.toList_repr, Nat.toList_repr] at hdigits
  calc
    n = Nat.ofDigitChars 10 (Nat.toDigits 10 n) 0 :=
      (Nat.ofDigitChars_toDigits (by decide) (by decide)).symm
    _ = Nat.ofDigitChars 10 (Nat.toDigits 10 n') 0 := by rw [hdigits]
    _ = n' := Nat.ofDigitChars_toDigits (by decide) (by decide)

namespace Spot

variable {s s' : Spot} {e e' : String}

/-- The words of an id end with the kind of the step, so none are a part of others. -/
theorem eq_of_words (hs : s.IsProper) (hs' : s'.IsProper) (h : s.words <+: s'.words) :
    s.origin = s'.origin ∧ s.kind = s'.kind := by
  have ho := hs.origin
  have ho' := hs'.origin
  obtain ⟨o, k, _⟩ := s
  obtain ⟨o', k', _⟩ := s'
  rcases o with _ | (_ | _ | _) | _ <;> rcases o' with _ | (_ | _ | _) | _ <;>
    simp_all [words, Origin.words]

theorem toList_id_append (s : Spot) (e : String) :
    (s.id ++ e).toList = (Word.spell s.words).toList ++ (s.number.toList ++ e.toList) := by
  rw [id, String.toList_append, String.toList_append, List.append_assoc]

/-- The id of an object tells where its step stands, and which one of its objects it is. -/
theorem eq_of_id_append (hs : s.IsProper) (hs' : s'.IsProper) (he : IsEnding e) (he' : IsEnding e')
    (h : s.id ++ e = s'.id ++ e') : s = s' ∧ e = e' := by
  have hchars := congrArg String.toList h
  rw [toList_id_append, toList_id_append] at hchars
  have hsame : s.origin = s'.origin ∧ s.kind = s'.kind := by
    rcases Word.prefix_of_spell hchars with hwords | hwords
    · exact eq_of_words hs hs' hwords
    · obtain ⟨ho, hk⟩ := eq_of_words hs' hs hwords
      exact ⟨ho.symm, hk.symm⟩
  obtain ⟨o, k, n⟩ := s
  obtain ⟨o', k', n'⟩ := s'
  obtain ⟨rfl, rfl⟩ := hsame
  have hrest := List.append_cancel_left hchars
  by_cases ho : o = .teardown
  · rw [number, number, if_pos ho, if_pos ho] at hrest
    obtain rfl : n = n' := (hs.position ho).trans (hs'.position ho).symm
    exact ⟨rfl, String.toList_inj.mp hrest⟩
  · rw [number, number, if_neg ho, if_neg ho] at hrest
    obtain ⟨rfl, rfl⟩ := toString_append_inj he he' hrest
    exact ⟨rfl, rfl⟩

/-- The id of a step tells where it stands. -/
theorem id_injOn : Set.InjOn id {s | s.IsProper} := by
  intro s hs s' hs' h
  have hempty : s.id ++ "" = s'.id ++ "" := by rw [h]
  have hending : IsEnding "" := by decide
  exact (eq_of_id_append hs hs' hending hending hempty).1

end Spot

/-! ### All ids -/

/-- What a pipeline has one of at most. -/
inductive Shared where
  | schedule
  | alarm
  | defaults
  | resource (r : Resource)
  deriving DecidableEq

/-- The id of what there is one of. -/
def Shared.id : Shared → ObjectId
  | schedule => Workflow.Schedule.id
  | alarm => Workflow.Alarm.id
  | defaults => Workflow.Defaults.id
  | resource .ec2 => Workflow.Ec2Resource.id
  | resource .emr => Workflow.EmrCluster.id
  | resource .redshift => Workflow.RedshiftDatabase.id

/-- All that there is one of. -/
def Shared.all : List Shared :=
  [schedule, alarm, defaults, resource .ec2, resource .emr, resource .redshift]

theorem Shared.mem_all (x : Shared) : x ∈ Shared.all := by
  rcases x with _ | _ | _ | (_ | _ | _) <;> decide

theorem Shared.id_injective : Function.Injective Shared.id := by
  have hall : ∀ x ∈ Shared.all, ∀ x' ∈ Shared.all, x.id = x'.id → x = x' := by decide
  exact fun x x' h => hall x x.mem_all x' x'.mem_all h

/-- What there is one of is named unlike any step. -/
theorem Word.not_prefix_shared (w : Word) (x : Shared) : ¬ w.text.toList <+: x.id.toList := by
  have hall : ∀ w ∈ Word.all, ∀ x ∈ Shared.all, ¬ w.text.toList <+: x.id.toList := by
    decide +kernel
  exact hall w w.mem_all x x.mem_all

theorem Spot.id_append_ne (s : Spot) (e : String) (x : Shared) : s.id ++ e ≠ x.id := by
  intro h
  have hchars := congrArg String.toList h
  rw [Spot.toList_id_append] at hchars
  obtain ⟨w, ws, hwords⟩ := List.exists_cons_of_ne_nil
    (List.append_ne_nil_of_right_ne_nil s.origin.words (List.cons_ne_nil (Word.kind s.kind) []))
  refine w.not_prefix_shared x ⟨(Word.spell ws).toList ++ (s.number.toList ++ e.toList), ?_⟩
  rw [← hchars, Spot.words, hwords, Word.spell, String.toList_append, List.append_assoc]

/-- What an id is made up for: what there is one of, or an object of a step, by its ending. -/
inductive MadeUp where
  | shared (x : Shared)
  | part (s : Spot) (ending : String)

namespace MadeUp

/-- The id. -/
def text : MadeUp → ObjectId
  | shared x => x.id
  | part s ending => s.id ++ ending

/-- There can be such an object. -/
def IsProper : MadeUp → Prop
  | shared _ => True
  | part s ending => s.IsProper ∧ IsEnding ending

/-- An id tells what it is made up for. -/
theorem text_injOn : Set.InjOn text {x | x.IsProper} := by
  rintro (x | ⟨s, e⟩) hx (x' | ⟨s', e'⟩) hx' h
  · rw [Shared.id_injective h]
  · exact absurd h.symm (s'.id_append_ne e' x)
  · exact absurd h (s.id_append_ne e x')
  · obtain ⟨rfl, rfl⟩ := Spot.eq_of_id_append hx.1 hx'.1 hx.2 hx'.2 h
    rfl

end MadeUp

end EtlFlow.Pipeline
