import EtlFlow.Sql.Script
import Mathlib.Data.List.Basic
/-!
# The transaction around a script

A statement is a BEGIN, a COMMIT or work.  Read from left to right a BEGIN opens a transaction and a
COMMIT closes the open one; transactions do not nest, so a BEGIN in an open one opens nothing more.
The script in a transaction has a BEGIN in front, a COMMIT at the end and its own statements between
them.  Only the first and the last statement decide whether it has them already, and what stands
between them stays, so a COMMIT of the script's own ends the transaction there: all work is done
inside a transaction exactly when the work behind such a COMMIT is in a transaction of its own
(`inTransaction_eq`).
-/

namespace EtlFlow.Sql

open Text (sameAscii)

namespace Statement

variable {s : Statement}

/-- The statement opens a transaction. -/
def isBegin (s : Statement) : Bool := sameAscii "BEGIN" s.text

/-- The statement closes the open transaction. -/
def isCommit (s : Statement) : Bool := sameAscii "COMMIT" s.text

/-- The statement is neither. -/
def isWork (s : Statement) : Bool := !s.isBegin && !s.isCommit

/-- A transaction is open behind the statement. -/
def opens (s : Statement) (before : Bool) : Bool := s.isBegin || before && !s.isCommit

theorem isCommit_eq_false (h : s.isBegin) : s.isCommit = false := by
  rw [isBegin, sameAscii, beq_iff_eq] at h
  rw [isCommit, sameAscii, ← h]
  decide +kernel

theorem isBegin_eq_false (h : s.isCommit) : s.isBegin = false := by
  cases hb : s.isBegin with
  | false => rfl
  | true => rw [isCommit_eq_false hb] at h; cases h

theorem opens_of_isBegin (h : s.isBegin) (before : Bool) : s.opens before = true := by
  rw [opens, h, Bool.true_or]

theorem opens_of_isCommit (h : s.isCommit) (before : Bool) : s.opens before = false := by
  rw [opens, isBegin_eq_false h, h, Bool.not_true, Bool.and_false, Bool.or_false]

theorem opens_of_isWork (h : s.isWork) (before : Bool) : s.opens before = before := by
  simp only [isWork, Bool.and_eq_true, Bool.not_eq_true'] at h
  rw [opens, h.1, h.2, Bool.not_false, Bool.and_true, Bool.false_or]

end Statement

open Statement

variable {s first last : Statement} {ss : List Statement} {before : Bool}

/-! ### Reading from left to right -/

/-- A transaction is open behind the statements. -/
def opensBehind (before : Bool) (ss : List Statement) : Bool := ss.foldl (fun b s => s.opens b) before

/-- Each BEGIN is closed by the next COMMIT, and there are no other COMMITs. -/
def Paired : Bool → List Statement → Prop
  | before, [] => before = false
  | before, s :: ss =>
    (s.isBegin → before = false) ∧ (s.isCommit → before = true) ∧ Paired (s.opens before) ss

/-- All work of the statements is done while a transaction is open. -/
def Inside (before : Bool) (ss : List Statement) : Prop :=
  ∀ front s rear, ss = front ++ s :: rear → s.isWork → opensBehind before front

/-- The work behind a COMMIT is done while a transaction is open that was opened behind it. -/
def InsideAgain (ss : List Statement) : Prop :=
  ∀ front s rear, ss = front ++ s :: rear → s.isWork → (∃ c ∈ front, c.isCommit) →
    opensBehind false front

theorem opensBehind_cons : opensBehind before (s :: ss) = opensBehind (s.opens before) ss := rfl

/-- A transaction that was open in front is open behind unless there is a COMMIT, and behind a COMMIT
nothing is left of it. -/
theorem opensBehind_true_iff :
    opensBehind true ss ↔ ((∃ c ∈ ss, c.isCommit) → opensBehind false ss) := by
  induction ss with
  | nil => simp [opensBehind]
  | cons s ss ih =>
    rw [opensBehind_cons, opensBehind_cons, List.exists_mem_cons_iff]
    cases hc : s.isCommit with
    | true =>
      rw [opens_of_isCommit hc, opens_of_isCommit hc]
      exact ⟨fun h _ => h, fun h => h (.inl rfl)⟩
    | false =>
      cases hb : s.isBegin with
      | true =>
        rw [opens_of_isBegin hb, opens_of_isBegin hb]
        refine ⟨fun h _ => h, fun h => ih.mpr fun hss => ?_⟩
        exact ih.mp (h (.inr hss)) hss
      | false =>
        have work : s.isWork := by rw [isWork, hb, hc]; rfl
        rw [opens_of_isWork work, opens_of_isWork work, ih]
        simp

/-- The step: work needs what is open in front of it, and what is open behind a statement is what the
rest starts with. -/
theorem inside_cons :
    Inside before (s :: ss) ↔ (s.isWork → before) ∧ Inside (s.opens before) ss := by
  constructor
  · intro h
    refine ⟨h [] s ss rfl, fun front x rear hss hx => ?_⟩
    exact h (s :: front) x rear (by rw [hss, List.cons_append]) hx
  · rintro ⟨hs, hss⟩ front x rear heq hx
    cases front with
    | nil =>
      obtain ⟨rfl, rfl⟩ := List.cons.inj heq
      exact hs hx
    | cons y front =>
      obtain ⟨rfl, rfl⟩ := List.cons.inj heq
      exact hss front x rear rfl hx

theorem inside_nil : Inside before [] := by
  rintro front x rear h -
  exact absurd h.symm (List.append_ne_nil_of_right_ne_nil _ (List.cons_ne_nil _ _))

instance Inside.decidable : (before : Bool) → (ss : List Statement) → Decidable (Inside before ss)
  | _, [] => isTrue inside_nil
  | before, s :: ss =>
    have := decidable (s.opens before) ss
    decidable_of_iff' _ inside_cons

instance Paired.decidable : (before : Bool) → (ss : List Statement) → Decidable (Paired before ss)
  | before, [] => inferInstanceAs (Decidable (before = false))
  | before, s :: ss =>
    have := decidable (s.opens before) ss
    inferInstanceAs (Decidable (_ ∧ _ ∧ _))

/-- Behind a BEGIN and in front of a COMMIT only the work between them counts. -/
theorem inside_between (hfirst : first.isBegin) (hlast : last.isCommit) :
    Inside before (first :: (ss ++ [last])) ↔ Inside true ss := by
  rw [inside_cons, opens_of_isBegin hfirst]
  constructor
  · rintro ⟨-, h⟩ front x rear rfl hx
    exact h front x (rear ++ [last]) (by rw [List.append_assoc, List.cons_append]) hx
  · intro h
    refine ⟨fun work => by simp [isWork, hfirst] at work, fun front x rear heq hx => ?_⟩
    rcases List.eq_nil_or_concat rear with rfl | ⟨rear, y, rfl⟩
    · obtain ⟨-, hx'⟩ := List.append_inj' heq rfl
      obtain rfl := List.singleton_inj.mp hx'
      simp [isWork, hlast] at hx
    · rw [List.concat_eq_append, ← List.cons_append, ← List.append_assoc] at heq
      exact h front x rear (List.append_inj' heq rfl).1 hx

theorem inside_true_iff : Inside true ss ↔ InsideAgain ss :=
  forall₅_congr fun _ _ _ _ _ => opensBehind_true_iff

/-- Pairs can stand between a BEGIN and a COMMIT only when there are none: the first one would open a
transaction in the open one. -/
theorem Paired.between_iff (h : Paired false ss) (hfirst : first.isBegin) (hlast : last.isCommit) :
    Paired false (first :: (ss ++ [last])) ↔ ∀ s ∈ ss, s.isWork := by
  have open_iff : Paired true (ss ++ [last]) ↔ ∀ s ∈ ss, s.isWork := by
    induction ss with
    | nil => simp [Paired, opens_of_isCommit hlast, hlast, isBegin_eq_false hlast]
    | cons s ss ih =>
      rw [List.cons_append, List.forall_mem_cons]
      cases hc : s.isCommit with
      | true => cases h.2.1 hc
      | false =>
        cases hb : s.isBegin with
        | true =>
          constructor
          · rintro ⟨hs, -⟩
            cases hs hb
          · rintro ⟨hs, -⟩
            simp [isWork, hb] at hs
        | false =>
          have work : s.isWork := by rw [isWork, hb, hc]; rfl
          have rest : Paired false ss := opens_of_isWork work false ▸ h.2.2
          rw [Paired, opens_of_isWork work, ih rest]
          simp [hb, work]
  rw [Paired, opens_of_isBegin hfirst, open_iff]
  simp [isCommit_eq_false hfirst]

/-! ### Between BEGIN and COMMIT -/

namespace Script

variable {s : Script}

/-- The statements without the BEGIN and the COMMIT that the script starts and ends with. -/
def body (s : Script) : List Statement :=
  if s.isTransaction then s.statements.tail.dropLast else s.statements

theorem isTransaction_iff :
    s.isTransaction ↔ ∃ first ss last, first.isBegin ∧ last.isCommit ∧
      s.statements = first :: (ss ++ [last]) := by
  obtain ⟨_ | ⟨first, rest⟩⟩ := s
  · simp [isTransaction]
  rcases List.eq_nil_or_concat rest with rfl | ⟨ss, last, rfl⟩
  · simp [isTransaction]
  · have shape : (⟨first :: ss.concat last⟩ : Script).isTransaction =
        (first.isBegin && last.isCommit) := by
      rw [isTransaction, List.concat_eq_append, List.head?_cons, ← List.cons_append,
        List.getLast?_concat, List.length_append, List.length_cons]
      simp [Statement.isBegin, Statement.isCommit]
    rw [shape, Bool.and_eq_true, List.concat_eq_append]
    constructor
    · rintro ⟨hfirst, hlast⟩
      exact ⟨first, ss, last, hfirst, hlast, rfl⟩
    · rintro ⟨first', ss', last', hfirst, hlast, heq⟩
      obtain ⟨rfl, htail⟩ := List.cons.inj heq
      obtain ⟨rfl, hl⟩ := List.append_inj' htail rfl
      obtain rfl := List.singleton_inj.mp hl
      exact ⟨hfirst, hlast⟩

/-- The ends are a BEGIN and a COMMIT, and what stands between them is the body. -/
theorem exists_inTransaction_eq (s : Script) :
    ∃ first last, first.isBegin ∧ last.isCommit ∧
      s.inTransaction.statements = first :: (s.body ++ [last]) := by
  rw [inTransaction, body]
  split
  · obtain ⟨first, ss, last, hfirst, hlast, heq⟩ := isTransaction_iff.mp ‹_›
    refine ⟨first, last, hfirst, hlast, ?_⟩
    rw [heq, List.tail_cons, List.dropLast_concat]
  · exact ⟨⟨"BEGIN"⟩, ⟨"COMMIT"⟩, by decide +kernel, by decide +kernel, rfl⟩

theorem isTransaction_inTransaction (s : Script) : s.inTransaction.isTransaction := by
  obtain ⟨first, last, hfirst, hlast, heq⟩ := s.exists_inTransaction_eq
  exact isTransaction_iff.mpr ⟨first, s.body, last, hfirst, hlast, heq⟩

/-- A script without a COMMIT between its ends is one transaction. -/
theorem inside_inTransaction (h : ∀ c ∈ s.body, c.isCommit = false) :
    Inside false s.inTransaction.statements := by
  obtain ⟨first, last, hfirst, hlast, heq⟩ := s.exists_inTransaction_eq
  rw [heq, inside_between hfirst hlast, inside_true_iff]
  rintro front x rear hbody - ⟨c, hc, commit⟩
  rw [h c (hbody ▸ List.mem_append_left _ hc)] at commit
  cases commit

/-- A script in a transaction starts with a BEGIN, ends with a COMMIT and has between them the body of
the script, and a second time changes nothing.  All its work is done inside a transaction exactly when
the work of the body that stands behind a COMMIT of the body is in a transaction opened behind it,
whether or not the BEGINs and COMMITs of the script are paired.  Those that are paired are so in the
transaction exactly when the script has its ends already or is all work. -/
theorem inTransaction_eq (s : Script) :
    (∃ first last, first.isBegin ∧ last.isCommit ∧
      s.inTransaction.statements = first :: (s.body ++ [last])) ∧
    s.inTransaction.inTransaction = s.inTransaction ∧
    (Inside false s.inTransaction.statements ↔ InsideAgain s.body) ∧
    (Paired false s.statements → (Paired false s.inTransaction.statements ↔
      s.isTransaction ∨ ∀ x ∈ s.statements, x.isWork)) := by
  obtain ⟨first, last, hfirst, hlast, heq⟩ := s.exists_inTransaction_eq
  refine ⟨s.exists_inTransaction_eq, if_pos s.isTransaction_inTransaction, ?_, fun paired => ?_⟩
  · rw [heq, inside_between hfirst hlast, inside_true_iff]
  · cases ht : s.isTransaction with
    | true =>
      have same : s.inTransaction = s := if_pos ht
      simpa [same] using paired
    | false =>
      have body : s.body = s.statements := if_neg (by rw [ht]; exact Bool.false_ne_true)
      rw [heq, body, paired.between_iff hfirst hlast]
      simp

/-- Two transactions with work between them are taken for one, and a transaction in the middle of a
script ends the one around it. -/
theorem not_inside_inTransaction :
    (Paired false (ofText "BEGIN; a; COMMIT; b; BEGIN; c; COMMIT").statements ∧
      ¬ Inside false (ofText "BEGIN; a; COMMIT; b; BEGIN; c; COMMIT").inTransaction.statements) ∧
    Paired false (ofText "a; BEGIN; b; COMMIT; c").statements ∧
      ¬ Inside false (ofText "a; BEGIN; b; COMMIT; c").inTransaction.statements := by
  decide +kernel

end Script

end EtlFlow.Sql
