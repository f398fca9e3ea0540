import EtlFlow.Proofs.Sql.Reads
import EtlFlow.Proofs.Warehouse.Rows
import Mathlib.Data.List.Induction
/-!
# The dependencies of a query

`dependencies` reports each relation that is reached once, where it is first mentioned and in the
case it has there (`dependencies_of_query`).  A relation is missed where each of its items stands
behind a comma that follows a query or a join condition: the list of relations ends there, and the
scan does not take it up again (`dependencies_subquery_first`).
-/

namespace EtlFlow.Sql.Select

open Text (sameAscii)
open Warehouse (sameAscii_iff)

/-! ### Names once -/

/-- The name is in the list, and no name before it is the same up to case. -/
def FirstMention (names : List String) (n : String) : Prop :=
  ∃ before later, names = before ++ n :: later ∧ ∀ m ∈ before, sameAscii m n = false

theorem firstMention_append_singleton (names : List String) (n m : String) :
    FirstMention (names ++ [m]) n ↔
      FirstMention names n ∨ n = m ∧ ∀ k ∈ names, sameAscii k m = false := by
  constructor
  · rintro ⟨before, later, h, first⟩
    rcases List.eq_nil_or_concat later with rfl | ⟨later, last, rfl⟩
    · obtain ⟨rfl, hm⟩ := List.append_inj' h rfl
      obtain rfl := List.singleton_inj.mp hm
      exact .inr ⟨rfl, first⟩
    · rw [List.concat_eq_append, ← List.cons_append, ← List.append_assoc] at h
      exact .inl ⟨before, later, (List.append_inj' h rfl).1, first⟩
  · rintro (⟨before, later, rfl, first⟩ | ⟨rfl, first⟩)
    · exact ⟨before, later ++ [m], by simp, first⟩
    · exact ⟨names, [], rfl, first⟩

theorem distinctNames_append_singleton (names : List String) (n : String) :
    distinctNames (names ++ [n]) =
      if (distinctNames names).any (sameAscii · n) then distinctNames names
      else distinctNames names ++ [n] := by
  rw [distinctNames, List.foldl_append]
  rfl

/-- A name is kept in some case. -/
theorem any_distinctNames (names : List String) (n : String) :
    (distinctNames names).any (sameAscii · n) = names.any (sameAscii · n) := by
  induction names using List.reverseRecOn with
  | nil => rfl
  | append_singleton names m ih =>
    rw [distinctNames_append_singleton, List.any_append, List.any_cons, List.any_nil,
      Bool.or_false, ← ih]
    split
    · rename_i kept
      cases same : sameAscii m n with
      | false => rw [Bool.or_false]
      | true =>
        obtain ⟨k, hk, hkm⟩ := List.any_eq_true.mp kept
        rw [Bool.or_true, List.any_eq_true]
        exact ⟨k, hk, sameAscii_iff.mpr ((sameAscii_iff.mp hkm).trans (sameAscii_iff.mp same))⟩
    · rw [List.any_append, List.any_cons, List.any_nil, Bool.or_false]

theorem distinctNames_sublist (names : List String) : (distinctNames names).Sublist names := by
  induction names using List.reverseRecOn with
  | nil => exact .slnil
  | append_singleton names m ih =>
    rw [distinctNames_append_singleton]
    split
    · exact ih.trans (List.sublist_append_left _ _)
    · exact ih.append_right _

/-- No two names that are kept are the same up to case. -/
theorem pairwise_distinctNames (names : List String) :
    (distinctNames names).Pairwise fun n m => sameAscii n m = false := by
  induction names using List.reverseRecOn with
  | nil => exact .nil
  | append_singleton names m ih =>
    rw [distinctNames_append_singleton]
    split
    · exact ih
    · rename_i fresh
      rw [Bool.not_eq_true, List.any_eq_false] at fresh
      exact List.pairwise_append.mpr ⟨ih, List.pairwise_singleton _ _, fun k hk l hl => by
        rw [List.mem_singleton.mp hl]
        exact Bool.eq_false_iff.mpr (fresh k hk)⟩

/-- Of names that are the same up to case, the first one is kept. -/
theorem mem_distinctNames {names : List String} {n : String} :
    n ∈ distinctNames names ↔ FirstMention names n := by
  induction names using List.reverseRecOn with
  | nil =>
    refine iff_of_false List.not_mem_nil ?_
    rintro ⟨before, later, h, -⟩
    cases before <;> cases h
  | append_singleton names m ih =>
    rw [distinctNames_append_singleton, firstMention_append_singleton, ← ih, any_distinctNames]
    split
    · rename_i seen
      refine (or_iff_left ?_).symm
      rintro ⟨-, fresh⟩
      obtain ⟨k, hk, same⟩ := List.any_eq_true.mp seen
      rw [fresh k hk] at same
      cases same
    · rename_i fresh
      rw [Bool.not_eq_true, List.any_eq_false] at fresh
      have fresh' : ∀ k ∈ names, sameAscii k m = false :=
        fun k hk => Bool.eq_false_iff.mpr (fresh k hk)
      rw [List.mem_append, List.mem_singleton]
      exact or_congr_right (and_iff_left fresh').symm

/-! ### The relations of a query -/

/-- The relations of a query are those that are reached, each once and where it is first mentioned.
These are all that are mentioned, less those behind a comma that does not go on with a list. -/
theorem dependencies_of_query {sql : String} {q : Query} (hq : q.wellFormed = true)
    (hscan : Token.scan sql = .ok q.tokens) :
    ∃ names, dependencies sql = .ok names ∧
      (∀ n, names.any (sameAscii · n) = q.reached.any (sameAscii · n)) ∧
      names.Sublist q.reached ∧ (∀ n, n ∈ names ↔ FirstMention q.reached n) ∧
      names.Pairwise (fun n m => sameAscii n m = false) ∧
      q.reached.Sublist q.mentioned ∧ (q.unbroken = true → q.reached = q.mentioned) := by
  have found : reads [] q.tokens = ⟨q.reached, []⟩ := by
    have stops : Stops [] := fun t ht => by cases ht
    have := q.reads_eq hq [] rfl [] stops
    rw [List.append_nil] at this
    rw [this, reads, Reads.behind, List.append_nil]
    rfl
  refine ⟨distinctNames q.reached, ?_, any_distinctNames _, distinctNames_sublist _,
    fun n => mem_distinctNames, pairwise_distinctNames _, q.sublist_names, q.names_of_unbroken⟩
  simp [dependencies, hscan, found]

/-- The word SELECT. -/
def selectWord : Keyword "SELECT" := ⟨.word "SELECT" none, by decide +kernel⟩

/-- The word FROM before the first item. -/
def fromWord : Separator := .start ⟨.word "FROM" none, by decide +kernel⟩

/-- Tokens without parentheses, before a list of items or behind it. -/
def Words.ofTokens : List Token → Words
  | [] => .nil
  | t :: ts => .token t (ofTokens ts)

/-- The name `a`, as a relation or an alias. -/
def nameA : Identifier := ⟨"a", none, by decide +kernel⟩

/-- The name `b`. -/
def nameB : Identifier := ⟨"b", none, by decide +kernel⟩

/-- The name `s`, as an alias. -/
def nameS : Identifier := ⟨"s", none, by decide +kernel⟩

/-- A query with a list, a join and a query inside the join. -/
def joined : Query :=
  let inner : Query := .select selectWord (.ofTokens [.word "id" none])
    (.relation fromWord ⟨⟨"c", none, by decide +kernel⟩, []⟩ .none .nil
      (.relation .comma ⟨⟨"B", none, by decide +kernel⟩, []⟩ .none .nil .nil)) .nil
  let condition : Words := .ofTokens [.word "ON" none, .word "s" none, .period, .word "id" none,
    .operator "=", .word "b" none, .period, .word "id" none]
  .select selectWord (.ofTokens [.word "a" none, .period, .word "id" none])
    (.relation fromWord ⟨⟨"staging", none, by decide +kernel⟩, [nameA]⟩
        (.as ⟨.word "AS" none, by decide +kernel⟩ nameA) .nil
      (.relation .comma ⟨nameB, []⟩ .none .nil
        (.query (.join [.word "LEFT" none] ⟨.word "JOIN" none, by decide +kernel⟩) inner
          (.bare nameS) condition .nil))) .nil

/-- The text of `joined`. -/
def joinedText : String :=
  "SELECT a.id FROM staging.a AS a, b LEFT JOIN (SELECT id FROM c, B) s ON s.id = b.id"

/-- No comma of `joined` follows a query or a condition, and no relation is missed. -/
theorem dependencies_of_query_joined : joined.wellFormed = true ∧
    Token.scan joinedText = .ok joined.tokens ∧ joined.unbroken = true ∧
    ∃ names, dependencies joinedText = .ok names ∧ names.Sublist ["staging.a", "b", "c", "B"] ∧
      ∀ n, names.any (sameAscii · n) = ["staging.a", "b", "c", "B"].any (sameAscii · n) := by
  have wellFormed : joined.wellFormed = true := by decide +kernel
  have scan : Token.scan joinedText = .ok joined.tokens := by decide +kernel
  have unbroken : joined.unbroken = true := by decide +kernel
  obtain ⟨names, found, cover, sublist, -, -, -, all⟩ := dependencies_of_query wellFormed scan
  have mentioned : joined.mentioned = ["staging.a", "b", "c", "B"] := by decide +kernel
  rw [all unbroken, mentioned] at cover sublist
  exact ⟨wellFormed, scan, unbroken, names, found, sublist, cover⟩

/-- The query `SELECT x FROM (SELECT y FROM a) s, b`. -/
def subqueryFirst : Query :=
  .select selectWord (.ofTokens [.word "x" none])
    (.query fromWord
      (.select selectWord (.ofTokens [.word "y" none])
        (.relation fromWord ⟨nameA, []⟩ .none .nil .nil) .nil)
      (.bare nameS) .nil
      (.relation .comma ⟨nameB, []⟩ .none .nil .nil)) .nil

/-- Of two items the second one is missed, where the first one is a query. -/
theorem dependencies_subquery_first :
    subqueryFirst.wellFormed = true ∧
      Token.scan "SELECT x FROM (SELECT y FROM a) s, b" = .ok subqueryFirst.tokens ∧
      subqueryFirst.mentioned = ["a", "b"] ∧
      dependencies "SELECT x FROM (SELECT y FROM a) s, b" = .ok ["a"] := by
  decide +kernel

end EtlFlow.Sql.Select
