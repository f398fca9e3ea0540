import EtlFlow.Proofs.Outcome
import EtlFlow.Proofs.Sql.Words
import EtlFlow.Sql.TableDef.Parser
import EtlFlow.Warehouse.Header
import Mathlib.Data.List.Basic
import Mathlib.Data.List.Forall2
import Mathlib.Data.List.TakeWhile
/-!
# The head of a statement and its tokens

The head of a CREATE TABLE statement is recognised twice: in the characters, where another name or a
guard goes in, and in the tokens, where the definition is read.  A head that the characters show
(`Spells`) is one that the tokens show (`Spells.reads`), so a change behind it changes the
definition in the place that was meant.
-/

namespace EtlFlow.Text

variable {word s r : List Char}

theorem dropFolded?_eq_some_iff {fold : Char → Char} :
    dropFolded? fold word s = some r ↔ ∃ w, s = w ++ r ∧ w.map fold = word := by
  induction word generalizing s with
  | nil =>
    constructor
    · intro h
      cases h
      exact ⟨[], rfl, rfl⟩
    · rintro ⟨w, rfl, hw⟩
      rw [List.map_eq_nil_iff.mp hw]
      rfl
  | cons a word ih =>
    cases s with
    | nil => simp [dropFolded?]
    | cons c s =>
      rw [dropFolded?]
      split
      · rename_i hc
        rw [ih]
        constructor
        · rintro ⟨w, rfl, hw⟩
          exact ⟨c :: w, rfl, by rw [List.map_cons, hc, hw]⟩
        · rintro ⟨w, hs, hw⟩
          cases w with
          | nil => cases hw
          | cons d w =>
            cases hs
            exact ⟨w, rfl, (List.cons.inj hw).2⟩
      · rename_i hc
        constructor
        · intro h
          cases h
        · rintro ⟨w, hs, hw⟩
          cases w with
          | nil => cases hw
          | cons d w =>
            cases hs
            exact absurd (List.cons.inj hw).1 hc

theorem dropBlanks?_eq_some_iff : dropBlanks? s = some r ↔
    ∃ b, s = b ++ r ∧ b ≠ [] ∧ (∀ c ∈ b, isBlank c) ∧ ∀ c ∈ r.head?, isBlank c = false := by
  constructor
  · intro h
    cases s with
    | nil => cases h
    | cons c s =>
      rw [dropBlanks?] at h
      split at h
      · rename_i hc
        cases h
        refine ⟨c :: s.takeWhile isBlank, ?_, List.cons_ne_nil _ _, ?_, ?_⟩
        · rw [trimStart, List.cons_append, List.takeWhile_append_dropWhile]
        · rw [List.forall_mem_cons]
          exact ⟨hc, fun d hd => List.mem_takeWhile_imp hd⟩
        · intro d hd
          have := List.head?_dropWhile_not isBlank s
          rw [trimStart] at hd
          rw [Option.mem_def] at hd
          rw [hd] at this
          simpa using this
      · cases h
  · rintro ⟨b, rfl, hb, hblank, hr⟩
    cases b with
    | nil => exact absurd rfl hb
    | cons c b =>
      rw [List.forall_mem_cons] at hblank
      rw [List.cons_append, dropBlanks?, if_pos hblank.1, trimStart,
        List.dropWhile_append_of_pos hblank.2]
      cases r with
      | nil => rfl
      | cons d r => rw [List.dropWhile_cons_of_neg (by simp [hr d (by simp)])]

theorem exists_of_dropSpacedWord? (h : dropSpacedWord? word s = some r) :
    ∃ b w, s = b ++ (w ++ r) ∧ b ≠ [] ∧ (∀ c ∈ b, isBlank c) ∧ w.map foldCase = word := by
  obtain ⟨q, hq, hr⟩ := Option.bind_eq_some_iff.mp h
  obtain ⟨b, rfl, hne, hb, -⟩ := dropBlanks?_eq_some_iff.mp hq
  obtain ⟨w, rfl, hw⟩ := dropFolded?_eq_some_iff.mp hr
  exact ⟨b, w, rfl, hne, hb, hw⟩

/-- The letters whose capitals no other character has, up to the long s. -/
def plainLetters : List Char := "abcdefghijlmnopqrstuvwxyz".toList

/-- A character beyond ASCII is its own small letter. -/
theorem toLower_of_le {c : Char} (h : 128 ≤ c.toNat) : c.toLower = c := by
  refine dif_neg ?_
  rw [ge_iff_le, UInt32.le_iff_toNat_le, UInt32.le_iff_toNat_le]
  change ¬(65 ≤ c.toNat ∧ c.toNat ≤ 90)
  omega

theorem foldCase_of_le {c : Char} (h : 128 ≤ c.toNat) (hs : c ≠ 'ſ') (hk : c ≠ 'K') :
    foldCase c = c := by
  rw [foldCase, if_neg hs, if_neg hk, toLower_of_le h]

/-- A character beyond ASCII is its own capital. -/
theorem toUpper_of_le {c : Char} (h : 128 ≤ c.toNat) : c.toUpper = c := by
  refine dif_neg ?_
  rw [UInt32.le_iff_toNat_le, UInt32.le_iff_toNat_le]
  change ¬(97 ≤ c.toNat ∧ c.toNat ≤ 122)
  omega

/-- A character that folds to a letter is read as that letter. -/
theorem capitals_of_foldCase {c : Char} (h : foldCase c ∈ plainLetters) :
    Sql.capitals c = [(foldCase c).toUpper] ∧ Sql.Token.startsWord c := by
  by_cases hc : c.toNat < 128
  · exact Sql.Token.forall_ascii (p := fun c => foldCase c ∈ plainLetters →
      Sql.capitals c = [(foldCase c).toUpper] ∧ Sql.Token.startsWord c) (by decide +kernel) hc h
  · by_cases hs : c = 'ſ'
    · subst hs
      decide +kernel
    by_cases hk : c = 'K'
    · subst hk
      revert h
      decide
    rw [foldCase_of_le (by omega) hs hk] at h
    have table : ∀ l ∈ plainLetters, l.toNat < 128 := by decide
    exact absurd (table c h) hc

end EtlFlow.Text

namespace EtlFlow.Warehouse.Header

open Sql Sql.Token Text
open Outcome (bind_eq_ok_iff map_eq_ok_iff guard_eq_ok_iff pure_eq_ok_iff)

/-! ### Words with blanks behind them -/

/-- A word in any case with blanks behind it. -/
def Spaced (word : String) (k : List Char) : Prop :=
  ∃ w b, k = w ++ b ∧ w.map foldCase = word.toList ∧ b ≠ [] ∧ ∀ c ∈ b, isBlank c

/-- Words in any case, each with blanks behind it. -/
inductive Spells : List String → List Char → Prop where
  | nil : Spells [] []
  | cons {word : String} {words : List String} {k s : List Char} : Spaced word k → Spells words s →
      Spells (word :: words) (k ++ s)

theorem Spells.append {us ws : List String} {s r : List Char} (h : Spells us s) (g : Spells ws r) :
    Spells (us ++ ws) (s ++ r) := by
  induction h with
  | nil => exact g
  | cons hk _ ih =>
    rw [List.append_assoc]
    exact .cons hk ih

theorem dropWord?_eq_some_iff {word : String} {s r : List Char} : dropWord? word s = some r ↔
    ∃ k, s = k ++ r ∧ Spaced word k ∧ ∀ c ∈ r.head?, isBlank c = false := by
  simp only [dropWord?, Text.dropWord?, Option.bind_eq_some_iff, dropFolded?_eq_some_iff,
    dropBlanks?_eq_some_iff]
  constructor
  · rintro ⟨q, ⟨w, rfl, hw⟩, b, rfl, hb, hblank, hr⟩
    exact ⟨w ++ b, (List.append_assoc w b r).symm, ⟨w, b, rfl, hw, hb, hblank⟩, hr⟩
  · rintro ⟨k, rfl, ⟨w, b, rfl, hw, hb, hblank⟩, hr⟩
    exact ⟨b ++ r, ⟨w, List.append_assoc w b r, hw⟩, b, rfl, hb, hblank, hr⟩

/-- Every reading of a text behind `front` starts with `ts`. -/
def Fronts (front : List Char) (ts : List Token) : Prop := ∀ r, Reads (front ++ r) ts r

theorem Fronts.append {f g : List Char} {ts us : List Token} (hf : Fronts f ts) (hg : Fronts g us) :
    Fronts (f ++ g) (ts ++ us) := by
  intro r
  rw [List.append_assoc]
  exact (hf (g ++ r)).trans (hg r)

/-- The word consists of letters that have one capital each. -/
def IsPlain (word : String) : Prop := word.toList ≠ [] ∧ ∀ l ∈ word.toList, l ∈ plainLetters

instance (word : String) : Decidable (IsPlain word) := inferInstanceAs (Decidable (_ ∧ _))

theorem capitalised_eq {word : String} {w : List Char} (hw : w.map foldCase = word.toList)
    (hp : IsPlain word) : capitalised (String.ofList w) = upperAscii word := by
  have letters : ∀ c ∈ w, capitals c = [(foldCase c).toUpper] := by
    intro c hc
    refine (capitals_of_foldCase (hp.2 _ ?_)).1
    rw [← hw]
    exact List.mem_map_of_mem hc
  have folded : w.flatMap capitals = (w.map foldCase).map Char.toUpper := by
    rw [List.flatMap_congr letters, ← List.map_eq_flatMap, List.map_map]
    rfl
  rw [capitalised, String.toList_ofList, folded, hw]
  exact String.toList_inj.mp (by simp [upperAscii])

theorem startsWord_of_map_foldCase {word : String} {w : List Char}
    (hw : w.map foldCase = word.toList) (hp : IsPlain word) : ∀ c ∈ w, startsWord c := by
  intro c hc
  refine (capitals_of_foldCase (hp.2 _ ?_)).2
  rw [← hw]
  exact List.mem_map_of_mem hc

theorem Spaced.fronts {word : String} {k : List Char} (h : Spaced word k) (hp : IsPlain word) :
    ∃ t, t.isKeyword (upperAscii word) ∧ Fronts k [t] := by
  obtain ⟨w, b, rfl, hw, hb, hblank⟩ := h
  have starts := startsWord_of_map_foldCase hw hp
  refine ⟨.word (String.ofList w) none, ?_, ?_⟩
  · simp [Token.isKeyword, capitalised_eq hw hp]
  · intro r
    obtain ⟨c, u, rfl⟩ : ∃ c u, w = c :: u := by
      cases w with
      | nil => exact absurd hw.symm hp.1
      | cons c u => exact ⟨c, u, rfl⟩
    rw [List.forall_mem_cons] at starts
    have ends : EndsWord (b ++ r) := by
      cases b with
      | nil => exact absurd rfl hb
      | cons d b => exact endsWord_of_isBlank (hblank d (by simp))
    rw [List.append_assoc]
    exact (reads_word starts.1 (fun d hd => inWord_of_startsWord (starts.2 d hd)) ends).trans
      (reads_blanks hblank)

/-- The tokens of words. -/
def AreKeywords (words : List String) (ts : List Token) : Prop :=
  List.Forall₂ (fun t word => t.isKeyword (upperAscii word) = true) ts words

theorem Spells.fronts {words : List String} {s : List Char} (h : Spells words s)
    (hp : ∀ word ∈ words, IsPlain word) : ∃ ts, AreKeywords words ts ∧ Fronts s ts := by
  induction h with
  | nil => exact ⟨[], .nil, fun r => .refl r⟩
  | cons hk _ ih =>
    rw [List.forall_mem_cons] at hp
    obtain ⟨t, ht, hf⟩ := hk.fronts hp.1
    obtain ⟨ts, hts, hfs⟩ := ih hp.2
    exact ⟨t :: ts, .cons ht hts, hf.append hfs⟩

/-! ### The head of a statement -/

/-- The words of the guard. -/
def guardWords : List String := ["if", "not", "exists"]

/-- The words of a head. -/
def headWords (temporary : Option String) (guard : Bool) : List String :=
  "create" :: temporary.toList ++ "table" :: if guard then guardWords else []

/-- What may stand between CREATE and TABLE. -/
def IsTemporary (temporary : Option String) : Prop :=
  temporary = none ∨ temporary = some "temp" ∨ temporary = some "temporary"

theorem dropTemporary?_getD (s : List Char) : ∃ k, ∃ temporary, s = k ++ (dropTemporary? s).getD s ∧
    IsTemporary temporary ∧ Spells temporary.toList k := by
  have found {word : String} {r : List Char} (h : dropWord? word s = some r) :
      ∃ k, s = k ++ r ∧ Spells [word] k := by
    obtain ⟨k, hs, hk, -⟩ := dropWord?_eq_some_iff.mp h
    exact ⟨k ++ [], by simpa using hs, .cons hk .nil⟩
  unfold dropTemporary?
  cases h : dropWord? "temp" s with
  | some r =>
    obtain ⟨k, hs, hk⟩ := found h
    exact ⟨k, some "temp", hs, .inr (.inl rfl), hk⟩
  | none =>
    cases h : dropWord? "temporary" s with
    | some r =>
      obtain ⟨k, hs, hk⟩ := found h
      exact ⟨k, some "temporary", hs, .inr (.inr rfl), hk⟩
    | none => exact ⟨[], none, rfl, .inl rfl, .nil⟩

/-- The parts of a recognised head, the guard not among them. -/
theorem split?_parts {s tmp r : List Char} (h : split? s = some (tmp, r)) :
    ∃ b c l, ∃ temporary, s = b ++ (c ++ (tmp ++ (l ++ r))) ∧ (∀ c ∈ b, isBlank c) ∧
      Spaced "create" c ∧ IsTemporary temporary ∧ Spells temporary.toList tmp ∧ Spaced "table" l ∧
      ∀ c ∈ r.head?, isBlank c = false := by
  simp only [split?, Option.bind_eq_bind, Option.bind_eq_some_iff, Option.pure_def,
    Option.some.injEq, Prod.mk.injEq] at h
  obtain ⟨q, hq, u, hu, htmp, rfl⟩ := h
  obtain ⟨c, hs, create, -⟩ := dropWord?_eq_some_iff.mp hq
  obtain ⟨m, temporary, hm, ht, between⟩ := dropTemporary?_getD q
  obtain ⟨l, hl, table, hr⟩ := dropWord?_eq_some_iff.mp hu
  generalize (dropTemporary? q).getD q = v at hm htmp hl hu
  subst hm
  rw [List.length_append, Nat.add_sub_cancel, List.take_left' rfl] at htmp
  subst htmp
  refine ⟨s.takeWhile isBlank, c, l, temporary, ?_, ?_, create, ht, between, table, hr⟩
  · rw [← hl, ← hs, trimStart, List.takeWhile_append_dropWhile]
  · exact fun c hc => List.mem_takeWhile_imp hc

theorem spells_head {temporary : Option String} {c m l : List Char} (hc : Spaced "create" c)
    (hm : Spells temporary.toList m) (hl : Spaced "table" l) :
    Spells (headWords temporary false) (c ++ (m ++ l)) := by
  have last : Spells ["table"] (l ++ []) := .cons hl .nil
  rw [List.append_nil] at last
  exact .cons hc (hm.append last)

/-- The characters and the words of a recognised head, the guard not among them. -/
theorem split?_eq_some {s tmp r : List Char} (h : split? s = some (tmp, r)) :
    ∃ b k, ∃ temporary, s = b ++ (k ++ r) ∧ (∀ c ∈ b, isBlank c) ∧ IsTemporary temporary ∧
      Spells (headWords temporary false) k := by
  obtain ⟨b, c, l, temporary, hs, hb, hc, ht, hm, hl, -⟩ := split?_parts h
  exact ⟨b, c ++ (tmp ++ l), temporary, by simpa using hs, hb, ht, spells_head hc hm hl⟩

theorem dropGuard?_eq_some {s r : List Char} (h : dropGuard? s = some r) :
    ∃ k, s = k ++ r ∧ Spells guardWords k := by
  simp only [dropGuard?, Option.bind_eq_some_iff, dropWord?_eq_some_iff] at h
  obtain ⟨_, ⟨_, ⟨k, rfl, hk, -⟩, l, rfl, hl, -⟩, m, rfl, hm, -⟩ := h
  exact ⟨k ++ (l ++ (m ++ [])), by simp, .cons hk (.cons hl (.cons hm .nil))⟩

/-- The guard behind a head, with its words. -/
theorem dropGuard?_getD (s : List Char) : ∃ k, ∃ guard : Bool, s = k ++ (dropGuard? s).getD s ∧
    Spells (if guard then guardWords else []) k := by
  cases h : dropGuard? s with
  | none => exact ⟨[], false, rfl, .nil⟩
  | some r =>
    obtain ⟨k, hs, hk⟩ := dropGuard?_eq_some h
    exact ⟨k, true, hs, hk⟩

/-! ### The definition behind a head -/

/-- The next tokens are the guard. -/
def atGuard (ts : List Token) : Bool :=
  Grammar.atKeyword "IF" ts && Grammar.atKeyword "NOT" (ts.drop 1) &&
    Grammar.atKeyword "EXISTS" (ts.drop 2)

open Grammar in
/-- The definition that the tokens behind a head spell. -/
def behindHead (temporary ifNotExists : Bool) (ts : List Token) : Except Sql.Error TableDef := do
  let (fullName, ts) ← relationName ts
  if !atParen ts then throw (.grammar (.expected "(" (nextText ts)))
  let (items, ts) ← tableItems 0 ts.tail
  if ts.head? ≠ some .rparen then throw (.grammar (.expected ")" (nextText ts)))
  if !items.any (fun | .column _ => true | _ => false) then throw (.noColumns fullName)
  let (attributes, ts) ← tableAttributes ts.tail
  atEnd ts
  return TableDef.assemble fullName temporary ifNotExists items attributes

theorem isKeyword_of_ne {t : Token} {a b : String} (h : t.isKeyword a) (hab : a ≠ b) :
    t.isKeyword b = false := by
  cases t with
  | word v q =>
    cases q with
    | none =>
      simp only [Token.isKeyword, beq_iff_eq] at h
      simp [Token.isKeyword, h, hab]
    | some q => rfl
  | _ => rfl

theorem ofTokens_def (ts : List Token) : TableDef.ofTokens ts = (do
    let ts ← Grammar.keyword "CREATE" ts
    let temporary := Grammar.atKeyword "TEMPORARY" ts || Grammar.atKeyword "TEMP" ts
    let us ← Grammar.keyword "TABLE" (if temporary then ts.tail else ts)
    behindHead temporary (atGuard us) (if atGuard us then us.drop 3 else us)) := rfl

theorem keyword_cons {k : String} {t : Token} {ts : List Token} (h : t.isKeyword k) :
    Grammar.keyword k (t :: ts) = .ok ts := by
  rw [Grammar.keyword, Grammar.atKeyword, if_pos h, List.tail_cons]

/-- What the head means for the definition, where the guard is looked for behind it. -/
theorem ofTokens_eq {temporary : Option String} {ts us : List Token} (ht : IsTemporary temporary)
    (hts : AreKeywords (headWords temporary false) ts) :
    TableDef.ofTokens (ts ++ us) = behindHead temporary.isSome (atGuard us)
      (if atGuard us then us.drop 3 else us) := by
  have create : upperAscii "create" = "CREATE" := by simp [upperAscii, ← String.toList_inj]
  have temp : upperAscii "temp" = "TEMP" := by simp [upperAscii, ← String.toList_inj]
  have temporary' : upperAscii "temporary" = "TEMPORARY" := by
    simp [upperAscii, ← String.toList_inj]
  have table : upperAscii "table" = "TABLE" := by simp [upperAscii, ← String.toList_inj]
  rw [ofTokens_def]
  rcases ht with rfl | rfl | rfl
  · rcases hts with _ | ⟨hc, _ | ⟨h, ⟨⟩⟩⟩
    rw [create] at hc
    rw [table] at h
    have not_temporary := isKeyword_of_ne h (b := "TEMPORARY") (by decide)
    have not_temp := isKeyword_of_ne h (b := "TEMP") (by decide)
    simp [bind, Except.bind, keyword_cons hc, keyword_cons h, Grammar.atKeyword, not_temporary,
      not_temp]
  · rcases hts with _ | ⟨hc, _ | ⟨hm, _ | ⟨h, ⟨⟩⟩⟩⟩
    rw [create] at hc
    rw [temp] at hm
    rw [table] at h
    simp [bind, Except.bind, keyword_cons hc, keyword_cons h, Grammar.atKeyword, hm]
  · rcases hts with _ | ⟨hc, _ | ⟨hm, _ | ⟨h, ⟨⟩⟩⟩⟩
    rw [create] at hc
    rw [temporary'] at hm
    rw [table] at h
    simp [bind, Except.bind, keyword_cons hc, keyword_cons h, Grammar.atKeyword, hm]

theorem headWords_append (temporary : Option String) (guard : Bool) :
    headWords temporary false ++ (if guard then guardWords else []) =
      headWords temporary guard := by
  simp [headWords]

theorem atGuard_iff {us : List Token} :
    atGuard us ↔ ∃ gs vs, us = gs ++ vs ∧ AreKeywords guardWords gs := by
  have if_ : upperAscii "if" = "IF" := by simp [upperAscii, ← String.toList_inj]
  have not_ : upperAscii "not" = "NOT" := by simp [upperAscii, ← String.toList_inj]
  have exists_ : upperAscii "exists" = "EXISTS" := by simp [upperAscii, ← String.toList_inj]
  constructor
  · intro h
    rcases us with _ | ⟨i, _ | ⟨n, _ | ⟨e, vs⟩⟩⟩
    · simp [atGuard, Grammar.atKeyword] at h
    · simp [atGuard, Grammar.atKeyword] at h
    · simp [atGuard, Grammar.atKeyword] at h
    · simp only [atGuard, Grammar.atKeyword, List.drop_succ_cons, List.drop_zero,
        Bool.and_eq_true] at h
      rw [← if_, ← not_, ← exists_] at h
      exact ⟨[i, n, e], vs, rfl, .cons h.1.1 (.cons h.1.2 (.cons h.2 .nil))⟩
  · rintro ⟨gs, vs, rfl, h⟩
    rcases h with _ | ⟨hi, _ | ⟨hn, _ | ⟨he, ⟨⟩⟩⟩⟩
    rw [if_] at hi
    rw [not_] at hn
    rw [exists_] at he
    simp [atGuard, Grammar.atKeyword, hi, hn, he]

theorem ofTokens_head {temporary : Option String} {guard : Bool} {ts us : List Token}
    (ht : IsTemporary temporary) (hts : AreKeywords (headWords temporary guard) ts)
    (hu : guard = false → atGuard us = false) :
    TableDef.ofTokens (ts ++ us) = behindHead temporary.isSome guard us := by
  rw [← headWords_append] at hts
  have head := List.forall₂_take_append _ _ _ hts
  have behind := List.forall₂_drop_append _ _ _ hts
  rw [← List.take_append_drop (headWords temporary false).length ts, List.append_assoc,
    ofTokens_eq ht head]
  cases guard with
  | false =>
    rw [if_neg Bool.false_ne_true, List.forall₂_nil_right_iff] at behind
    rw [behind, List.nil_append, hu rfl]
    simp
  | true =>
    rw [if_pos rfl] at behind
    have three : _ = 3 := behind.length_eq
    rw [if_pos (atGuard_iff.mpr ⟨_, us, rfl, behind⟩), atGuard_iff.mpr ⟨_, us, rfl, behind⟩,
      List.drop_left' three]

/-- The items and the attributes of a definition, between a parenthesis and the end. -/
def IsBody (r : List Token) (items : List Grammar.TableItem)
    (attributes : List Grammar.TableAttribute) : Prop :=
  ∃ q u, Grammar.atParen r = true ∧ Grammar.tableItems 0 r.tail = .ok (items, q) ∧
    q.head? = some .rparen ∧ items.any (fun | .column _ => true | _ => false) = true ∧
    Grammar.tableAttributes q.tail = .ok (attributes, u) ∧ Grammar.atEnd u = .ok ()

theorem behindHead_eq_ok_iff {temporary guard : Bool} {ts : List Token} {d : TableDef} :
    behindHead temporary guard ts = .ok d ↔ ∃ name r items attributes,
      Grammar.relationName ts = .ok (name, r) ∧ IsBody r items attributes ∧
      TableDef.assemble name temporary guard items attributes = d := by
  simp only [behindHead, IsBody, bind_eq_ok_iff, guard_eq_ok_iff, pure_eq_ok_iff, Prod.exists]
  constructor
  · rintro ⟨name, r, hr, hp, items, q, hq, hclose, hc, attributes, u, hu, _, hend, hd⟩
    exact ⟨name, r, items, attributes, hr, ⟨q, u, by simpa using hp, hq, by simpa using hclose,
      by simpa using hc, hu, hend⟩, hd⟩
  · rintro ⟨name, r, items, attributes, hr, ⟨q, u, hp, hq, hclose, hc, hu, hend⟩, hd⟩
    exact ⟨name, r, hr, by simpa using hp, items, q, hq, by simpa using hclose, by simpa using hc,
      attributes, u, hu, (), hend, hd⟩

/-! ### Another name -/

/-- The piece of a statement that gives way to another name, and what follows it. -/
def named? (sql : String) : Option (List Char × List Char) :=
  match split? sql.toList with
  | none => none
  | some (_, r) =>
    let r := (dropGuard? r).getD r
    let inName := fun c => !isBlank c && c != '('
    if r.takeWhile inName = [] then none else some (r.takeWhile inName, r.dropWhile inName)

/-- A statement with a name has a head before it, and another name goes between the two ends. -/
theorem rename_of_named? {sql : String} {name behind : List Char}
    (h : named? sql = some (name, behind)) : ∃ b k, ∃ temporary, ∃ guard : Bool,
      sql.toList = b ++ (k ++ (name ++ behind)) ∧ (∀ c ∈ b, isBlank c) ∧ IsTemporary temporary ∧
      Spells (headWords temporary guard) k ∧ EndsName behind ∧
      ∀ n : String, rename n sql = String.ofList (b ++ (k ++ (n.toList ++ behind))) := by
  rw [named?] at h
  cases hs : split? sql.toList with
  | none =>
    rw [hs] at h
    cases h
  | some found =>
    obtain ⟨tmp, r⟩ := found
    obtain ⟨b, k, temporary, hsql, hb, ht, hk⟩ := split?_eq_some hs
    obtain ⟨g, guard, hr, hg⟩ := dropGuard?_getD r
    rw [hs] at h
    simp only [Option.ite_none_left_eq_some, Option.some.injEq, Prod.mk.injEq] at h
    obtain ⟨hne, rfl, rfl⟩ := h
    generalize hq : (dropGuard? r).getD r = q at hr hne ⊢
    generalize hp : (fun c => !isBlank c && c != '(') = inName at hne ⊢
    have split : q = q.takeWhile inName ++ q.dropWhile inName :=
      List.takeWhile_append_dropWhile.symm
    have hsql' : sql.toList = b ++ (k ++ g) ++ q := by rw [hsql, hr]; simp
    refine ⟨b, k ++ g, temporary, guard, ?_, hb, ht, ?_, ?_, fun n => ?_⟩
    · rw [← split, hsql', List.append_assoc]
    · rw [← headWords_append]
      exact hk.append hg
    · intro c hc
      have := List.head?_dropWhile_not inName q
      rw [Option.mem_def.mp hc, ← hp] at this
      simpa [endsName, or_iff_not_imp_left] using this
    · have shorter : (q.dropWhile inName).length ≠ q.length := by
        have := congrArg List.length split
        rw [List.length_append] at this
        have := List.length_pos_iff.mpr hne
        omega
      have front : sql.toList.take (sql.toList.length - q.length) = b ++ (k ++ g) := by
        rw [hsql', List.length_append, Nat.add_sub_cancel, List.take_left']
        rfl
      simp only [rename, hs, hq, hp, shorter, if_false, front]
      exact String.toList_inj.mp (by simp)

theorem rename_of_named?_eq_none {sql : String} (h : named? sql = none) (n : String) :
    rename n sql = sql := by
  rw [named?] at h
  rw [rename]
  cases hs : split? sql.toList with
  | none => rfl
  | some found =>
    obtain ⟨tmp, r⟩ := found
    rw [hs] at h
    simp only [ite_eq_left_iff, reduceCtorEq, imp_false, Decidable.not_not] at h
    have all := List.takeWhile_append_dropWhile (p := fun c => !isBlank c && c != '(')
      (l := (dropGuard? r).getD r)
    rw [h, List.nil_append] at all
    simp only [all, if_true]

/-! ### A head through the clean-up -/

theorem Spaced.calm {word : String} {k : List Char} (h : Spaced word k) (hp : IsPlain word) :
    ∀ c ∈ k, isCalm c := by
  obtain ⟨w, b, rfl, hw, -, hb⟩ := h
  rw [List.forall_mem_append]
  exact ⟨fun c hc =>
      isCalm_of_inWord (inWord_of_startsWord (startsWord_of_map_foldCase hw hp c hc)),
    fun c hc => isCalm_of_isBlank (hb c hc)⟩

theorem Spaced.joinLines {word : String} {k : List Char} (h : Spaced word k) (hp : IsPlain word) :
    Spaced word (joinLines .code k) := by
  have calm := h.calm hp
  obtain ⟨w, b, rfl, hw, hne, hb⟩ := h
  have letters : ∀ c ∈ w, isCalm c ∧ isBlank c = false := fun c hc =>
    ⟨calm c (List.mem_append_left b hc),
      isBlank_of_inWord (inWord_of_startsWord (startsWord_of_map_foldCase hw hp c hc))⟩
  rw [joinLines_append (ne_quote_of_isCalm fun c hc => (letters c hc).1), joinLines_eq_self letters]
  · exact ⟨w, _, rfl, hw, (joinLines_blanks hb).2 hne, (joinLines_blanks hb).1⟩
  · intro hl
    exact absurd (letters _ (List.mem_of_getLast? hl)).2 (by decide)

theorem Spells.head {words : List String} {s : List Char} (h : Spells words s)
    (hp : ∀ word ∈ words, IsPlain word) : ∀ c ∈ s.head?, startsWord c := by
  cases h with
  | nil => simp
  | @cons word words k s hk _ =>
    rw [List.forall_mem_cons] at hp
    obtain ⟨w, b, rfl, hw, -⟩ := hk
    have starts := startsWord_of_map_foldCase hw hp.1
    cases w with
    | nil => exact absurd hw.symm hp.1.1
    | cons c w => simpa using starts c (by simp)

/-- Words with blanks behind them stay so when lines are joined. -/
theorem Spells.joinLines {words : List String} {s : List Char} (h : Spells words s)
    (hp : ∀ word ∈ words, IsPlain word) :
    (∀ c ∈ s, isCalm c) ∧ Spells words (joinLines .code s) := by
  induction h with
  | nil => exact ⟨by simp, by simpa [Sql.joinLines] using Spells.nil⟩
  | @cons word words k s hk hs ih =>
    rw [List.forall_mem_cons] at hp
    have calm := hk.calm hp.1
    refine ⟨List.forall_mem_append.mpr ⟨calm, (ih hp.2).1⟩, ?_⟩
    rw [joinLines_append (ne_quote_of_isCalm calm)]
    · exact .cons (hk.joinLines hp.1) (ih hp.2).2
    · intro _ h
      exact absurd (hs.head hp.2 _ h) (by decide)

theorem isPlain_of_mem_headWords {temporary : Option String} (ht : IsTemporary temporary)
    (guard : Bool) : ∀ word ∈ headWords temporary guard, IsPlain word := by
  rcases ht with rfl | rfl | rfl <;> cases guard <;> decide

/-! ### The name behind a head -/

/-- The tokens of a path are no guard, unless it is the word IF. -/
theorem atGuard_path {p : List Char} {ts : List Token} (h : Path p ts)
    (hp : capitalised (String.ofList p) ≠ "IF") (us : List Token) : atGuard (ts ++ us) = false := by
  cases h with
  | one h => simp [atGuard, Grammar.atKeyword, Token.isKeyword, hp]
  | cons h _ => simp [atGuard, Grammar.atKeyword, Token.isKeyword]

/-- A name and a parenthesis are no guard. -/
theorem atGuard_name {ns us : List Token} {name : String}
    (h : Grammar.relationName ns = .ok (name, [])) (hu : us.head? = some .lparen) :
    atGuard (ns ++ us) = false := by
  obtain ⟨vs, rfl⟩ := List.head?_eq_some_iff.mp hu
  -- behind the first word of a name stands a period, or the parenthesis
  rcases ns with _ | ⟨t, _ | ⟨u, ns⟩⟩
  · cases h
  · simp [atGuard, Grammar.atKeyword, Token.isKeyword]
  · by_cases hp : u = .period
    · simp [hp, atGuard, Grammar.atKeyword, Token.isKeyword]
    · cases t with
      | word v q =>
        rw [relationName_word (by simpa using hp)] at h
        cases h
      | _ => cases h

/-- The tokens of a definition. -/
theorem parse_eq_ok_iff {sql : String} {d : TableDef} : TableDef.parse sql = .ok d ↔
    ∃ ts, scanChars sql.toList = .ok ts ∧ TableDef.ofTokens ts = .ok d := by
  rw [TableDef.parse, bind_eq_ok_iff]
  refine exists_congr fun ts => and_congr_left fun _ => ?_
  rw [Grammar.definitionTokens, Token.scan]
  cases scanChars sql.toList <;> simp

theorem endsWord_of_endsName {s : List Char} (h : EndsName s) : EndsWord s := by
  cases s with
  | nil => exact endsWord_nil
  | cons c s =>
    have hc : isBlank c ∨ c = '(' := by simpa [EndsName, endsName] using h
    rcases hc with hc | rfl
    · exact endsWord_of_isBlank hc
    · exact endsWord_cons.mpr ⟨by decide, by decide⟩

theorem reads_of_opens {s : List Char} (h : Opens s) : ∃ r, Reads s [.lparen] r := by
  induction h with
  | paren s => exact ⟨s, reads_symbol (by simp) s⟩
  | blank hc _ ih =>
    obtain ⟨r, hr⟩ := ih
    exact ⟨r, (reads_blank hc).trans hr⟩

/-- The relation that a statement with a head and a dotted name defines has that name, or a longer
one when a period follows. -/
theorem fullName_of_parse {k name behind : List Char} {temporary : Option String} {guard : Bool}
    {ts : List Token} {d : TableDef} (ht : IsTemporary temporary)
    (hk : Spells (headWords temporary guard) k) (hn : Path name ts)
    (hif : capitalised (String.ofList name) ≠ "IF") (hb : EndsName behind)
    (hd : TableDef.parse (String.ofList (k ++ (name ++ behind))) = .ok d) :
    (d.fullName = String.ofList name ∨ ∃ more, d.fullName = String.ofList name ++ "." ++ more) ∧
      (Opens behind → d.fullName = String.ofList name) := by
  obtain ⟨hs, head, hf⟩ := hk.fronts (isPlain_of_mem_headWords ht guard)
  obtain ⟨all, hall, hd⟩ := parse_eq_ok_iff.mp hd
  have reads : Reads _ (hs ++ ts) behind := (hf _).trans (hn.reads (endsWord_of_endsName hb))
  rw [String.toList_ofList, reads, map_eq_ok_iff] at hall
  obtain ⟨us, hus, rfl⟩ := hall
  rw [List.append_assoc, ofTokens_head ht head fun _ => atGuard_path hn hif us] at hd
  obtain ⟨found, r, items, attributes, hname, -, rfl⟩ := behindHead_eq_ok_iff.mp hd
  refine ⟨hn.relationName hname, fun ho => ?_⟩
  obtain ⟨q, hq⟩ := reads_of_opens ho
  rw [hq, map_eq_ok_iff] at hus
  obtain ⟨vs, -, rfl⟩ := hus
  rw [hn.relationName_of_ne (by simp)] at hname
  cases hname
  rfl

/-- A head and a dotted name are a front that the clean-up takes as it is, up to its blanks. -/
theorem isFront_head {k name : List Char} {temporary : Option String} {guard : Bool}
    {ts : List Token} (ht : IsTemporary temporary) (hk : Spells (headWords temporary guard) k)
    (hn : Path name ts) :
    IsFront (k ++ name) ∧ joinLines .code (k ++ name) = joinLines .code k ++ name := by
  have plain := isPlain_of_mem_headWords ht guard
  have calm_k := (hk.joinLines plain).1
  have calm_name : ∀ c ∈ name, isCalm c := by
    intro c hc
    rcases hn.mem c hc with hc | rfl
    · exact isCalm_of_inWord hc
    · decide
  obtain ⟨c, q, hname, hc⟩ := hn.head
  refine ⟨⟨?_, List.forall_mem_append.mpr ⟨calm_k, calm_name⟩, ?_, ?_⟩, ?_⟩
  · simp [hname]
  · intro d hd
    rw [List.head?_append] at hd
    cases hkh : k.head? with
    | none =>
      rw [hkh, Option.none_or] at hd
      exact hn.isBlank d (List.mem_of_mem_head? hd)
    | some e =>
      rw [hkh, Option.some_or] at hd
      cases hd
      exact isBlank_of_inWord (inWord_of_startsWord (hk.head plain d hkh))
  · intro d hd
    rw [List.getLast?_append_of_ne_nil _ (by simp [hname])] at hd
    exact hn.isBlank d (List.mem_of_getLast? hd)
  · rw [joinLines_append (ne_quote_of_isCalm calm_k),
      joinLines_eq_self fun d hd => ⟨calm_name d hd, hn.isBlank d hd⟩]
    · rintro - h
      rw [hname, List.head?_cons, Option.some.injEq] at h
      rw [h] at hc
      exact absurd hc (by decide)

/-- A statement that gets a dotted name in place of its own defines a relation of that name, or of a
longer one when a period follows. -/
theorem fullName_of_rename {sql n : String} {name behind : List Char} {ts : List Token}
    {x : Statement} {d : TableDef} (hsql : ∀ c ∈ sql.toList.head?, isBlank c = false)
    (h : named? sql = some (name, behind)) (hn : Path n.toList ts) (hif : capitalised n ≠ "IF")
    (hx : Statement.parse (rename n sql) = .ok x) (hd : TableDef.parse x.text = .ok d) :
    (d.fullName = n ∨ ∃ more, d.fullName = n ++ "." ++ more) ∧ (Opens behind → d.fullName = n) := by
  obtain ⟨b, k, temporary, guard, heq, hb, ht, hk, hends, hrename⟩ := rename_of_named? h
  have no_blank : b = [] := eq_nil_of_isBlank hb (heq ▸ hsql)
  obtain ⟨front, joined⟩ := isFront_head ht hk hn
  obtain ⟨rest, clean⟩ := sanitize_append front behind
  rw [Statement.parse, hrename, no_blank, List.nil_append, ← List.append_assoc, clean] at hx
  have only : x.text =
      String.ofList (Sql.joinLines .code k ++ (n.toList ++ cleanBehind behind)) := by
    cases rest with
    | nil =>
      cases hx
      rw [joined, List.append_assoc]
    | cons y rest => cases hx
  rw [only] at hd
  have := fullName_of_parse ht (hk.joinLines (isPlain_of_mem_headWords ht guard)).2 hn
    (by simpa using hif)
    hends.cleanBehind hd
  rw [String.ofList_toList] at this
  exact ⟨this.1, fun ho => this.2 ho.cleanBehind⟩

end EtlFlow.Warehouse.Header
