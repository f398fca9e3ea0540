import EtlFlow.Proofs.Warehouse.Reading
import EtlFlow.Warehouse.Merge
/-!
# The script that creates a table unless it is there

The guard goes into the characters of a statement, the table is read from its tokens.  The guarded
statement reads as the table with the guard exactly when the characters show the head that the tokens
show (`Table.takesGuard_iff`): with no blank behind TABLE the guard is missing, with none behind EXISTS
there are two.  Where it is shown, the guard that is put in is found again (`Header.guarded_guarded`).
-/

namespace EtlFlow.Sql

/-! ### Characters with ASCII capitals -/

/-- Beyond ASCII only letters have ASCII capitals, and an F, an I or an S among them. -/
theorem capitals_of_le {c : Char} (h : 128 ≤ c.toNat) :
    capitals c = [c] ∨ Token.startsWord c ∧ (capitals c).any (['F', 'I', 'S'].contains ·) := by
  unfold capitals
  split
  all_goals first
    | exact .inr (by decide +kernel)
    | rw [Text.toUpper_of_le h]; exact .inl rfl

theorem startsWord_of_capitals {c : Char} (h : ∀ d ∈ capitals c, d.isUpper) :
    Token.startsWord c := by
  by_cases hc : c.toNat < 128
  · exact Token.forall_ascii (p := fun c => (∀ d ∈ capitals c, d.isUpper) → Token.startsWord c)
      (by decide +kernel) hc h
  · rcases capitals_of_le (Nat.le_of_not_lt hc) with same | ⟨starts, -⟩
    · rw [same, List.forall_mem_singleton] at h
      delta Char.isUpper at h
      simp only [decide_eq_true_eq, UInt32.le_iff_toNat_le] at h
      have : c.toNat ≤ 90 := h.2
      omega
    · exact starts

end EtlFlow.Sql

namespace EtlFlow.Warehouse.Header

open Sql Sql.Token Text
open Outcome (bind_eq_ok_iff map_eq_ok_iff)

/-! ### Keywords in the text -/

/-- No other letter than its own in either case is read as a letter of the word. -/
def IsRigid (word : String) : Prop := IsPlain word ∧ ∀ l ∈ word.toList, l ∉ ['f', 'i', 's']

instance (word : String) : Decidable (IsRigid word) := inferInstanceAs (Decidable (_ ∧ _))

theorem isWritten_of_isRigid {t : Token} {word : String} (hw : IsRigid word)
    (h : t.isKeyword (upperAscii word)) : IsWritten word t := by
  obtain ⟨v, rfl, hv⟩ := exists_of_isKeyword h
  have letters : ∀ l ∈ plainLetters, l ∉ ['f', 'i', 's'] → l.toUpper ∉ ['F', 'I', 'S'] := by decide
  refine isWritten_of_ascii hw.1 hv fun c hc => ?_
  have found : ∀ d ∈ capitals c, ∃ l ∈ word.toList, l.toUpper = d := by
    intro d hd
    have : d ∈ (upperAscii word).toList := hv ▸ List.mem_flatMap.mpr ⟨c, hc, hd⟩
    simpa [upperAscii] using this
  by_contra hle
  rcases capitals_of_le (Nat.le_of_not_lt hle) with same | ⟨-, some_fis⟩
  · obtain ⟨l, hl, rfl⟩ := found c (same ▸ List.mem_singleton.mpr rfl)
    have small : ∀ l ∈ plainLetters, l.toUpper.toNat < 128 := by decide
    exact hle (small l (hw.1.2 l hl))
  · obtain ⟨d, hd, hfis⟩ := List.any_eq_true.mp some_fis
    obtain ⟨l, hl, rfl⟩ := found d hd
    exact letters l (hw.1.2 l hl) (hw.2 l hl) (List.contains_iff_mem.mp hfis)

theorem areWritten_head {temporary : Option String} {hs : List Token} (ht : IsTemporary temporary)
    (h : AreKeywords (headWords temporary false) hs) : AreWritten (headWords temporary false) hs := by
  have rigid : ∀ word ∈ headWords temporary false, IsRigid word := by
    rcases ht with rfl | rfl | rfl <;> decide
  generalize headWords temporary false = words at h rigid
  induction h with
  | nil => exact .nil
  | cons hk _ ih =>
    rw [List.forall_mem_cons] at rigid
    exact .cons (isWritten_of_isRigid rigid.1 hk) (ih rigid.2)

/-- The tokens of a guard start with an identifier. -/
theorem exists_of_atGuard {us : List Token} (h : atGuard us) :
    ∃ v vs, us = .word v none :: vs ∧ IsIdentifier v.toList := by
  obtain ⟨gs, vs, rfl, keys⟩ := atGuard_iff.mp h
  rcases keys with _ | ⟨hi, _⟩
  have if_ : upperAscii "if" = "IF" := by simp [upperAscii, ← String.toList_inj]
  rw [if_] at hi
  obtain ⟨v, rfl, hv⟩ := exists_of_isKeyword hi
  have starts : ∀ c ∈ v.toList, startsWord c := by
    intro c hc
    have upper : ∀ d ∈ "IF".toList, d.isUpper := by decide
    refine startsWord_of_capitals fun d hd => upper d ?_
    rw [← hv]
    exact List.mem_flatMap.mpr ⟨c, hc, hd⟩
  refine ⟨v, _, rfl, ?_⟩
  cases hvs : v.toList with
  | nil =>
    rw [hvs] at hv
    exact absurd hv (by decide)
  | cons c u =>
    rw [hvs, List.forall_mem_cons] at starts
    exact ⟨c, u, rfl, starts.1, fun d hd => inWord_of_startsWord (starts.2 d hd)⟩

/-! ### What the guarded statement shows -/

/-- A statement that reads as guarded once it is guarded shows its head. -/
theorem showsHead_of_guarded {sql : String} {d e : TableDef} (h : TableDef.parse sql = .ok d)
    (hfree : CommentFree sql.toList) (he : TableDef.parse (guarded sql) = .ok e)
    (hguard : e.ifNotExists = true) : ShowsHead sql d.ifNotExists := by
  obtain ⟨ts, hts, hd⟩ := parse_eq_ok_iff.mp h
  cases split : split? sql.toList with
  | none =>
    -- the guard is among the tokens already, so blanks part TABLE from it
    have same : guarded sql = sql := by rw [guarded, split]
    rw [same, h] at he
    cases he
    obtain ⟨temporary, hs, us, rfl, ht, keys⟩ := ofTokens_eq_ok hd
    rw [ofTokens_eq ht keys, behindHead_eq_ok_iff] at hd
    obtain ⟨name, q, items, attributes, -, -, rfl⟩ := hd
    obtain ⟨b, k, r, hsql, hb, hk, -, -, starts⟩ := exists_spells
      (isPlain_of_mem_headWords ht false) (areWritten_head ht keys) (exists_of_atGuard hguard) hts hfree
    obtain ⟨m, found⟩ := split?_spells ht hb hk (isBlank_of_startsWord starts)
    rw [hsql, found] at split
    cases split
  | some p =>
    obtain ⟨tmp, r⟩ := p
    refine ⟨tmp, r, split, ?_⟩
    obtain ⟨temporary, hs, us, rfl, ht, hm, keys, hr⟩ := scan_of_split? split hts
    rw [ofTokens_eq ht keys, behindHead_eq_ok_iff] at hd
    obtain ⟨name, q, items, attributes, -, -, rfl⟩ := hd
    change (dropGuard? r).isSome = atGuard us
    cases hq : dropGuard? r with
    | some q =>
      obtain ⟨gs, vs, rfl, guard, -⟩ := atGuard_of_dropGuard? hq hr
      exact (atGuard_append guard vs).1.symm
    | none =>
      rw [Option.isSome_none, eq_comm, ← Bool.not_eq_true]
      intro hus
      -- two guards, and NOT stands where the name should end
      obtain ⟨gs, vs, rfl, guard⟩ := atGuard_iff.mp hus
      obtain ⟨fs, fronts, reads⟩ := (spells_guarded hm).fronts (isPlain_of_mem_headWords ht true)
      obtain ⟨all, hall, he⟩ := parse_eq_ok_iff.mp he
      rw [toList_guarded split, hq, Option.getD_none, reads, hr, Except.map, Except.ok.injEq] at hall
      subst hall
      rw [ofTokens_head ht fronts (by simp), behindHead_eq_ok_iff] at he
      obtain ⟨name', q', items', attributes', hname, ⟨-, -, paren, -⟩, -⟩ := he
      rcases guard with _ | ⟨hi, _ | ⟨hn, _⟩⟩
      obtain ⟨i, rfl, -⟩ := exists_of_isKeyword hi
      obtain ⟨n, rfl, -⟩ := exists_of_isKeyword hn
      rw [List.cons_append, List.cons_append, Grammar.relationName] at hname
      · cases hname
        cases paren
      · intro _ period
        cases period

/-- The guard is found where it was put in. -/
theorem guarded_guarded (sql : String) : guarded (guarded sql) = guarded sql := by
  cases split : split? sql.toList with
  | none =>
    have same : guarded sql = sql := by rw [guarded, split]
    rw [same, same]
  | some p =>
    obtain ⟨tmp, r⟩ := p
    obtain ⟨-, -, -, temporary, -, -, -, ht, hm, -, hr⟩ := split?_parts split
    have behind := isBlank_dropGuard? hr
    have text := toList_guarded split
    generalize (dropGuard? r).getD r = q at behind text
    obtain ⟨l, g, parts, hl, hg⟩ := Spells.of_cons spells_table_guard
    have found : split? (guarded sql).toList = some (tmp, g ++ q) := by
      have := split?_spaced (b := []) (by simp) spaced_create ht hm hl
        (isBlank_append hg (by decide) behind)
      rw [text, parts]
      simpa using this
    rw [← String.toList_inj, toList_guarded found, dropGuard?_spells hg behind, Option.getD_some, text]

/-- The name of a table stands behind its head. -/
theorem ne_nil_of_parse {b k q : List Char} {temporary : Option String} {guard : Bool} {d : TableDef}
    (hb : ∀ c ∈ b, isBlank c) (ht : IsTemporary temporary)
    (hk : Spells (headWords temporary guard) k)
    (h : TableDef.parse (String.ofList (b ++ (k ++ q))) = .ok d) : q ≠ [] := by
  rintro rfl
  obtain ⟨ts, hts, hd⟩ := parse_eq_ok_iff.mp h
  obtain ⟨fs, keys, reads⟩ := hk.fronts (isPlain_of_mem_headWords ht guard)
  have all := (reads_blanks (s := k ++ []) hb).trans (reads [])
  have nothing : scanChars [] = .ok [] := by rw [scanChars.eq_def]
  rw [String.toList_ofList] at hts
  rw [Reads, hts, nothing] at all
  cases all
  rw [List.nil_append, ofTokens_head ht keys (fun _ => rfl), behindHead_eq_ok_iff] at hd
  obtain ⟨_, _, _, _, hname, -⟩ := hd
  cases hname

/-- The guarded statement is a statement without comments again. -/
theorem isStatement_guarded {sql : String} {d : TableDef} (h : TableDef.parse sql = .ok d)
    (hsql : IsStatement sql.toList) (hfree : CommentFree sql.toList) :
    IsStatement (guarded sql).toList ∧ CommentFree (guarded sql).toList := by
  cases split : split? sql.toList with
  | none =>
    have same : guarded sql = sql := by rw [guarded, split]
    rw [same]
    exact ⟨hsql, hfree⟩
  | some p =>
    obtain ⟨tmp, r⟩ := p
    obtain ⟨b, c, l, temporary, parts, hb, hc, ht, hm, hl, -⟩ := split?_parts split
    obtain ⟨g, guard, hr, hg⟩ := dropGuard?_getD r
    have old : Spells (headWords temporary guard) (c ++ (tmp ++ l) ++ g) := by
      rw [← headWords_append]
      exact (spells_head hc hm hl).append hg
    have new := spells_guarded hm
    rw [toList_guarded split]
    generalize (dropGuard? r).getD r = q at hr ⊢
    have text : sql.toList = b ++ (c ++ (tmp ++ l) ++ g ++ q) := by rw [parts, hr]; simp
    have no_blank : b = [] := eq_nil_of_isBlank hb (text ▸ (trim_ends hsql.trimmed).1)
    subst no_blank
    have behind : q ≠ [] := by
      refine ne_nil_of_parse hb ht old (d := d) ?_
      rw [← text, String.ofList_toList, h]
    have calm := (old.joinLines (isPlain_of_mem_headWords ht guard)).1
    have calm' := (new.joinLines (isPlain_of_mem_headWords ht true)).1
    rw [text, List.nil_append] at hsql hfree
    have line : '\n' ∉ tmp := fun hn => not_mem_of_settled calm hsql.settled (by simp [hn])
    have quiet : IsQuiet ("CREATE ".toList ++ (tmp ++ "TABLE IF NOT EXISTS ".toList)) :=
      isQuiet_of_isCalm calm' (by simp [line])
    refine ⟨hsql.with_front (closed_of_isCalm calm) behind quiet (by simp) ?_, ?_⟩
    · simp [isBlank]
    · rw [CommentFree, dropComments_append calm', hfree.of_append calm]

end EtlFlow.Warehouse.Header

namespace EtlFlow.Warehouse.Table

open Sql (CommentFree)

/-! ### The table of the guarded statement -/

/-- The same table as one of another statement with the guard. -/
def guardedBy (t : Table) (s : Sql.Statement) : Table := { t with statement := s, ifNotExists := true }

/-- The script that creates the table unless it is there is one statement, which reads as the table
with the guard, and the script of that table is the same. -/
def TakesGuard (t : Table) : Prop :=
  ∃ s, (Command.script [t.createIfNotExists]).statements = [s] ∧
    parse s.text = .ok (t.guardedBy s) ∧
    (Command.script [(t.guardedBy s).createIfNotExists]).statements = [s]

theorem takesGuard_of_showsHead {t : Table} {d : Sql.TableDef} (h : t.Reads d)
    (hfree : CommentFree t.statement.text.toList)
    (hshow : Header.ShowsHead t.statement.text t.ifNotExists) : t.TakesGuard := by
  obtain ⟨guarded, free⟩ := Header.isStatement_guarded h.definition h.statement hfree
  have script := (Sql.parse_of_isStatement guarded free).2
  rw [h.ifNotExists] at hshow
  refine ⟨⟨Header.guarded t.statement.text⟩, ?_, ?_, ?_⟩
  · rw [createIfNotExists, statements_define, script]
  · refine (parse_iff_of_isStatement guarded free).mpr
      ⟨_, Header.parse_guarded_of_showsHead h.definition hshow, ?_⟩
    rw [guardedBy, h.fullName_eq]
    exact h.ofDef_with _ _ _
  · rw [createIfNotExists, statements_define, guardedBy, Header.guarded_guarded, script]

theorem showsHead_of_takesGuard {t : Table} {d : Sql.TableDef} (h : t.Reads d)
    (hfree : CommentFree t.statement.text.toList) (htake : t.TakesGuard) :
    Header.ShowsHead t.statement.text t.ifNotExists := by
  obtain ⟨s, hs, hu, -⟩ := htake
  obtain ⟨guarded, free⟩ := Header.isStatement_guarded h.definition h.statement hfree
  rw [createIfNotExists, statements_define, (Sql.parse_of_isStatement guarded free).2,
    List.cons.injEq] at hs
  obtain ⟨rfl, -⟩ := hs
  obtain ⟨e, he, hu⟩ := (parse_iff_of_isStatement guarded free).mp hu
  have taken : e.ifNotExists = true := (ofDef_eq_ok hu).1.ifNotExists.symm
  rw [h.ifNotExists]
  exact Header.showsHead_of_guarded h.definition hfree he taken

/-- The script that creates a table unless it is there does as it says exactly when the characters of
the statement show its head, with a blank behind TABLE and one behind the guard; so it does for every
statement in plain words. -/
theorem takesGuard_iff {sql : String} {t : Table} (h : parse sql = .ok t)
    (hfree : CommentFree t.statement.text.toList) :
    (t.TakesGuard ↔ Header.ShowsHead t.statement.text t.ifNotExists) ∧
      (Header.isPlainText t.statement.text.toList → t.TakesGuard) := by
  obtain ⟨d, hd⟩ := exists_reads h
  have shown := takesGuard_of_showsHead hd hfree
  refine ⟨⟨showsHead_of_takesGuard hd hfree, shown⟩, fun plain => shown ?_⟩
  rw [hd.ifNotExists]
  exact Header.showsHead_of_isPlainText hd.definition hfree plain

/-- A table with a quoted name and a head in small letters. -/
def quotedOrders : String := "create temp table if not exists \"orders\" (id INT PRIMARY KEY)"

theorem takesGuard_quotedOrders :
    ∃ t, parse quotedOrders = .ok t ∧ CommentFree t.statement.text.toList ∧ t.TakesGuard := by
  obtain ⟨t, ht, parts⟩ := Outcome.exists_ok_of_map_toOption
    (f := fun t : Table => (t.statement.text, t.ifNotExists)) (x := parse quotedOrders)
    (b := (quotedOrders, true)) (by decide +kernel)
  obtain ⟨text, guard⟩ := Prod.mk.inj parts
  have free : CommentFree t.statement.text.toList := by rw [text]; decide +kernel
  have head : Header.ShowsHead t.statement.text t.ifNotExists := by
    rw [text, guard]
    decide +kernel
  exact ⟨t, ht, free, (takesGuard_iff ht free).1.mpr head⟩

/-- A quoted name right behind TABLE. -/
def gluedName : String := "CREATE TABLE\"orders\" (id INT)"

/-- A quoted name right behind the guard. -/
def gluedGuard : String := "CREATE TABLE IF NOT EXISTS\"orders\" (id INT)"

/-- Where a quoted name stands right behind TABLE, the guard is missing from the script; where it
stands right behind the guard, the script has two, and is refused. -/
theorem glued_name_ne_takesGuard :
    (∃ t, parse gluedName = .ok t ∧ (Command.script [t.createIfNotExists]).texts = [gluedName] ∧
      ¬t.TakesGuard) ∧
    ∃ t, parse gluedGuard = .ok t ∧ (Command.script [t.createIfNotExists]).texts =
      ["CREATE TABLE IF NOT EXISTS IF NOT EXISTS\"orders\" (id INT)"] ∧ ¬t.TakesGuard := by
  have only {t : Table} {y : String} {s : Sql.Statement}
      (hy : (Command.script [t.createIfNotExists]).texts = [y])
      (hs : (Command.script [t.createIfNotExists]).statements = [s]) : s.text = y := by
    rw [Sql.Script.texts, hs] at hy
    exact (List.cons.inj hy).1
  constructor
  · obtain ⟨t, ht, parts⟩ := Outcome.exists_ok_of_map_toOption
      (f := fun t : Table => ((Command.script [t.createIfNotExists]).texts, t.ifNotExists))
      (x := parse gluedName) (b := ([gluedName], false)) (by decide +kernel)
    obtain ⟨texts, guard⟩ := Prod.mk.inj parts
    refine ⟨t, ht, texts, ?_⟩
    rintro ⟨s, hs, hu, -⟩
    rw [only texts hs, ht, Except.ok.injEq] at hu
    rw [hu] at guard
    cases guard
  · obtain ⟨t, ht, texts⟩ := Outcome.exists_ok_of_map_toOption
      (f := fun t : Table => (Command.script [t.createIfNotExists]).texts) (x := parse gluedGuard)
      (b := ["CREATE TABLE IF NOT EXISTS IF NOT EXISTS\"orders\" (id INT)"]) (by decide +kernel)
    refine ⟨t, ht, texts, ?_⟩
    rintro ⟨s, hs, hu, -⟩
    have refused : (parse "CREATE TABLE IF NOT EXISTS IF NOT EXISTS\"orders\" (id INT)").isOk =
        false := by decide +kernel
    rw [only texts hs] at hu
    rw [hu] at refused
    cases refused

end EtlFlow.Warehouse.Table
