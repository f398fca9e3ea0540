import EtlFlow.Proofs.Warehouse.Header
/-!
# The guard IF NOT EXISTS

The guard goes into the characters of a statement.  Where the tokens of a definition show a head,
the characters show it too, provided that the words are plain and no comment stands among them
(`exists_spells`); so the guarded statement reads as the same definition with the guard
(`parse_guarded`).
-/

namespace EtlFlow.Warehouse.Header

open Sql Sql.Token Text
open Outcome (bind_eq_ok_iff map_eq_ok_iff)

/-! ### From tokens to characters -/

/-- The words of the text are plain. -/
def isPlainText (s : List Char) : Bool :=
  match scanChars s with
  | .ok ts => ts.all Token.isPlain
  | .error _ => false

theorem isPlain_of_isPlainText {s : List Char} {ts : List Token} (h : isPlainText s)
    (hs : scanChars s = .ok ts) : ∀ t ∈ ts, t.isPlain := by
  rw [isPlainText, hs] at h
  exact List.all_eq_true.mp h

theorem map_foldCase_of_capitals {w word : List Char} (hw : ∀ c ∈ w, c.toNat < 128)
    (hword : ∀ l ∈ word, l ∈ plainLetters)
    (h : w.flatMap capitals = word.map Char.toUpper) : w.map foldCase = word := by
  have letters {c : Char} (hc : c.toNat < 128) : capitals c = [c.toUpper] ∧
      ∀ l ∈ plainLetters, c.toUpper = l.toUpper → foldCase c = l :=
    forall_ascii (p := fun c => capitals c = [c.toUpper] ∧
      ∀ l ∈ plainLetters, c.toUpper = l.toUpper → foldCase c = l) (by decide +kernel) hc
  induction w generalizing word with
  | nil => exact (List.map_eq_nil_iff.mp h.symm).symm
  | cons c w ih =>
    rw [List.forall_mem_cons] at hw
    obtain ⟨single, fold⟩ := letters hw.1
    rw [List.flatMap_cons, single] at h
    cases word with
    | nil => cases h
    | cons l word =>
      rw [List.forall_mem_cons] at hword
      obtain ⟨hc, h⟩ := List.cons.inj h
      rw [List.map_cons, fold l hword.1 hc, ih hw.2 hword.2 h]

/-- The token is the word in any case. -/
def IsWritten (word : String) (t : Token) : Prop :=
  ∃ v, t = .word v none ∧ IsIdentifier v.toList ∧ v.toList.map foldCase = word.toList

/-- The tokens are the words in any case. -/
def AreWritten (words : List String) (ts : List Token) : Prop :=
  List.Forall₂ (fun t word => IsWritten word t) ts words

theorem exists_of_isKeyword {t : Token} {k : String} (h : t.isKeyword k) :
    ∃ v, t = .word v none ∧ v.toList.flatMap capitals = k.toList := by
  cases t with
  | word v q =>
    cases q with
    | some q => cases h
    | none =>
      simp only [Token.isKeyword, beq_iff_eq, capitalised, ← String.toList_inj,
        String.toList_ofList] at h
      exact ⟨v, rfl, h⟩
  | _ => cases h

/-- A keyword of ASCII characters is the word in any case. -/
theorem isWritten_of_ascii {v word : String} (hw : IsPlain word)
    (h : v.toList.flatMap capitals = (upperAscii word).toList) (ascii : ∀ c ∈ v.toList, c.toNat < 128) :
    IsWritten word (.word v none) := by
  rw [upperAscii, String.toList_map] at h
  have fold := map_foldCase_of_capitals ascii hw.2 h
  have starts := startsWord_of_map_foldCase fold hw
  refine ⟨v, rfl, ?_, fold⟩
  obtain ⟨c, u, hv⟩ : ∃ c u, v.toList = c :: u := by
    cases hv : v.toList with
    | nil =>
      rw [hv] at fold
      exact absurd fold.symm hw.1
    | cons c u => exact ⟨c, u, rfl⟩
  rw [hv, List.forall_mem_cons] at starts
  exact ⟨c, u, hv, starts.1, fun d hd => inWord_of_startsWord (starts.2 d hd)⟩

theorem areWritten_of_isPlain {words : List String} {ts : List Token}
    (hwords : ∀ word ∈ words, IsPlain word) (h : AreKeywords words ts)
    (hts : ∀ t ∈ ts, t.isPlain) : AreWritten words ts := by
  induction h with
  | nil => exact .nil
  | @cons t word ts words ht _ ih =>
    rw [List.forall_mem_cons] at hwords hts
    obtain ⟨v, rfl, hv⟩ := exists_of_isKeyword ht
    have ascii := (isIdentifier_of_isPlainWord hts.1).2
    exact .cons (isWritten_of_ascii hwords.1 hv ascii) (ih hwords.2 hts.2)

theorem startsWord_append {words : List String} {k r : List Char} (hk : Spells words k)
    (hp : ∀ word ∈ words, IsPlain word) (hr : ∀ c ∈ r.head?, startsWord c) :
    ∀ c ∈ (k ++ r).head?, startsWord c := by
  intro c hc
  rw [List.head?_append] at hc
  cases h : k.head? with
  | none =>
    rw [h, Option.none_or] at hc
    exact hr c hc
  | some d =>
    rw [h, Option.some_or] at hc
    cases hc
    exact hk.head hp c h

/-- Words at the front of the tokens, with another word behind them, stand in the text. -/
theorem exists_spells {words : List String} {hs us : List Token} {s : List Char}
    (hwords : ∀ word ∈ words, IsPlain word) (hkeys : AreWritten words hs)
    (hus : ∃ v vs, us = .word v none :: vs ∧ IsIdentifier v.toList)
    (hscan : scanChars s = .ok (hs ++ us)) (hfree : CommentFree s) :
    ∃ b k r, s = b ++ (k ++ r) ∧ (∀ c ∈ b, isBlank c) ∧ Spells words k ∧
      scanChars r = .ok us ∧ CommentFree r ∧ ∀ c ∈ r.head?, startsWord c := by
  induction hkeys generalizing s with
  | nil =>
    obtain ⟨v, vs, rfl, identifier⟩ := hus
    obtain ⟨b, r, rfl, hb, -⟩ := scan_word hscan hfree identifier
    have blanks := reads_blanks (s := v.toList ++ r) hb
    rw [Reads, hscan, eq_comm, map_eq_ok_iff] at blanks
    obtain ⟨ts, hts, rfl⟩ := blanks
    have rest := hfree.of_append fun c hc => isCalm_of_isBlank (hb c hc)
    obtain ⟨c, u, hcu, hc, -⟩ := identifier
    refine ⟨b, [], v.toList ++ r, rfl, hb, .nil, hts, rest, ?_⟩
    simpa [hcu] using hc
  | @cons t word hs words ht hkeys ih =>
    rw [List.forall_mem_cons] at hwords
    obtain ⟨v, rfl, identifier, folds⟩ := ht
    obtain ⟨b, q, rfl, hb, hq, hqfree, ends⟩ := scan_word hscan hfree identifier
    obtain ⟨g, k, r, rfl, hg, hk, hr, hrfree, starts⟩ := ih hwords.2 hq hqfree
    refine ⟨b, v.toList ++ g ++ k, r, by simp, hb, .cons ⟨v.toList, g, rfl, folds, ?_, hg⟩ hk, hr,
      hrfree, starts⟩
    -- without blanks the word would go on
    rintro rfl
    have next := startsWord_append hk hwords.2 starts
    have hne : r ≠ [] := by
      rintro rfl
      obtain ⟨w, vs, rfl, -⟩ := hus
      rw [scanChars.eq_def] at hr
      cases hr
    obtain ⟨c, u, hcu⟩ := List.exists_cons_of_ne_nil (l := k ++ r) (by simp [hne])
    rw [List.nil_append, hcu] at ends
    rw [hcu] at next
    have := ends c rfl
    rw [inWord_of_startsWord (next c rfl)] at this
    cases this

/-! ### Finding the words -/

theorem Spaced.takeWhile {word : String} {k r : List Char} (h : Spaced word k) (hp : IsPlain word) :
    ((k ++ r).takeWhile fun c => !isBlank c).map foldCase = word.toList := by
  obtain ⟨w, b, rfl, hw, hne, hb⟩ := h
  have letters : ∀ c ∈ w, (!isBlank c) = true := fun c hc => by
    rw [isBlank_of_inWord (inWord_of_startsWord (startsWord_of_map_foldCase hw hp c hc))]
    rfl
  cases b with
  | nil => exact absurd rfl hne
  | cons d b =>
    rw [List.append_assoc, List.takeWhile_append_of_pos letters, List.cons_append,
      List.takeWhile_cons_of_neg (by simp [hb d (by simp)]), List.append_nil, hw]

/-- A text starts with one word at most. -/
theorem dropWord?_eq_none {word other : String} {k r : List Char} (h : Spaced other k)
    (hp : IsPlain word) (ho : IsPlain other) (hne : word ≠ other) :
    dropWord? word (k ++ r) = none := by
  rw [Option.eq_none_iff_forall_ne_some]
  intro q hq
  obtain ⟨l, hl, hword, -⟩ := dropWord?_eq_some_iff.mp hq
  have one := h.takeWhile (r := r) ho
  rw [hl, hword.takeWhile hp] at one
  exact hne (String.toList_inj.mp one)

theorem dropWord?_spaced {word : String} {k r : List Char} (h : Spaced word k)
    (hr : ∀ c ∈ r.head?, isBlank c = false) : dropWord? word (k ++ r) = some r :=
  dropWord?_eq_some_iff.mpr ⟨k, rfl, h, hr⟩

theorem isBlank_of_startsWord {r : List Char} (h : ∀ c ∈ r.head?, startsWord c) :
    ∀ c ∈ r.head?, isBlank c = false :=
  fun c hc => isBlank_of_inWord (inWord_of_startsWord (h c hc))

theorem spells_singleton {word : String} {k : List Char} : Spells [word] k ↔ Spaced word k := by
  constructor
  · intro h
    rcases h with _ | ⟨hk, ⟨⟩⟩
    rwa [List.append_nil]
  · intro h
    simpa using Spells.cons h .nil

theorem isBlank_append {words : List String} {k r : List Char} (hk : Spells words k)
    (hp : ∀ word ∈ words, IsPlain word) (hr : ∀ c ∈ r.head?, isBlank c = false) :
    ∀ c ∈ (k ++ r).head?, isBlank c = false := by
  intro c hc
  rw [List.head?_append] at hc
  cases h : k.head? with
  | none =>
    rw [h, Option.none_or] at hc
    exact hr c hc
  | some d =>
    rw [h, Option.some_or] at hc
    cases hc
    exact isBlank_of_inWord (inWord_of_startsWord (hk.head hp c h))

/-- What may stand between CREATE and TABLE is recognised as a whole. -/
theorem dropTemporary?_spells {temporary : Option String} {m l r : List Char}
    (ht : IsTemporary temporary) (hm : Spells temporary.toList m) (hl : Spaced "table" l)
    (hr : ∀ c ∈ r.head?, isBlank c = false) :
    (dropTemporary? (m ++ (l ++ r))).getD (m ++ (l ++ r)) = l ++ r := by
  have table : IsPlain "table" := by decide
  have head := isBlank_append (spells_singleton.mpr hl) (by simpa using table) hr
  unfold dropTemporary?
  rcases ht with rfl | rfl | rfl
  · cases hm
    rw [List.nil_append, dropWord?_eq_none hl (by decide) table (by decide),
      dropWord?_eq_none hl (by decide) table (by decide)]
    rfl
  · have hm := spells_singleton.mp hm
    rw [dropWord?_spaced hm head]
    rfl
  · have hm := spells_singleton.mp hm
    rw [dropWord?_eq_none hm (by decide) (by decide) (by decide),
      dropWord?_spaced hm head]
    rfl

theorem Spells.of_append {us ws : List String} {s : List Char} (h : Spells (us ++ ws) s) :
    ∃ k r, s = k ++ r ∧ Spells us k ∧ Spells ws r := by
  induction us generalizing s with
  | nil => exact ⟨[], s, rfl, .nil, h⟩
  | cons u us ih =>
    rcases h with _ | ⟨hk, h⟩
    obtain ⟨k, r, rfl, hu, hw⟩ := ih h
    exact ⟨_, r, (List.append_assoc _ _ _).symm, .cons hk hu, hw⟩

theorem Spells.of_cons {word : String} {words : List String} {s : List Char}
    (h : Spells (word :: words) s) : ∃ k r, s = k ++ r ∧ Spaced word k ∧ Spells words r := by
  rcases h with _ | ⟨hk, h⟩
  exact ⟨_, _, rfl, hk, h⟩

/-- A head that the characters spell is recognised. -/
theorem split?_spaced {temporary : Option String} {b c m l r : List Char}
    (hb : ∀ c ∈ b, isBlank c) (hc : Spaced "create" c) (ht : IsTemporary temporary)
    (hm : Spells temporary.toList m) (hl : Spaced "table" l)
    (hr : ∀ c ∈ r.head?, isBlank c = false) : split? (b ++ (c ++ (m ++ (l ++ r)))) = some (m, r) := by
  have plain := isPlain_of_mem_headWords ht false
  have behind := isBlank_append (r := r) (Spells.append hm (spells_singleton.mpr hl))
    (fun word hw => plain word (List.mem_cons_of_mem _ hw)) hr
  rw [List.append_assoc] at behind
  have first := isBlank_append (spells_singleton.mpr hc) (by decide) behind
  have start : trimStart (b ++ (c ++ (m ++ (l ++ r)))) = c ++ (m ++ (l ++ r)) := by
    rw [trimStart_blanks_append hb, trimStart_eq_self first]
  rw [split?, start, dropWord?_spaced hc behind, Option.bind_eq_bind, Option.bind_some,
    dropTemporary?_spells ht hm hl hr]
  dsimp only
  rw [dropWord?_spaced hl hr, List.length_append, Nat.add_sub_cancel, List.take_left' rfl]
  rfl

theorem split?_spells {temporary : Option String} {b k r : List Char} (ht : IsTemporary temporary)
    (hb : ∀ c ∈ b, isBlank c) (hk : Spells (headWords temporary false) k)
    (hr : ∀ c ∈ r.head?, isBlank c = false) : ∃ m, split? (b ++ (k ++ r)) = some (m, r) := by
  obtain ⟨c, s, rfl, hc, hs⟩ := Spells.of_cons hk
  obtain ⟨m, l, rfl, hm, hl⟩ := hs.of_append
  rw [if_neg Bool.false_ne_true] at hl
  refine ⟨m, ?_⟩
  rw [List.append_assoc, List.append_assoc]
  exact split?_spaced hb hc ht hm (spells_singleton.mp hl) hr

theorem dropGuard?_spells {k r : List Char} (hk : Spells guardWords k)
    (hr : ∀ c ∈ r.head?, isBlank c = false) : dropGuard? (k ++ r) = some r := by
  have plain : ∀ word ∈ guardWords, IsPlain word := by decide
  obtain ⟨i, s, rfl, hi, hs⟩ := Spells.of_cons hk
  have second := isBlank_append hs (fun word hw => plain word (List.mem_cons_of_mem _ hw)) hr
  obtain ⟨n, e, rfl, hn, he⟩ := Spells.of_cons hs
  have third := isBlank_append he (by decide) hr
  rw [dropGuard?, List.append_assoc, dropWord?_spaced hi second,
    Option.bind_some, List.append_assoc, dropWord?_spaced hn third,
    Option.bind_some, dropWord?_spaced (spells_singleton.mp he) hr]

/-- The guard that is taken off ends before something that is no blank. -/
theorem isBlank_dropGuard? {r : List Char} (hr : ∀ c ∈ r.head?, isBlank c = false) :
    ∀ c ∈ ((dropGuard? r).getD r).head?, isBlank c = false := by
  cases h : dropGuard? r with
  | none => exact hr
  | some q =>
    simp only [dropGuard?, Option.bind_eq_some_iff, dropWord?_eq_some_iff] at h
    obtain ⟨_, ⟨_, ⟨k, rfl, hk, -⟩, l, rfl, hl, -⟩, m, rfl, hm, hq⟩ := h
    exact hq

theorem atGuard_append {gs : List Token} (h : AreKeywords guardWords gs) (vs : List Token) :
    atGuard (gs ++ vs) = true ∧ (gs ++ vs).drop 3 = vs :=
  ⟨atGuard_iff.mpr ⟨gs, vs, rfl, h⟩, List.drop_left' h.length_eq⟩

/-- A guard that the characters show is one that the tokens show. -/
theorem atGuard_of_dropGuard? {r q : List Char} {us : List Token} (h : dropGuard? r = some q)
    (hscan : scanChars r = .ok us) : ∃ gs vs, us = gs ++ vs ∧ AreKeywords guardWords gs ∧
      scanChars q = .ok vs := by
  obtain ⟨k, rfl, hk⟩ := dropGuard?_eq_some h
  obtain ⟨gs, keys, reads⟩ := hk.fronts (by decide)
  have found := reads q
  rw [Reads, hscan, eq_comm, map_eq_ok_iff] at found
  obtain ⟨vs, hvs, rfl⟩ := found
  exact ⟨gs, vs, rfl, keys, hvs⟩

/-- The tokens of a name stand behind a guard that is shown where the tokens have one. -/
theorem scan_getD {r : List Char} {us : List Token} (hr : scanChars r = .ok us)
    (hguard : (dropGuard? r).isSome = atGuard us) :
    scanChars ((dropGuard? r).getD r) = .ok (if atGuard us then us.drop 3 else us) := by
  cases hq : dropGuard? r with
  | none =>
    rw [hq] at hguard
    rw [← hguard]
    exact hr
  | some q =>
    obtain ⟨gs, vs, rfl, guard, hvs⟩ := atGuard_of_dropGuard? hq hr
    rw [if_pos (atGuard_append guard vs).1, (atGuard_append guard vs).2]
    exact hvs

/-! ### The guarded statement -/

theorem keyword_eq_ok {k : String} {ts us : List Token} (h : Grammar.keyword k ts = .ok us) :
    ∃ t, ts = t :: us ∧ t.isKeyword k := by
  rw [Grammar.keyword] at h
  split at h
  · cases ts with
    | nil => simp [Grammar.atKeyword] at *
    | cons t ts =>
      cases h
      exact ⟨t, rfl, by assumption⟩
  · cases h

/-- The tokens of a definition start with those of a head. -/
theorem ofTokens_eq_ok {ts : List Token} {d : TableDef} (h : TableDef.ofTokens ts = .ok d) :
    ∃ temporary hs us, ts = hs ++ us ∧ IsTemporary temporary ∧
      AreKeywords (headWords temporary false) hs := by
  have create : upperAscii "create" = "CREATE" := by simp [upperAscii, ← String.toList_inj]
  have temp : upperAscii "temp" = "TEMP" := by simp [upperAscii, ← String.toList_inj]
  have temporary : upperAscii "temporary" = "TEMPORARY" := by simp [upperAscii, ← String.toList_inj]
  have table : upperAscii "table" = "TABLE" := by simp [upperAscii, ← String.toList_inj]
  simp only [ofTokens_def, bind_eq_ok_iff] at h
  obtain ⟨ts', first, us, last, -⟩ := h
  obtain ⟨c, rfl, hc⟩ := keyword_eq_ok first
  obtain ⟨t, hts, ht⟩ := keyword_eq_ok last
  rw [← create] at hc
  rw [← table] at ht
  split at hts
  · rename_i between
    cases ts' with
    | nil => simp [Grammar.atKeyword] at between
    | cons m ts' =>
      rw [List.tail_cons] at hts
      subst hts
      simp only [Grammar.atKeyword, Bool.or_eq_true] at between
      rw [← temp, ← temporary] at between
      rcases between with hm | hm
      · refine ⟨some "temporary", [c, m, t], us, rfl, .inr (.inr rfl), ?_⟩
        exact .cons hc (.cons hm (.cons ht .nil))
      · refine ⟨some "temp", [c, m, t], us, rfl, .inr (.inl rfl), ?_⟩
        exact .cons hc (.cons hm (.cons ht .nil))
  · subst hts
    exact ⟨none, [c, t], us, rfl, .inl rfl, .cons hc (.cons ht .nil)⟩

/-- The name of a relation among plain tokens is a dotted list of identifiers. -/
theorem isPath_of_relationName {ts us : List Token} {name : String} (hts : ∀ t ∈ ts, t.isPlain)
    (h : Grammar.relationName ts = .ok (name, us)) :
    IsPath name ∧ ∃ v vs, ts = .word v none :: vs ∧ isPlainWord v.toList := by
  fun_induction Grammar.relationName ts generalizing name us with
  | case1 v q ts ih =>
    rw [List.forall_mem_cons, List.forall_mem_cons] at hts
    rw [map_eq_ok_iff] at h
    obtain ⟨⟨n, r⟩, hn, h⟩ := h
    cases h
    obtain ⟨⟨us, path⟩, -⟩ := ih hts.2.2 hn
    cases q with
    | some q => cases hts.1
    | none =>
      have longer := Path.cons (isIdentifier_of_isPlainWord hts.1).1 path
      have text : (Token.nameText v none ++ "." ++ n).toList = v.toList ++ '.' :: n.toList := by
        simp [Token.nameText]
      rw [← text] at longer
      exact ⟨⟨_, longer⟩, v, _, rfl, hts.1⟩
  | case2 v q ts _ =>
    rw [List.forall_mem_cons] at hts
    cases h
    cases q with
    | some q => cases hts.1
    | none => exact ⟨⟨_, .one (isIdentifier_of_isPlainWord hts.1).1⟩, v, _, rfl, hts.1⟩
  | case3 => cases h

theorem spaced_create : Spaced "create" "CREATE ".toList :=
  ⟨"CREATE".toList, [' '], by decide, by decide, by decide, by decide⟩

theorem spells_table_guard : Spells ("table" :: guardWords) "TABLE IF NOT EXISTS ".toList := by
  have table : Spaced "table" "TABLE ".toList :=
    ⟨"TABLE".toList, [' '], by decide, by decide, by decide, by decide⟩
  have if_ : Spaced "if" "IF ".toList :=
    ⟨"IF".toList, [' '], by decide, by decide, by decide, by decide⟩
  have not_ : Spaced "not" "NOT ".toList :=
    ⟨"NOT".toList, [' '], by decide, by decide, by decide, by decide⟩
  have exists_ : Spaced "exists" "EXISTS ".toList :=
    ⟨"EXISTS".toList, [' '], by decide, by decide, by decide, by decide⟩
  exact .cons table (.cons if_ (.cons not_ (.cons exists_ .nil)))

/-- The name of a relation and the tokens behind it, where the words of a definition are plain. -/
theorem ofTokens_plain {ts : List Token} {d : TableDef} (hts : ∀ t ∈ ts, t.isPlain)
    (h : TableDef.ofTokens ts = .ok d) : ∃ temporary hs us, ts = hs ++ us ∧ IsTemporary temporary ∧
      AreKeywords (headWords temporary false) hs ∧ IsPath d.fullName ∧
      ∃ v vs, (if atGuard us then us.drop 3 else us) = .word v none :: vs ∧
        isPlainWord v.toList := by
  obtain ⟨temporary, hs, us, rfl, ht, keys⟩ := ofTokens_eq_ok h
  rw [List.forall_mem_append] at hts
  rw [ofTokens_eq ht keys, behindHead_eq_ok_iff] at h
  obtain ⟨name, q, items, attributes, hname, -, rfl⟩ := h
  have plain : ∀ t ∈ if atGuard us then us.drop 3 else us, t.isPlain := by
    split
    · exact fun t ht => hts.2 t (List.mem_of_mem_drop ht)
    · exact hts.2
  exact ⟨temporary, hs, us, rfl, ht, keys, isPath_of_relationName plain hname⟩

/-- The name that a definition in plain words gives is a dotted list of identifiers. -/
theorem isPath_of_parse {sql : String} {d : TableDef} (h : TableDef.parse sql = .ok d)
    (hplain : isPlainText sql.toList) : IsPath d.fullName := by
  obtain ⟨ts, hts, hd⟩ := parse_eq_ok_iff.mp h
  obtain ⟨_, _, _, -, -, -, path, -⟩ := ofTokens_plain (isPlain_of_isPlainText hplain hts) hd
  exact path

/-- The characters show the head of a statement, and the guard where it has one. -/
def ShowsHead (sql : String) (guard : Bool) : Prop :=
  ∃ tmp r, split? sql.toList = some (tmp, r) ∧ (dropGuard? r).isSome = guard

instance (sql : String) (guard : Bool) : Decidable (ShowsHead sql guard) :=
  decidable_of_iff
    (((split? sql.toList).any fun p => (dropGuard? p.2).isSome == guard) = true) (by
      rw [ShowsHead, Option.any_eq_true, Prod.exists]
      simp)

/-- Where the words of a definition are plain, the characters show its head. -/
theorem showsHead_of_isPlainText {sql : String} {d : TableDef} (h : TableDef.parse sql = .ok d)
    (hfree : CommentFree sql.toList) (hplain : isPlainText sql.toList) :
    ShowsHead sql d.ifNotExists := by
  obtain ⟨ts, hts, hd⟩ := parse_eq_ok_iff.mp h
  have plain := isPlain_of_isPlainText hplain hts
  obtain ⟨temporary, hs, us, rfl, ht, keys, -, v, vs, next, hv⟩ := ofTokens_plain plain hd
  rw [List.forall_mem_append] at plain
  have words : ∀ word ∈ guardWords, IsPlain word := by decide
  have next : ∃ v vs, (if atGuard us then us.drop 3 else us) = .word v none :: vs ∧
      IsIdentifier v.toList := ⟨v, vs, next, (isIdentifier_of_isPlainWord hv).1⟩
  have first : ∃ v vs, us = .word v none :: vs ∧ IsIdentifier v.toList := by
    by_cases hg : atGuard us
    · obtain ⟨gs, vs, rfl, guard⟩ := atGuard_iff.mp hg
      rcases areWritten_of_isPlain words guard
        (fun t ht => plain.2 t (List.mem_append_left _ ht)) with _ | ⟨⟨v, rfl, hv, -⟩, _⟩
      exact ⟨v, _, rfl, hv⟩
    · rwa [if_neg hg] at next
  have head := isPlain_of_mem_headWords ht false
  obtain ⟨b, k, r, hsql, hb, hk, hr, hrfree, starts⟩ :=
    exists_spells head (areWritten_of_isPlain head keys plain.1) first hts hfree
  obtain ⟨m, split⟩ := split?_spells ht hb hk (isBlank_of_startsWord starts)
  rw [ofTokens_eq ht keys, behindHead_eq_ok_iff] at hd
  obtain ⟨name, q, items, attributes, -, -, rfl⟩ := hd
  refine ⟨m, r, by rw [hsql]; exact split, ?_⟩
  change (dropGuard? r).isSome = atGuard us
  cases hg : atGuard us with
  | true =>
    obtain ⟨gs, vs, rfl, guard⟩ := atGuard_iff.mp hg
    rw [if_pos hg, (atGuard_append guard vs).2] at next
    obtain ⟨b, k, q, rfl, hb, hk, -, -, behind⟩ := exists_spells words
      (areWritten_of_isPlain words guard fun t ht => plain.2 t (List.mem_append_left _ ht))
      next hr hrfree
    have no_blank := eq_nil_of_isBlank hb (isBlank_of_startsWord starts)
    rw [no_blank, List.nil_append, dropGuard?_spells hk (isBlank_of_startsWord behind)]
    rfl
  | false =>
    cases hq : dropGuard? r with
    | none => rfl
    | some q =>
      obtain ⟨gs, vs, rfl, guard, -⟩ := atGuard_of_dropGuard? hq hr
      rw [(atGuard_append guard vs).1] at hg
      cases hg

theorem toList_guarded {sql : String} {tmp r : List Char} (h : split? sql.toList = some (tmp, r)) :
    (guarded sql).toList = "CREATE ".toList ++ (tmp ++ "TABLE IF NOT EXISTS ".toList) ++
      (dropGuard? r).getD r := by
  rw [guarded, h]
  simp

theorem spells_guarded {temporary : Option String} {m : List Char}
    (hm : Spells temporary.toList m) : Spells (headWords temporary true)
      ("CREATE ".toList ++ (m ++ "TABLE IF NOT EXISTS ".toList)) :=
  .cons spaced_create (hm.append spells_table_guard)

/-- The tokens behind a head that the characters show. -/
theorem scan_of_split? {sql : String} {tmp r : List Char} {ts : List Token}
    (h : split? sql.toList = some (tmp, r)) (hts : Token.scanChars sql.toList = .ok ts) :
    ∃ temporary hs us, ts = hs ++ us ∧ IsTemporary temporary ∧ Spells temporary.toList tmp ∧
      AreKeywords (headWords temporary false) hs ∧ scanChars r = .ok us := by
  obtain ⟨b, c, l, temporary, hsql, hb, hc, ht, hm, hl, -⟩ := split?_parts h
  obtain ⟨hs, keys, reads⟩ := (spells_head hc hm hl).fronts (isPlain_of_mem_headWords ht false)
  have all := (reads_blanks (s := c ++ (tmp ++ l) ++ r) hb).trans (reads r)
  have text : b ++ (c ++ (tmp ++ l) ++ r) = sql.toList := by rw [hsql]; simp
  rw [text, Reads, hts, eq_comm, map_eq_ok_iff] at all
  obtain ⟨us, hus, rfl⟩ := all
  exact ⟨temporary, hs, us, rfl, ht, hm, keys, hus⟩

/-- A statement whose head the characters show reads as the same definition with the guard once it is
guarded. -/
theorem parse_guarded_of_showsHead {sql : String} {d : TableDef} (h : TableDef.parse sql = .ok d)
    (hshow : ShowsHead sql d.ifNotExists) :
    TableDef.parse (guarded sql) = .ok { d with ifNotExists := true } := by
  obtain ⟨ts, hts, hd⟩ := parse_eq_ok_iff.mp h
  obtain ⟨tmp, r, split, hguard⟩ := hshow
  obtain ⟨temporary, hs, us, rfl, ht, hm, keys, hr⟩ := scan_of_split? split hts
  rw [ofTokens_eq ht keys, behindHead_eq_ok_iff] at hd
  obtain ⟨name, q, items, attributes, hname, body, rfl⟩ := hd
  replace hguard : (dropGuard? r).isSome = atGuard us := hguard
  obtain ⟨fs, fronts, reads⟩ := (spells_guarded hm).fronts (isPlain_of_mem_headWords ht true)
  refine parse_eq_ok_iff.mpr ⟨fs ++ if atGuard us then us.drop 3 else us, ?_, ?_⟩
  · rw [toList_guarded split, reads, scan_getD hr hguard]
    rfl
  · rw [ofTokens_head ht fronts (by simp), behindHead_eq_ok_iff]
    exact ⟨name, q, items, attributes, hname, body, rfl⟩

end EtlFlow.Warehouse.Header
