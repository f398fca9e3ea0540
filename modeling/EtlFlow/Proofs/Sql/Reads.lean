import EtlFlow.Proofs.Outcome
import EtlFlow.Proofs.Sql.Query
import Mathlib.Tactic.Common
/-!
# The scan of a query

What `reads` finds in the tokens of a tree.  Behind an item the scan stands in a list of relations
or outside of it (`resume`): a separator starts a list or goes on with one (`resume_separator`), a
join condition ends it (`resume_condition`), and so does a query.  By induction on the tree the scan
finds the relations that are reached (`Query.reads_eq`).
-/

namespace EtlFlow.Sql.Select

open Grammar

/-! ### One step of the scan -/

/-- What was found, with names in front. -/
def Reads.behind (names : List String) (r : Reads) : Reads :=
  { r with relations := names ++ r.relations }

@[simp]
theorem Reads.behind_nil (r : Reads) : r.behind [] = r := rfl

@[simp]
theorem Reads.behind_behind (names more : List String) (r : Reads) :
    (r.behind more).behind names = r.behind (names ++ more) := by
  simp [Reads.behind]

/-- The scan is outside the parentheses of a function. -/
def InQuery (parens : List Bool) : Prop := parens.head?.getD true = true

theorem inQuery_cons (parens : List Bool) : InQuery (true :: parens) := rfl

variable {parens : List Bool} {ts : List Token} {t : Token}

/-- A token that is neither a parenthesis nor the start of a list is passed over. -/
theorem reads_skip (hp : isParen t = false) (hl : InQuery parens → opensList t = false)
    (hb : bindsQuery ts = false) : reads parens (t :: ts) = reads parens ts := by
  cases t with
  | lparen => cases hp
  | rparen => cases hp
  | word v q =>
    rw [reads, if_neg (by simp [hb]), if_neg]
    rintro ⟨hk, hin⟩
    have none := hl hin
    simp only [opensList, Bool.or_eq_false_iff] at none
    simp [none] at hk
  | _ => rw [reads] <;> simp

/-- Behind FROM and JOIN a list of relations is read. -/
theorem reads_list (hl : opensList t = true) (hin : InQuery parens) (hb : bindsQuery ts = false) :
    reads parens (t :: ts) =
      (reads parens (relationList ts).2).behind (relationList ts).1 := by
  cases t with
  | word v q =>
    rw [reads, if_neg (by simp [hb]), if_pos]
    · rfl
    · refine ⟨?_, hin⟩
      simpa [opensList] using hl
  | _ => simp [opensList, Token.isKeyword] at hl

theorem reads_lparen (parens : List Bool) (ts : List Token) : reads parens (.lparen :: ts) =
    reads ((atKeyword "SELECT" ts || atKeyword "WITH" ts) :: parens) ts := by
  rw [reads]

theorem reads_rparen (b : Bool) (parens : List Bool) (ts : List Token) :
    reads (b :: parens) (.rparen :: ts) = reads parens ts := by
  rw [reads, List.tail_cons]

/-! ### Tokens and what they are not -/

/-- The token ends the item before it and any list of items. -/
def ends (t : Token) : Bool := opensClause t || t == .rparen

/-- The tokens start with what ends a list of items. -/
def Stops (ts : List Token) : Prop := ∀ t ∈ ts.head?, ends t = true

/-- The tokens start with what ends an item. -/
def EndsItem (ts : List Token) : Prop := ∀ t ∈ ts.head?, ends t = true ∨ t = .comma

theorem ends_of_opensClause (h : opensClause t = true) : ends t = true := by
  rw [ends, h, Bool.true_or]

theorem Stops.endsItem (h : Stops ts) : EndsItem ts := fun t ht => .inl (h t ht)

theorem isKeyword_eq {a b : String} (h : t.isKeyword a = true) : t.isKeyword b = (a == b) := by
  cases t with
  | word v q =>
    cases q with
    | none =>
      rw [Token.isKeyword, beq_iff_eq] at h
      rw [Token.isKeyword, h]
    | some q => cases h
  | _ => cases h

theorem Identifier.isKeyword_eq_false (i : Identifier) {k : String}
    (h : keywords.contains k = true) : i.token.isKeyword k = false := by
  obtain ⟨v, q, plain⟩ := i
  cases q with
  | none =>
    rw [Identifier.token, Token.isKeyword, beq_eq_false_iff_ne]
    rintro rfl
    rw [Token.isPlainName, h] at plain
    cases plain
  | some q => rfl

theorem contains_as : keywords.contains "AS" = true := by decide +kernel

theorem contains_from : keywords.contains "FROM" = true := by decide +kernel

theorem contains_join : keywords.contains "JOIN" = true := by decide +kernel

theorem contains_select : keywords.contains "SELECT" = true := by decide +kernel

theorem contains_lateral : keywords.contains "LATERAL" = true := by decide +kernel

theorem Identifier.opensList_eq_false (i : Identifier) : opensList i.token = false := by
  rw [opensList, i.isKeyword_eq_false contains_from, i.isKeyword_eq_false contains_join]
  rfl

theorem Keyword.opensClause {k : String} (w : Keyword k) (h : keywords.contains k = true)
    (hk : k ≠ "AS") : opensClause w.token = true := by
  obtain ⟨t, ht⟩ := w
  cases t with
  | word v q =>
    cases q with
    | none =>
      rw [Token.isKeyword, beq_iff_eq] at ht
      simp only [Select.opensClause, ht, h, Bool.true_and, bne_iff_ne, ne_eq]
      exact hk
    | some q => cases ht
  | _ => cases ht

/-- What ends an item is none of what an item may go on with. -/
theorem of_ends (h : ends t = true) : t.isKeyword "AS" = false ∧ t.isPlainName = false ∧
    t ≠ .comma ∧ t ≠ .period ∧ t ≠ .lparen := by
  cases t with
  | word v q =>
    cases q with
    | none =>
      simp only [ends, opensClause, Bool.or_eq_true, Bool.and_eq_true, bne_iff_ne] at h
      obtain ⟨known, hne⟩ := h.resolve_right (by simp)
      exact ⟨by simpa [Token.isKeyword] using hne, by rw [Token.isPlainName, known]; rfl, by simp,
        by simp, by simp⟩
    | some q => simp [ends, opensClause] at h
  | semicolon | rparen => simp [Token.isKeyword, Token.isPlainName]
  | _ => simp [ends, opensClause] at h

theorem of_endsItem (h : EndsItem ts) : ∀ t ∈ ts.head?, t.isKeyword "AS" = false ∧
    t.isPlainName = false ∧ t ≠ .period ∧ t ≠ .lparen := by
  intro t ht
  rcases h t ht with hends | rfl
  · obtain ⟨as, plain, -, period, paren⟩ := of_ends hends
    exact ⟨as, plain, period, paren⟩
  · simp [Token.isKeyword, Token.isPlainName]

/-- Only AS binds a query. -/
theorem bindsQuery_of_head (h : ∀ t ∈ ts.head?, t.isKeyword "AS" = false) :
    bindsQuery ts = false := by
  unfold bindsQuery
  split
  · rename_i as select _
    rw [h as rfl, Bool.false_and]
  · rfl

theorem bindsQuery_of_endsItem (h : EndsItem ts) : bindsQuery ts = false :=
  bindsQuery_of_head fun t ht => (of_endsItem h t ht).1

/-! ### One item -/

theorem moreParts_eq (is : List Identifier) (h : ts.head? ≠ some .period) :
    moreParts (RelationName.moreTokens is ++ ts) = (RelationName.moreText is, ts) := by
  induction is with
  | nil =>
    rw [RelationName.moreTokens, List.nil_append, RelationName.moreText]
    unfold moreParts
    split
    · exact absurd rfl h
    · rfl
  | cons i is ih =>
    rw [RelationName.moreTokens, List.cons_append, List.cons_append, Identifier.token, moreParts,
      ih]
    rfl

theorem relation?_eq (r : RelationName) (h : ts.head? ≠ some .period) :
    relation? (r.tokens ++ ts) = some (r.text, ts) := by
  have select := r.first.isKeyword_eq_false contains_select
  have lateral := r.first.isKeyword_eq_false contains_lateral
  rw [Identifier.token] at select lateral
  rw [RelationName.tokens, List.cons_append, Identifier.token, relation?,
    if_neg (by simp [select, lateral]), moreParts_eq r.more h]
  rfl

theorem skipAlias_eq (a : Alias) (h : EndsItem ts) : skipAlias (a.tokens ++ ts) = ts := by
  cases a with
  | none =>
    rw [Alias.tokens, List.nil_append, skipAlias]
    cases ts with
    | nil => rfl
    | cons t ts =>
      obtain ⟨as, plain, -⟩ := of_endsItem h t rfl
      simp [atKeyword, as, plain]
  | bare i =>
    rw [Alias.tokens, List.singleton_append, skipAlias, atKeyword,
      i.isKeyword_eq_false contains_as, if_neg Bool.false_ne_true, if_pos]
    · rfl
    · exact i.isPlainName
  | as k i => rw [Alias.tokens, List.cons_append, skipAlias, atKeyword, if_pos k.isKeyword]; rfl

theorem head?_alias_ne_period (a : Alias) (h : EndsItem ts) :
    (a.tokens ++ ts).head? ≠ some .period := by
  cases a with
  | none =>
    intro hp
    exact (of_endsItem h _ hp).2.2.1 rfl
  | bare i => simp [Alias.tokens, Identifier.token]
  | as k i =>
    intro hp
    have := k.isKeyword
    rw [Option.some.inj hp] at this
    cases this

/-- Where the scan goes on behind an item: in the list of relations, if there is one and a comma
follows, or outside it. -/
def resume (listed : Bool) (parens : List Bool) (ts : List Token) : Reads :=
  match listed, ts with
  | true, .comma :: ts => (reads parens (relationList ts).2).behind (relationList ts).1
  | _, ts => reads parens ts

theorem resume_of_ne_comma (listed : Bool) (parens : List Bool) (h : ts.head? ≠ some .comma) :
    resume listed parens ts = reads parens ts := by
  unfold resume
  split
  · exact absurd rfl h
  · rfl

theorem resume_false (parens : List Bool) (ts : List Token) :
    resume false parens ts = reads parens ts := rfl

theorem relationList_of_some {r : List Token} {n : String} (h : relation? ts = some (n, r)) :
    relationList ts = match skipAlias r with
      | .comma :: r => (n :: (relationList r).1, (relationList r).2)
      | r => ([n], r) := by
  rw [relationList]
  split
  · rename_i none
    rw [h] at none
    cases none
  · rename_i some
    rw [h] at some
    cases some
    split
    · rename_i comma
      rw [comma]
    · rename_i other
      split
      · rename_i comma
        exact absurd comma (other _)
      · rfl

theorem relationList_lparen (ts : List Token) :
    relationList (.lparen :: ts) = ([], .lparen :: ts) := by
  rw [relationList]
  rfl

theorem isParen_of_isKeyword {k : String} (h : t.isKeyword k = true) : isParen t = false := by
  cases t with
  | lparen | rparen => cases h
  | _ => rfl

/-- A relation in a list is found, and the list may go on behind it. -/
theorem reads_relationList (r : RelationName) (a : Alias) (h : EndsItem ts) :
    (reads parens (relationList (r.tokens ++ (a.tokens ++ ts))).2).behind
        (relationList (r.tokens ++ (a.tokens ++ ts))).1 =
      (resume true parens ts).behind [r.text] := by
  rw [relationList_of_some (relation?_eq r (head?_alias_ne_period a h)), skipAlias_eq a h]
  unfold resume
  cases ts with
  | nil => rfl
  | cons t ts => cases t <;> simp

theorem reads_moreTokens (is : List Identifier) (h : bindsQuery ts = false) :
    reads parens (RelationName.moreTokens is ++ ts) = reads parens ts := by
  induction is with
  | nil => rfl
  | cons i is ih =>
    have binds : bindsQuery (RelationName.moreTokens is ++ ts) = false := by
      cases is with
      | nil => exact h
      | cons j is => exact bindsQuery_of_head fun t ht => by cases ht; rfl
    rw [RelationName.moreTokens, List.cons_append, List.cons_append,
      reads_skip rfl (fun _ => rfl) (bindsQuery_of_head fun t ht => ?_),
      reads_skip rfl (fun _ => i.opensList_eq_false) binds, ih]
    cases ht
    exact i.isKeyword_eq_false contains_as

/-- No alias binds a query. -/
theorem bindsQuery_alias (a : Alias) (h : EndsItem ts) : bindsQuery (a.tokens ++ ts) = false := by
  cases a with
  | none => exact bindsQuery_of_endsItem h
  | bare i =>
    exact bindsQuery_of_head fun t ht => by cases ht; exact i.isKeyword_eq_false contains_as
  | as k i => rfl

theorem reads_alias (a : Alias) (h : EndsItem ts) :
    reads parens (a.tokens ++ ts) = reads parens ts := by
  cases a with
  | none => rfl
  | bare i =>
    exact reads_skip rfl (fun _ => i.opensList_eq_false) (bindsQuery_of_endsItem h)
  | as k i =>
    have later : bindsQuery (i.token :: ts) = false :=
      bindsQuery_of_head fun t ht => by cases ht; exact i.isKeyword_eq_false contains_as
    rw [Alias.tokens, List.cons_append, List.singleton_append,
      reads_skip (isParen_of_isKeyword k.isKeyword) (fun _ => ?_) later,
      reads_skip rfl (fun _ => i.opensList_eq_false) (bindsQuery_of_endsItem h)]
    rw [opensList, isKeyword_eq k.isKeyword, isKeyword_eq k.isKeyword]
    rfl

/-- A relation outside a list is passed over. -/
theorem reads_passed (r : RelationName) (a : Alias) (h : EndsItem ts) :
    reads parens (r.tokens ++ (a.tokens ++ ts)) = reads parens ts := by
  have later := bindsQuery_alias a h
  have binds : bindsQuery (RelationName.moreTokens r.more ++ (a.tokens ++ ts)) = false := by
    cases r.more with
    | nil => exact later
    | cons i is => exact bindsQuery_of_head fun t ht => by cases ht; rfl
  rw [RelationName.tokens, List.cons_append,
    reads_skip rfl (fun _ => r.first.opensList_eq_false) binds, reads_moreTokens r.more later,
    reads_alias a h]

/-! ### Words between the items -/

/-- Words do not end in front of a query that AS would bind. -/
def Apart (ts : List Token) : Prop := ∀ t ∈ ts.head?, t.isKeyword "AS" = false ∧ t ≠ .lparen

theorem EndsItem.apart (h : EndsItem ts) : Apart ts :=
  fun t ht => ⟨(of_endsItem h t ht).1, (of_endsItem h t ht).2.2.2⟩

theorem bindsQuery_cons_of_ne_lparen (h : ts.head? ≠ some .lparen) :
    bindsQuery (t :: ts) = false := by
  unfold bindsQuery
  split
  · rename_i hts
    cases hts
    exact absurd rfl h
  · rfl

/-- A group does not start with SELECT, nor does what closes an empty one. -/
theorem atKeyword_append_rparen {k : String} {us : List Token} (h : atKeyword k us = false)
    (ts : List Token) : atKeyword k (us ++ .rparen :: ts) = false := by
  cases us with
  | nil => rfl
  | cons u us => exact h

theorem bindsQuery_lparen (t : Token) (ts : List Token) :
    bindsQuery (t :: .lparen :: ts) = (t.isKeyword "AS" && atKeyword "SELECT" ts) := by
  cases ts with
  | nil => simp [bindsQuery, atKeyword]
  | cons u us => rfl

/-- No words bind a query. -/
theorem bindsQuery_words (w : Words) {inQuery : Bool} (hw : w.wellFormed inQuery = true)
    (h : Apart ts) : bindsQuery (w.tokens ++ ts) = false := by
  cases w with
  | nil => exact bindsQuery_of_head fun t ht => (h t ht).1
  | group inner w => exact bindsQuery_of_head fun t ht => by cases ht; rfl
  | query q w => exact bindsQuery_of_head fun t ht => by cases ht; rfl
  | token t w =>
    simp only [Words.wellFormed, Bool.and_eq_true, Bool.not_eq_true', Bool.and_eq_false_imp] at hw
    obtain ⟨⟨-, free⟩, hw⟩ := hw
    rw [Words.tokens, List.cons_append]
    cases w with
    | nil => exact bindsQuery_cons_of_ne_lparen fun ht => (h _ ht).2 rfl
    | token u w =>
      refine bindsQuery_cons_of_ne_lparen fun ht => ?_
      rw [Words.tokens, List.cons_append, List.head?_cons, Option.some.injEq] at ht
      rw [ht] at hw
      simp [Words.wellFormed, isParen] at hw
    | group inner w =>
      simp only [Words.wellFormed, Bool.and_eq_true, Bool.not_eq_true'] at hw
      rw [Words.tokens, List.cons_append, bindsQuery_lparen, List.append_assoc, List.cons_append,
        atKeyword_append_rparen hw.1.1.2, Bool.and_false]
    | query q w =>
      have none : t.isKeyword "AS" = false := by
        rw [Bool.eq_false_iff]
        intro as
        cases free as
      exact bindsQuery_of_head fun u hu => by cases hu; exact none

/-! ### The whole query -/

theorem stops_of_isClause (c : Words) (h : c.isClause = true) (hts : Stops ts) :
    Stops (c.tokens ++ ts) := by
  cases c with
  | nil => exact hts
  | token t w =>
    intro u hu
    cases hu
    exact ends_of_opensClause h
  | _ => cases h

theorem endsItem_of_isClause (c : Words) (h : c.isClause = true) (hts : EndsItem ts) :
    EndsItem (c.tokens ++ ts) := by
  cases c with
  | nil => exact hts
  | token t w =>
    intro u hu
    cases hu
    exact .inl (ends_of_opensClause h)
  | _ => cases h

theorem opensClause_of_joinKind (h : (joinKinds.any (t.isKeyword ·)) = true) :
    opensClause t = true ∧ opensList t = false ∧ isParen t = false ∧ t.isKeyword "AS" = false := by
  obtain ⟨k, hk, ht⟩ := List.any_eq_true.mp h
  have known : ∀ k ∈ joinKinds,
      keywords.contains k = true ∧ k ≠ "AS" ∧ k ≠ "FROM" ∧ k ≠ "JOIN" := by
    decide +kernel
  obtain ⟨contains, as, start, join⟩ := known k hk
  refine ⟨Keyword.opensClause ⟨t, ht⟩ contains as, ?_, isParen_of_isKeyword ht, ?_⟩
  · rw [opensList, isKeyword_eq ht, isKeyword_eq ht, beq_eq_false_iff_ne.mpr start,
      beq_eq_false_iff_ne.mpr join]
    rfl
  · rw [isKeyword_eq ht, beq_eq_false_iff_ne.mpr as]

/-- Items start with what ends an item. -/
theorem endsItem_items (is : Items) {first : Bool} (his : is.wellFormed first = true)
    (hts : Stops ts) : EndsItem (is.tokens ++ ts) := by
  have separator (s : Separator) (hs : s.fits first = true) (us : List Token) :
      EndsItem (s.tokens ++ us) := by
    intro t ht
    cases s with
    | start k =>
      cases ht
      exact .inl (ends_of_opensClause (k.opensClause contains_from (by decide)))
    | comma =>
      cases ht
      exact .inr rfl
    | join kinds k =>
      cases kinds with
      | nil =>
        cases ht
        exact .inl (ends_of_opensClause (k.opensClause contains_join (by decide)))
      | cons u kinds =>
        cases ht
        rw [Separator.fits, Bool.and_eq_true, List.all_cons, Bool.and_eq_true] at hs
        exact .inl (ends_of_opensClause (opensClause_of_joinKind hs.2.1).1)
  cases is with
  | nil => exact hts.endsItem
  | relation s r a c is =>
    simp only [Items.wellFormed, Bool.and_eq_true] at his
    rw [Items.tokens, List.append_assoc]
    exact separator s his.1.1.1 _
  | query s q a c is =>
    simp only [Items.wellFormed, Bool.and_eq_true] at his
    rw [Items.tokens, List.append_assoc]
    exact separator s his.1.1.1.1 _

theorem reads_kinds (kinds : List Token)
    (h : (kinds.all fun t => joinKinds.any (t.isKeyword ·)) = true)
    (hts : ∀ t ∈ ts.head?, t.isKeyword "AS" = false) :
    reads parens (kinds ++ ts) = reads parens ts := by
  induction kinds with
  | nil => rfl
  | cons t kinds ih =>
    rw [List.all_cons, Bool.and_eq_true] at h
    obtain ⟨-, list, paren, -⟩ := opensClause_of_joinKind h.1
    have binds : bindsQuery (kinds ++ ts) = false := by
      refine bindsQuery_of_head ?_
      cases kinds with
      | nil => exact hts
      | cons u kinds =>
        intro v hv
        cases hv
        rw [List.all_cons, Bool.and_eq_true] at h
        exact (opensClause_of_joinKind h.2.1).2.2.2
    rw [List.cons_append, reads_skip paren (fun _ => list) binds, ih h.2]

/-- Behind a separator a list of relations is read, unless it is a comma outside of a list. -/
theorem resume_separator (s : Separator) {first : Bool} (hs : s.fits first = true)
    (listed : Bool) (hin : InQuery parens) (hts : bindsQuery ts = false) :
    resume listed parens (s.tokens ++ ts) = if s.opens || listed then
      (reads parens (relationList ts).2).behind (relationList ts).1 else reads parens ts := by
  cases s with
  | start k =>
    have list : opensList k.token = true := by rw [opensList, k.isKeyword, Bool.true_or]
    rw [resume_of_ne_comma]
    · exact reads_list list hin hts
    · intro comma
      rw [Option.some.inj comma] at list
      cases list
  | comma =>
    cases listed with
    | true => rfl
    | false => exact reads_skip rfl (fun _ => rfl) hts
  | join kinds k =>
    rw [Separator.fits, Bool.and_eq_true] at hs
    have list : opensList k.token = true := by rw [opensList, k.isKeyword, Bool.or_true]
    have join : k.token.isKeyword "AS" = false := by rw [isKeyword_eq k.isKeyword]; rfl
    rw [resume_of_ne_comma]
    · rw [Separator.tokens, List.append_assoc,
        reads_kinds kinds hs.2 fun t ht => by cases ht; exact join]
      exact reads_list list hin hts
    · intro comma
      cases kinds with
      | nil =>
        rw [Option.some.inj comma] at list
        cases list
      | cons t kinds =>
        rw [List.all_cons, Bool.and_eq_true] at hs
        have clause := (opensClause_of_joinKind hs.2.1).1
        rw [Option.some.inj comma] at clause
        cases clause

/-- Behind an item, a join condition is passed over, and ends the list of relations. -/
theorem resume_condition (c : Words) (hc : c.isClause = true) (listed : Bool)
    (hread : reads parens (c.tokens ++ ts) = (reads parens ts).behind (c.names false)) :
    resume listed parens (c.tokens ++ ts) =
      (resume (listed && c.isNil) parens ts).behind (c.names false) := by
  cases c with
  | nil => rw [Words.isNil, Bool.and_true]; rfl
  | token t w =>
    have nil : (Words.token t w).isNil = false := rfl
    rw [nil, Bool.and_false, resume_false, ← hread, resume_of_ne_comma]
    intro comma
    cases comma
    cases hc
  | _ => cases hc

theorem stops_rparen (ts : List Token) : Stops (.rparen :: ts) := fun t ht => by cases ht; rfl

theorem Query.atKeyword_select (q : Query) (ts : List Token) :
    atKeyword "SELECT" (q.tokens ++ ts) = true := by
  cases q with
  | select k p items tail => exact k.isKeyword

theorem bindsQuery_relation (r : RelationName) (ts : List Token) :
    bindsQuery (r.tokens ++ ts) = false :=
  bindsQuery_of_head fun t ht => by cases ht; exact r.first.isKeyword_eq_false contains_as

mutual

theorem Words.reads_eq (w : Words) {inQuery : Bool} (hw : w.wellFormed inQuery = true)
    (parens : List Bool) (hin : InQuery parens → inQuery = true) (ts : List Token)
    (h : Apart ts) : reads parens (w.tokens ++ ts) = (reads parens ts).behind (w.names false) := by
  cases w with
  | nil => rfl
  | token t w =>
    simp only [Words.wellFormed, Bool.and_eq_true, Bool.not_eq_true'] at hw
    obtain ⟨⟨⟨paren, list⟩, -⟩, hw⟩ := hw
    rw [Words.tokens, List.cons_append, reads_skip paren ?_ (bindsQuery_words w hw h),
      w.reads_eq hw parens hin ts h, Words.names]
    intro query
    rw [hin query, Bool.true_and] at list
    exact list
  | group inner w =>
    simp only [Words.wellFormed, Bool.and_eq_true, Bool.not_eq_true'] at hw
    obtain ⟨⟨⟨hinner, select⟩, bound⟩, hw⟩ := hw
    rw [Words.tokens, List.cons_append, List.append_assoc, List.cons_append, reads_lparen,
      atKeyword_append_rparen select, atKeyword_append_rparen bound, Bool.or_self,
      inner.reads_eq hinner _ (fun query => by cases query) _ (stops_rparen _).endsItem.apart,
      reads_rparen, w.reads_eq hw parens hin ts h, Reads.behind_behind, Words.names]
  | query q w =>
    rw [Words.wellFormed, Bool.and_eq_true] at hw
    rw [Words.tokens, List.cons_append, List.append_assoc, List.cons_append, reads_lparen,
      q.atKeyword_select, Bool.true_or, q.reads_eq hw.1 _ (inQuery_cons _) _ (stops_rparen _),
      reads_rparen, w.reads_eq hw.2 parens hin ts h, Reads.behind_behind, Words.names]

theorem Query.reads_eq (q : Query) (hq : q.wellFormed = true) (parens : List Bool)
    (hin : InQuery parens) (ts : List Token) (h : Stops ts) :
    reads parens (q.tokens ++ ts) = (reads parens ts).behind (q.names false) := by
  cases q with
  | select k p items tail =>
    simp only [Query.wellFormed, Bool.and_eq_true] at hq
    obtain ⟨⟨⟨hp, hitems⟩, htail⟩, clause⟩ := hq
    have stops : Stops (tail.tokens ++ ts) := stops_of_isClause tail clause h
    have apart : Apart (items.tokens ++ (tail.tokens ++ ts)) :=
      (endsItem_items items hitems stops).apart
    rw [Query.tokens, List.cons_append, List.append_assoc, List.append_assoc,
      reads_skip (isParen_of_isKeyword k.isKeyword) (fun _ => ?_) (bindsQuery_words p hp apart),
      p.reads_eq hp parens (fun _ => rfl) _ apart, ← resume_false,
      items.reads_eq true false hitems parens hin _ stops,
      tail.reads_eq htail parens (fun _ => rfl) ts h.endsItem.apart, Reads.behind_behind,
      Reads.behind_behind, Query.names, List.append_assoc]
    rw [opensList, isKeyword_eq k.isKeyword, isKeyword_eq k.isKeyword]
    rfl

theorem Items.reads_eq (is : Items) (first listed : Bool) (his : is.wellFormed first = true)
    (parens : List Bool) (hin : InQuery parens) (ts : List Token) (h : Stops ts) :
    resume listed parens (is.tokens ++ ts) = (reads parens ts).behind (is.names false listed) := by
  cases is with
  | nil => exact resume_of_ne_comma listed parens fun comma => (of_ends (h _ comma)).2.2.1 rfl
  | relation s r a c is =>
    simp only [Items.wellFormed, Bool.and_eq_true] at his
    obtain ⟨⟨⟨fits, hc⟩, clause⟩, his⟩ := his
    have next : EndsItem (is.tokens ++ ts) := endsItem_items is his h
    have condition := c.reads_eq hc parens (fun _ => rfl) _ next.apart
    have later := endsItem_of_isClause c clause next
    rw [Items.tokens]
    simp only [List.append_assoc]
    rw [resume_separator s fits listed hin (bindsQuery_relation r _), Items.names, Bool.false_or]
    cases s.opens || listed with
    | true =>
      rw [if_pos rfl, if_pos rfl, reads_relationList r a later,
        resume_condition c clause true condition, is.reads_eq false _ his parens hin ts h,
        Reads.behind_behind, Reads.behind_behind, List.append_assoc]
    | false =>
      rw [if_neg Bool.false_ne_true, if_neg Bool.false_ne_true, reads_passed r a later, condition,
        ← resume_false, is.reads_eq false false his parens hin ts h, Reads.behind_behind,
        Bool.false_and, List.nil_append]
  | query s q a c is =>
    simp only [Items.wellFormed, Bool.and_eq_true] at his
    obtain ⟨⟨⟨⟨fits, hq⟩, hc⟩, clause⟩, his⟩ := his
    have next : EndsItem (is.tokens ++ ts) := endsItem_items is his h
    have condition := c.reads_eq hc parens (fun _ => rfl) _ next.apart
    have later := endsItem_of_isClause c clause next
    have behind : reads parens (.lparen :: (q.tokens ++ .rparen :: (a.tokens ++ (c.tokens ++
        (is.tokens ++ ts))))) = (reads parens ts).behind
          (q.names false ++ (c.names false ++ is.names false false)) := by
      rw [reads_lparen, q.atKeyword_select, Bool.true_or,
        q.reads_eq hq _ (inQuery_cons _) _ (stops_rparen _), reads_rparen, reads_alias a later,
        condition, ← resume_false, is.reads_eq false false his parens hin ts h,
        Reads.behind_behind, Reads.behind_behind, List.append_assoc]
    rw [Items.tokens, Items.names]
    simp only [List.append_assoc, List.cons_append]
    rw [resume_separator s fits listed hin (bindsQuery_of_head fun t ht => by cases ht; rfl),
      relationList_lparen, behind, Reads.behind_nil, ite_self]

end

end EtlFlow.Sql.Select
