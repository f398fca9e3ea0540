import EtlFlow.Proofs.Warehouse.CreateScript
/-!
# Another name in a statement

Another name goes into the characters of a statement, up to the first blank or parenthesis behind its
head, and the name of a table is read from the tokens.  Where the piece that gives way is the name
that the tokens have (`Header.ShowsName`), the statement reads as the same definition under the other
name.  Where the name is a dotted list of identifiers, it does so nowhere else: with blanks around a
period the piece is only the first part of the name (`Table.renames_iff`).
-/

namespace EtlFlow.Sql

open Token Grammar
open Text (isBlank trim_ends)
open Outcome (map_eq_ok_iff)

/-! ### Tokens of a name -/

namespace Grammar

variable {ts us r : List Token} {name : String}

/-- The tokens of a name, and what is behind them, which starts with no period. -/
theorem relationName_eq_ok_iff : relationName ts = .ok (name, r) ↔
    ∃ ns, ts = ns ++ r ∧ relationName ns = .ok (name, []) ∧ r.head? ≠ some .period := by
  constructor
  · intro h
    fun_induction relationName ts generalizing name r with
    | case1 v q ts ih =>
      rw [map_eq_ok_iff] at h
      obtain ⟨⟨n, _⟩, hn, h⟩ := h
      cases h
      obtain ⟨ns, rfl, hns, hr⟩ := ih hn
      refine ⟨.word v q :: .period :: ns, rfl, ?_, hr⟩
      rw [relationName, hns]
      rfl
    | case2 v q ts hts =>
      cases h
      refine ⟨[.word v q], rfl, rfl, fun hp => ?_⟩
      obtain ⟨us, rfl⟩ := List.head?_eq_some_iff.mp hp
      exact hts us rfl
    | case3 => cases h
  · rintro ⟨ns, rfl, hns, hr⟩
    fun_induction relationName ns generalizing name with
    | case1 v q ns ih =>
      rw [map_eq_ok_iff] at hns
      obtain ⟨⟨n, _⟩, hn, hns⟩ := hns
      cases hns
      rw [List.cons_append, List.cons_append, relationName, ih hn]
      rfl
    | case2 v q ns _ =>
      cases hns
      exact relationName_word hr
    | case3 => cases hns

end Grammar

namespace Token

/-! ### Bare names in the text -/

/-- The token is a part of a bare name. -/
def IsNamePart : Token → Prop
  | .word v none => IsIdentifier v.toList
  | .period => True
  | _ => False

theorem Path.of_cons {w p : List Char} {ts : List Token} (h : Path (w ++ '.' :: p) ts)
    (hw : '.' ∉ w) : IsIdentifier w ∧ ∃ us, Path p us := by
  have period : inWord '.' = false := by decide
  generalize hx : w ++ '.' :: p = x at h
  cases h with
  | one hx' =>
    have := hx'.inWord '.' (by rw [← hx]; simp)
    rw [period] at this
    cases this
  | @cons v q us hv hq =>
    have hv' : '.' ∉ v := fun h => absurd (hv.inWord _ h) (by rw [period]; decide)
    have front {u r : List Char} (hu : '.' ∉ u) : (u ++ '.' :: r).takeWhile (· != '.') = u := by
      rw [List.takeWhile_append_of_pos fun c hc => bne_iff_ne.mpr (ne_of_mem_of_not_mem hc hu)]
      simp
    obtain rfl : w = v := by rw [← front hw, hx, front hv']
    cases List.append_cancel_left hx
    exact ⟨hv, us, hq⟩

/-- A name that is a dotted list of identifiers has bare words alone. -/
theorem isNamePart_of_isPath {ns : List Token} {name : String}
    (hns : ∀ t ∈ ns, ∃ c q r, Marks c q r t) (h : Grammar.relationName ns = .ok (name, []))
    (path : IsPath name) : ∀ t ∈ ns, IsNamePart t := by
  -- the first character of a name tells what kind of word comes first
  have first {v : String} {q : Option Char} {p : List Char} {us : List Token}
      (mark : ∃ c s r, Marks c s r (.word v q)) (hp : Path ((nameText v q).toList ++ p) us)
      (hne : p.head?.all fun c => !startsWord c) : q = none ∧ IsIdentifier v.toList := by
    obtain ⟨d, z, hd, starts⟩ := hp.head
    obtain ⟨c, s, r, mark⟩ := mark
    cases q with
    | some q =>
      rw [nameText, String.toList_ofList, List.cons_append, List.cons_append, List.cons.injEq] at hd
      rw [← hd.1, mark.2] at starts
      cases starts
    | none =>
      refine ⟨rfl, mark.2.2.resolve_left ?_⟩
      rintro rfl
      cases hv : v.toList with
      | nil =>
        rw [nameText, hv, List.nil_append] at hd
        rw [hd] at hne
        simp [starts] at hne
      | cons e u =>
        rw [nameText, hv, List.cons_append, List.cons.injEq] at hd
        have := mark.1
        rw [hv, List.cons_append, List.cons.injEq] at this
        rw [← hd.1, this.1] at starts
        revert starts
        decide
  fun_induction Grammar.relationName ns generalizing name with
  | case1 v q ns ih =>
    rw [List.forall_mem_cons, List.forall_mem_cons] at hns
    rw [map_eq_ok_iff] at h
    obtain ⟨⟨n, r⟩, hn, h⟩ := h
    cases h
    obtain ⟨us, path⟩ := path
    rw [String.toList_append, String.toList_append, List.append_assoc] at path
    obtain ⟨rfl, word⟩ := first hns.1 path (by simp [startsWord, Text.isAlphabetic])
    have no_period : '.' ∉ v.toList := fun h => absurd (word.inWord _ h) (by decide)
    rw [List.forall_mem_cons, List.forall_mem_cons]
    exact ⟨word, trivial, ih hns.2.2 hn (Path.of_cons path no_period).2⟩
  | case2 v q ns _ =>
    rw [List.forall_mem_cons] at hns
    cases h
    obtain ⟨us, path⟩ := path
    rw [← List.append_nil (nameText v q).toList] at path
    obtain ⟨rfl, word⟩ := first hns.1 path (by simp)
    exact List.forall_mem_singleton.mpr word
  | case3 => cases h

theorem endsName_of_inWord {c : Char} (h : inWord c) : endsName c = false := by
  rw [endsName, isBlank_of_inWord h, Bool.false_or, beq_eq_false_iff_ne]
  rintro rfl
  revert h
  decide

/-- The text of a part of a bare name goes on in it. -/
theorem IsNamePart.text {t : Token} (h : IsNamePart t) :
    ∀ c ∈ t.text.toList, isCalm c ∧ endsName c = false := by
  cases t with
  | word v q =>
    cases q with
    | none =>
      have letters := IsIdentifier.inWord h
      exact fun c hc => ⟨isCalm_of_inWord (letters c hc), endsName_of_inWord (letters c hc)⟩
    | some q => cases h
  | period => decide
  | _ => cases h

theorem IsNamePart.text_ne_nil {t : Token} (h : IsNamePart t) : t.text.toList ≠ [] := by
  cases t with
  | word v q =>
    cases q with
    | none =>
      obtain ⟨c, u, hv, -⟩ := h
      simp [Token.text, hv]
    | some q => cases h
  | period => decide
  | _ => cases h

theorem IsNamePart.marks {t : Token} {c : Char} {s r : List Char} (h : IsNamePart t)
    (mark : Marks c s r t) : c :: s = t.text.toList ++ r := by
  cases t with
  | word v q =>
    cases q with
    | none => exact mark.1.symm
    | some q => cases h
  | period =>
    obtain ⟨rfl, rfl⟩ := mark
    rfl
  | _ => cases h

theorem isCalm_text {ns : List Token} (h : ∀ t ∈ ns, IsNamePart t) :
    ∀ c ∈ ns.flatMap (·.text.toList), isCalm c := by
  intro c hc
  obtain ⟨t, ht, hc⟩ := List.mem_flatMap.mp hc
  exact ((h t ht).text c hc).1

/-- A text that is cut before a blank or a parenthesis is cut behind a word. -/
theorem cut_behind_word {a b w r : List Char} (h : a ++ b = w ++ r)
    (hw : ∀ c ∈ w, endsName c = false) (hb : EndsName b) (ha : a ≠ []) :
    ∃ a', a = w ++ a' ∧ r = a' ++ b := by
  rcases List.append_eq_append_iff.mp h with ⟨d, rfl, rfl⟩ | ⟨a', rfl, rfl⟩
  · cases d with
    | nil => exact ⟨[], by simp⟩
    | cons c d =>
      have := hw c (by simp)
      rw [hb c rfl] at this
      cases this
  · exact ⟨a', rfl, rfl⟩

/-- The front of a text of bare names, up to a blank or the parenthesis behind them, is the text of the
first of their tokens. -/
theorem reads_front {ns vs : List Token} {a b : List Char} (hns : ∀ t ∈ ns, IsNamePart t)
    (h : scanChars (a ++ b) = .ok (ns ++ .lparen :: vs)) (hfree : CommentFree (a ++ b))
    (ha : ∀ c ∈ a, endsName c = false) (hb : EndsName b) :
    ∃ ms us, ns = ms ++ us ∧ a = ms.flatMap (·.text.toList) ∧ Reads (a ++ b) ms b := by
  by_cases hne : a = []
  · subst hne
    exact ⟨[], ns, rfl, rfl, .refl b⟩
  have no_blank : ∀ c ∈ (a ++ b).head?, isBlank c = false := by
    intro c hc
    rw [List.head?_append_of_ne_nil _ hne] at hc
    have := ha c (List.mem_of_mem_head? hc)
    rw [endsName, Bool.or_eq_false_iff] at this
    exact this.1
  cases ns with
  | nil =>
    obtain ⟨bl, c, q, r, heq, hbl, ⟨rfl, rfl⟩, -, -⟩ := scan_token h hfree
    rw [heq] at no_blank
    rw [eq_nil_of_isBlank hbl no_blank, List.nil_append] at heq
    obtain ⟨d, a, rfl⟩ := List.exists_cons_of_ne_nil hne
    cases heq
    exact absurd (ha _ (List.mem_cons_self ..)) (by decide)
  | cons t ns =>
    rw [List.forall_mem_cons] at hns
    obtain ⟨bl, c, q, r, heq, hbl, mark, hr, hfree'⟩ := scan_token h hfree
    rw [heq] at no_blank
    rw [eq_nil_of_isBlank hbl no_blank, List.nil_append, hns.1.marks mark] at heq
    rw [hns.1.marks mark] at hfree'
    have text := hns.1.text
    obtain ⟨a', rfl, rfl⟩ := cut_behind_word heq (fun c hc => (text c hc).2) hb hne
    obtain ⟨ms, us, rfl, rfl, hread⟩ := reads_front hns.2 hr
      (hfree'.of_append fun c hc => (text c hc).1) (List.forall_mem_append.mp ha).2 hb
    have first : Reads (t.text.toList ++ ms.flatMap (·.text.toList) ++ b) [t]
        (ms.flatMap (·.text.toList) ++ b) := by
      rw [Reads, h, hr]
      rfl
    exact ⟨t :: ms, us, rfl, rfl, first.trans hread⟩

/-- A bare name is the text of its tokens. -/
theorem toList_relationName {ns : List Token} {name : String} (hns : ∀ t ∈ ns, IsNamePart t)
    (h : Grammar.relationName ns = .ok (name, [])) : name.toList = ns.flatMap (·.text.toList) := by
  fun_induction Grammar.relationName ns generalizing name with
  | case1 v q ns ih =>
    rw [List.forall_mem_cons, List.forall_mem_cons] at hns
    rw [map_eq_ok_iff] at h
    obtain ⟨⟨n, r⟩, hn, h⟩ := h
    cases h
    cases q with
    | none => simp [ih hns.2.2 hn, nameText, Token.text]
    | some q => cases hns.1
  | case2 v q ns _ =>
    rw [List.forall_mem_cons] at hns
    cases h
    cases q with
    | none => simp [nameText, Token.text]
    | some q => cases hns.1
  | case3 => cases h

/-- A text without comments that starts with a parenthesis has nothing but blanks before it. -/
theorem opens_of_scan {s : List Char} {vs : List Token} (h : scanChars s = .ok (.lparen :: vs))
    (hfree : CommentFree s) : Opens s := by
  obtain ⟨bl, c, q, r, rfl, hbl, ⟨rfl, -⟩, -⟩ := scan_token h hfree
  rw [← List.singleton_append, ← List.append_assoc]
  exact opens_append hbl q

end Token

end EtlFlow.Sql

namespace EtlFlow.Warehouse.Header

open Sql Sql.Token Text
open Outcome (map_eq_ok_iff)

/-! ### The renamed statement -/

/-- The characters that give way to another name are those of the name, and a parenthesis follows. -/
def ShowsName (sql name : String) : Prop :=
  ∃ piece behind ns, named? sql = some (piece, behind) ∧ Closed piece ∧ Opens behind ∧
    Reads (piece ++ behind) ns behind ∧ Grammar.relationName ns = .ok (name, [])

theorem atParen_eq_true {us : List Token} (h : Grammar.atParen us = true) :
    ∃ vs, us = .lparen :: vs := by
  cases us with
  | nil => cases h
  | cons t us => cases t <;> first | exact ⟨us, rfl⟩ | cases h

theorem head?_scan {s : List Char} {us : List Token} (h : Opens s) (hs : scanChars s = .ok us) :
    us.head? = some .lparen := by
  obtain ⟨r, hr⟩ := reads_of_opens h
  rw [hr, map_eq_ok_iff] at hs
  obtain ⟨vs, -, rfl⟩ := hs
  rfl

/-- A statement that shows its name reads as the same definition under another one. -/
theorem parse_rename {sql n : String} {d : TableDef} (h : TableDef.parse sql = .ok d)
    (hshow : ShowsName sql d.fullName) (hn : IsPath n) :
    TableDef.parse (rename n sql) = .ok { d with fullName := n } := by
  obtain ⟨piece, behind, ns, hnamed, -, opens, hread, hname⟩ := hshow
  obtain ⟨b, k, temporary, guard, hsql, hb, ht, hk, hends, hrename⟩ := rename_of_named? hnamed
  obtain ⟨hs, keys, fronts⟩ := hk.fronts (isPlain_of_mem_headWords ht guard)
  obtain ⟨ts, hts, hd⟩ := parse_eq_ok_iff.mp h
  have old : Reads sql.toList ([] ++ (hs ++ ns)) behind :=
    hsql ▸ (reads_blanks hb).trans ((fronts _).trans hread)
  rw [old, List.nil_append, map_eq_ok_iff] at hts
  obtain ⟨us, hus, rfl⟩ := hts
  have paren := head?_scan opens hus
  have no_period : us.head? ≠ some .period := by simp [paren]
  rw [List.append_assoc, ofTokens_head ht keys fun _ => atGuard_name hname paren,
    behindHead_eq_ok_iff] at hd
  obtain ⟨name, r, items, attributes, hd, body, rfl⟩ := hd
  rw [Grammar.relationName_eq_ok_iff.mpr ⟨ns, rfl, hname, no_period⟩, Except.ok.injEq,
    Prod.mk.injEq] at hd
  obtain ⟨-, rfl⟩ := hd
  obtain ⟨ps, path⟩ := hn
  have alone : Grammar.relationName ps = .ok (n, []) := by
    have no_period : ([] : List Token).head? ≠ some .period := by simp
    simpa using path.relationName_of_ne no_period
  have new : Reads (b ++ (k ++ (n.toList ++ behind))) ([] ++ (hs ++ ps)) behind :=
    (reads_blanks hb).trans ((fronts _).trans (path.reads (endsWord_of_endsName hends)))
  refine parse_eq_ok_iff.mpr ⟨hs ++ (ps ++ us), ?_, ?_⟩
  · rw [hrename, String.toList_ofList, new, hus]
    simp [Except.map]
  · rw [ofTokens_head ht keys fun _ => atGuard_name alone paren, behindHead_eq_ok_iff]
    exact ⟨n, us, items, attributes,
      Grammar.relationName_eq_ok_iff.mpr ⟨ps, rfl, alone, no_period⟩, body, rfl⟩

/-- A piece of a statement between its head and the rest may give way to another name. -/
theorem isStatement_rename {sql n : String} {piece behind : List Char} (hsql : IsStatement sql.toList)
    (hfree : CommentFree sql.toList) (h : named? sql = some (piece, behind)) (hclosed : Closed piece)
    (hne : behind ≠ []) (hn : IsPath n) :
    IsStatement (rename n sql).toList ∧ CommentFree (rename n sql).toList := by
  obtain ⟨b, k, temporary, guard, text, hb, ht, hk, hends, hrename⟩ := rename_of_named? h
  have no_blank := eq_nil_of_isBlank hb (text ▸ (trim_ends hsql.trimmed).1)
  obtain ⟨ps, path⟩ := hn
  obtain ⟨front, -⟩ := isFront_head ht hk path
  have calm := (hk.joinLines (isPlain_of_mem_headWords ht guard)).1
  rw [no_blank, List.nil_append] at text
  rw [text] at hsql hfree
  have line : '\n' ∉ k ++ n.toList := by
    rw [List.mem_append, not_or]
    refine ⟨not_mem_of_settled calm hsql.settled, fun hl => ?_⟩
    exact absurd (path.isBlank _ hl) (by decide)
  have closed : Closed (k ++ piece) := (closed_append_iff (closed_of_isCalm calm)).mpr hclosed
  have sign : SameSign behind [] := by
    obtain ⟨c, s, rfl⟩ := List.exists_cons_of_ne_nil hne
    obtain ⟨-, -, hd, -⟩ := calm_of_endsName (hends c rfl)
    refine sameSign_cons hd ?_ s
    rintro rfl
    exact absurd (hends _ rfl) (by decide)
  have quiet := isQuiet_of_isCalm front.calm line
  rw [hrename, no_blank, List.nil_append, String.toList_ofList, ← List.append_assoc]
  rw [← List.append_assoc] at hsql hfree
  refine ⟨hsql.with_front closed hne quiet front.ne_nil front.head, ?_⟩
  rw [commentFree_append (.inl closed) sign] at hfree
  rw [CommentFree, dropComments_append front.calm, hfree.2]

/-- Behind a head that the characters show, a name has a piece that gives way to another one. -/
theorem named?_of_split? {sql : String} {tmp r : List Char} {t : Token} {ts : List Token}
    (split : split? sql.toList = some (tmp, r))
    (h : scanChars ((dropGuard? r).getD r) = .ok (t :: ts)) (ht : t ≠ .lparen) :
    ∃ piece behind, named? sql = some (piece, behind) ∧
      piece ++ behind = (dropGuard? r).getD r ∧ ∀ c ∈ piece, endsName c = false := by
  obtain ⟨-, -, -, -, -, -, -, -, -, -, start⟩ := split?_parts split
  replace start := isBlank_dropGuard? start
  have found : ∀ q, (dropGuard? r).getD r = q →
      q.takeWhile (fun c => !isBlank c && c != '(') ≠ [] →
      named? sql = some (q.takeWhile fun c => !isBlank c && c != '(',
        q.dropWhile fun c => !isBlank c && c != '(') := by
    rintro q rfl hne
    simp only [named?, split, if_neg hne]
  generalize (dropGuard? r).getD r = q at start h found
  refine ⟨_, _, found q rfl ?_, List.takeWhile_append_dropWhile, fun c hc => ?_⟩
  · cases q with
    | nil =>
      rw [scanChars.eq_def] at h
      cases h
    | cons c q =>
      have hc : c ≠ '(' := by
        rintro rfl
        exact ht (Option.some.inj (head?_scan (.paren q) h))
      rw [List.takeWhile_cons_of_pos (by simp [start c rfl, hc])]
      exact List.cons_ne_nil _ _
  · simpa [endsName] using List.mem_takeWhile_imp hc

/-- Behind a head that is shown, the piece that gives way to another name is the text of the first
tokens of a bare name. -/
theorem exists_piece {sql : String} {d : TableDef} (h : TableDef.parse sql = .ok d)
    (hfree : CommentFree sql.toList) (hhead : ShowsHead sql d.ifNotExists)
    (path : IsPath d.fullName) : ∃ behind ms us vs,
      named? sql = some (ms.flatMap (·.text.toList), behind) ∧ CommentFree behind ∧
      Reads (ms.flatMap (·.text.toList) ++ behind) ms behind ∧
      Grammar.relationName (ms ++ us) = .ok (d.fullName, []) ∧ (∀ t ∈ ms ++ us, IsNamePart t) ∧
      scanChars behind = .ok (us ++ .lparen :: vs) := by
  obtain ⟨ts, hts, hd⟩ := parse_eq_ok_iff.mp h
  obtain ⟨tmp, r, split, hguard⟩ := hhead
  obtain ⟨temporary, hs, us, rfl, ht, -, keys, hr⟩ := scan_of_split? split hts
  rw [ofTokens_eq ht keys, behindHead_eq_ok_iff] at hd
  obtain ⟨name, vs, items, attributes, hname, ⟨-, -, paren, -⟩, rfl⟩ := hd
  have hq := scan_getD hr hguard
  obtain ⟨ns, tokens, alone, -⟩ := Grammar.relationName_eq_ok_iff.mp hname
  obtain ⟨vs, rfl⟩ := atParen_eq_true paren
  rw [tokens] at hq
  have parts : ∀ t ∈ ns, IsNamePart t := by
    refine isNamePart_of_isPath (fun t ht => ?_) alone path
    exact marks_of_mem hq t (List.mem_append_left _ ht)
  obtain ⟨piece, behind, hnamed, cut, inside⟩ : ∃ piece behind,
      named? sql = some (piece, behind) ∧ piece ++ behind = (dropGuard? r).getD r ∧
        ∀ c ∈ piece, endsName c = false := by
    cases ns with
    | nil => cases alone
    | cons t ns =>
      refine named?_of_split? split hq ?_
      rintro rfl
      cases alone
  obtain ⟨b, k, temporary, guard, hsql, hb, ht, hk, hends, -⟩ := rename_of_named? hnamed
  have calm := (hk.joinLines (isPlain_of_mem_headWords ht guard)).1
  rw [hsql] at hfree
  replace hfree := (hfree.of_append fun c hc => isCalm_of_isBlank (hb c hc)).of_append calm
  rw [← cut] at hq
  obtain ⟨ms, us, rfl, rfl, hread⟩ := reads_front parts hq hfree inside hends
  have rest := hread
  rw [Reads, hq, eq_comm, map_eq_ok_iff] at rest
  obtain ⟨ws, hws, heq⟩ := rest
  rw [List.append_assoc, List.append_cancel_left_eq] at heq
  refine ⟨behind, ms, us, vs, hnamed, hfree.of_append ?_, hread, alone, parts, heq ▸ hws⟩
  exact isCalm_text (List.forall_mem_append.mp parts).1

/-- The tokens of a text with a head, and the definition that they spell. -/
theorem exists_of_parse {b k p behind : List Char} {temporary : Option String} {guard : Bool}
    {ps ws : List Token} {d : TableDef} (hb : ∀ c ∈ b, isBlank c) (ht : IsTemporary temporary)
    (hk : Spells (headWords temporary guard) k) (hread : Reads (p ++ behind) ps behind)
    (hws : scanChars behind = .ok ws)
    (h : TableDef.parse (String.ofList (b ++ (k ++ (p ++ behind)))) = .ok d) :
    ∃ hs, AreKeywords (headWords temporary guard) hs ∧
      TableDef.ofTokens (hs ++ (ps ++ ws)) = .ok d := by
  obtain ⟨hs, keys, fronts⟩ := hk.fronts (isPlain_of_mem_headWords ht guard)
  obtain ⟨ts, hts, hd⟩ := parse_eq_ok_iff.mp h
  have read : Reads (b ++ (k ++ (p ++ behind))) ([] ++ (hs ++ ps)) behind :=
    (reads_blanks hb).trans ((fronts _).trans hread)
  rw [String.toList_ofList, read, hws, Except.map, Except.ok.injEq] at hts
  subst hts
  exact ⟨hs, keys, by simpa using hd⟩

/-- Behind a head, a name and a parenthesis the guard is that of the head. -/
theorem ifNotExists_of_head {temporary : Option String} {guard : Bool} {hs ns us : List Token}
    {name : String} {d : TableDef} (ht : IsTemporary temporary)
    (keys : AreKeywords (headWords temporary guard) hs)
    (hns : Grammar.relationName ns = .ok (name, [])) (hus : us.head? = some .lparen)
    (h : TableDef.ofTokens (hs ++ (ns ++ us)) = .ok d) : d.ifNotExists = guard := by
  rw [ofTokens_head ht keys fun _ => atGuard_name hns hus, behindHead_eq_ok_iff] at h
  obtain ⟨_, _, _, _, -, -, rfl⟩ := h
  rfl

/-- A parenthesis follows the name of a definition where no other name is read. -/
theorem head?_of_ofTokens {temporary : Option String} {guard : Bool} {n : String}
    {hs ps ws : List Token} {e : TableDef} (ht : IsTemporary temporary)
    (keys : AreKeywords (headWords temporary guard) hs) (path : Path n.toList ps)
    (he : TableDef.ofTokens (hs ++ (ps ++ ws)) = .ok e) (hname : e.fullName = n)
    (hguard : e.ifNotExists = guard) : ws.head? = some .lparen := by
  have no_guard : guard = false → atGuard (ps ++ ws) = false := by
    rintro rfl
    rw [ofTokens_eq ht keys, behindHead_eq_ok_iff] at he
    obtain ⟨name, r, items, attributes, -, -, rfl⟩ := he
    exact hguard
  rw [ofTokens_head ht keys no_guard, behindHead_eq_ok_iff] at he
  obtain ⟨name, r, items, attributes, hr, ⟨-, -, paren, -⟩, rfl⟩ := he
  replace hname : name = n := hname
  rw [hname, ← String.ofList_toList (s := n)] at hr
  obtain ⟨vs, rfl⟩ := atParen_eq_true paren
  rw [← path.eq_of_relationName hr]
  rfl

/-- A statement with a bare name shows it in one piece when it reads under another name once it is
renamed. -/
theorem named?_of_parse_rename {sql n : String} {d e : TableDef}
    (h : TableDef.parse sql = .ok d) (hfree : CommentFree sql.toList)
    (hhead : ShowsHead sql d.ifNotExists) (path : IsPath d.fullName) (hn : IsPath n)
    (he : TableDef.parse (rename n sql) = .ok e) (hname : e.fullName = n)
    (hguard : e.ifNotExists = d.ifNotExists) :
    ∃ behind, named? sql = some (d.fullName.toList, behind) := by
  obtain ⟨behind, ms, us, vs, hnamed, hfree', hread, alone, parts, hws⟩ :=
    exists_piece h hfree hhead path
  obtain ⟨b, k, temporary, guard, hsql, hb, ht, hk, hends, hrename⟩ := rename_of_named? hnamed
  obtain ⟨ps, hpath⟩ := hn
  rw [hrename] at he
  rw [← String.ofList_toList (s := sql), hsql] at h
  obtain ⟨hs, keys, hd⟩ := exists_of_parse hb ht hk hread hws h
  obtain ⟨hs', keys', he⟩ :=
    exists_of_parse hb ht hk (hpath.reads (endsWord_of_endsName hends)) hws he
  rw [← List.append_assoc ms] at hd
  have same : e.ifNotExists = guard := hguard.trans (ifNotExists_of_head ht keys alone rfl hd)
  have paren := head?_of_ofTokens ht keys' hpath he hname same
  -- the whole name stands before the parenthesis
  obtain rfl : us = [] := by
    cases us with
    | nil => rfl
    | cons u us =>
      rw [List.cons_append, List.head?_cons, Option.some.injEq] at paren
      rw [paren] at parts
      exact (parts .lparen (by simp)).elim
  rw [List.append_nil] at alone parts
  exact ⟨behind, by rw [toList_relationName parts alone, hnamed]⟩

/-- A statement whose bare name stands in one piece behind its head shows it. -/
theorem showsName_of_named? {sql : String} {d : TableDef} {behind : List Char}
    (h : TableDef.parse sql = .ok d) (hfree : CommentFree sql.toList)
    (hhead : ShowsHead sql d.ifNotExists) (path : IsPath d.fullName)
    (hnamed : named? sql = some (d.fullName.toList, behind)) : ShowsName sql d.fullName := by
  obtain ⟨behind', ms, us, vs, hpiece, hfree', hread, alone, parts, hws⟩ :=
    exists_piece h hfree hhead path
  have texts := toList_relationName parts alone
  rw [hnamed, Option.some.injEq, Prod.mk.injEq, texts, List.flatMap_append,
    List.append_right_eq_self] at hpiece
  obtain ⟨none_left, rfl⟩ := hpiece
  -- no token of the name is left, since each has a text
  obtain rfl : us = [] := by
    cases us with
    | nil => rfl
    | cons u us =>
      rw [List.flatMap_cons, List.append_eq_nil_iff] at none_left
      exact absurd none_left.1 (parts u (by simp)).text_ne_nil
  rw [List.append_nil] at alone parts
  have calm := isCalm_text parts
  rw [List.append_nil] at texts
  rw [← texts] at hread calm
  exact ⟨_, behind, ms, hnamed, closed_of_isCalm calm, opens_of_scan hws hfree', hread, alone⟩

end EtlFlow.Warehouse.Header

namespace EtlFlow.Warehouse.Table

open Sql (CommentFree)
open Sql.Token (IsPath)

/-! ### The renamed table -/

/-- The table under another name is the same one, read from another statement. -/
def Renames (t : Table) (n : String) : Prop :=
  ∃ u, t.renamed n = .ok u ∧ u = { t with statement := u.statement, fullName := n }

theorem renames_of_showsName {t : Table} {d : Sql.TableDef} {n : String} (h : t.Reads d)
    (hfree : CommentFree t.statement.text.toList) (hn : IsPath n)
    (hshow : Header.ShowsName t.statement.text t.fullName) : t.Renames n := by
  rw [h.fullName_eq] at hshow
  have read := Header.parse_rename h.definition hshow hn
  obtain ⟨piece, behind, ns, hnamed, closed, opens, -⟩ := hshow
  have ne_nil : behind ≠ [] := by
    rintro rfl
    cases opens
  obtain ⟨renamed, free⟩ := Header.isStatement_rename h.statement hfree hnamed closed ne_nil hn
  have table := h.ofDef_with ⟨Header.rename n t.statement.text⟩ n d.ifNotExists
  refine ⟨_, (parse_iff_of_isStatement renamed free).mpr ⟨_, read, table⟩, ?_⟩
  rw [h.ifNotExists]

theorem named?_of_renames {t : Table} {d : Sql.TableDef} {n : String} (h : t.Reads d)
    (hfree : CommentFree t.statement.text.toList) (hn : IsPath n)
    (hhead : Header.ShowsHead t.statement.text t.ifNotExists) (path : IsPath t.fullName)
    (hu : t.Renames n) :
    ∃ behind, Header.named? t.statement.text = some (t.fullName.toList, behind) := by
  obtain ⟨u, hu, same⟩ := hu
  rw [h.ifNotExists] at hhead
  rw [h.fullName_eq] at path ⊢
  obtain ⟨behind, ms, us, vs, hnamed, -, -, -, parts, hws⟩ :=
    Header.exists_piece h.definition hfree hhead path
  have calm := Sql.Token.isCalm_text (List.forall_mem_append.mp parts).1
  have ne_nil : behind ≠ [] := by
    rintro rfl
    rw [Sql.Token.scanChars.eq_def] at hws
    cases us <;> cases hws
  obtain ⟨renamed, free⟩ := Header.isStatement_rename h.statement hfree hnamed
    (Sql.closed_of_isCalm calm) ne_nil hn
  obtain ⟨e, he, hu⟩ := (parse_iff_of_isStatement renamed free).mp hu
  obtain ⟨parts, -⟩ := ofDef_eq_ok hu
  have name : u.fullName = e.fullName := parts.fullName
  have guard : u.ifNotExists = e.ifNotExists := parts.ifNotExists
  refine Header.named?_of_parse_rename h.definition hfree hhead path hn he ?_ ?_
  · rw [← name, same]
  · rw [← guard, same, h.ifNotExists]

/-- A statement whose head and name the characters show reads as the same table under every dotted list
of identifiers.  A bare name is shown exactly when it stands in one piece.  Where the characters show
no head, there is no other name. -/
theorem renames_iff {sql n : String} {t : Table} (h : parse sql = .ok t)
    (hfree : CommentFree t.statement.text.toList) (hn : IsPath n) :
    (Header.ShowsName t.statement.text t.fullName → t.Renames n) ∧
      (Header.ShowsHead t.statement.text t.ifNotExists → IsPath t.fullName →
        (t.Renames n ↔
          ∃ behind, Header.named? t.statement.text = some (t.fullName.toList, behind))) ∧
      (Header.named? t.statement.text = none → t.renamed n = .ok t) := by
  obtain ⟨d, hd⟩ := exists_reads h
  have shown := renames_of_showsName hd hfree hn
  refine ⟨shown, fun head path => ⟨named?_of_renames hd hfree hn head path, ?_⟩, fun none => ?_⟩
  · rintro ⟨behind, hnamed⟩
    refine shown ?_
    rw [hd.ifNotExists] at head
    rw [hd.fullName_eq] at path hnamed ⊢
    exact Header.showsName_of_named? hd.definition hfree head path hnamed
  · rw [renamed, Header.rename_of_named?_eq_none none]
    have free : Sql.Statement.parse t.statement.text = .ok t.statement :=
      (Sql.parse_of_isStatement hd.statement hfree).1
    exact parse_eq_ok_iff.mpr ⟨t.statement, free, by rw [ofStatement_eq hd.definition, hd.table]⟩

/-- A table with a quoted name in a quoted schema. -/
def quotedItems : String := "create table if not exists \"etl\".\"items\" (id INT PRIMARY KEY)"

theorem isPath_staging : IsPath "etl.staging" :=
  ⟨_, .cons (w := "etl".toList) (p := "staging".toList) ⟨'e', "tl".toList, by decide +kernel⟩
    (.one ⟨'s', "taging".toList, by decide +kernel⟩)⟩

theorem renames_quotedItems :
    ∃ t, parse quotedItems = .ok t ∧ CommentFree t.statement.text.toList ∧
      IsPath "etl.staging" ∧ t.Renames "etl.staging" := by
  obtain ⟨t, ht, parts⟩ := Outcome.exists_ok_of_map_toOption
    (f := fun t : Table => (t.statement.text, t.fullName)) (x := parse quotedItems)
    (b := (quotedItems, "\"etl\".\"items\"")) (by decide +kernel)
  obtain ⟨text, name⟩ := Prod.mk.inj parts
  have free : CommentFree t.statement.text.toList := by rw [text]; decide +kernel
  have shown : Header.ShowsName t.statement.text t.fullName := by
    rw [text, name]
    refine ⟨"\"etl\".\"items\"".toList, " (id INT PRIMARY KEY)".toList,
      [.word "etl" (some '"'), .period, .word "items" (some '"')], by decide +kernel,
      Sql.closed_of_not_mem (by decide), .blank (by decide) (.paren _), ?_, rfl⟩
    rw [Sql.Token.Reads]
    decide +kernel
  exact ⟨t, ht, free, isPath_staging, (renames_iff ht free isPath_staging).1 shown⟩

/-- A name with blanks around its period. -/
def spacedName : String := "CREATE TABLE etl . orders (id INT)"

/-- Where a quoted name stands right behind TABLE the table keeps its name, and with blanks around the
period it keeps the last part of it. -/
theorem glued_name_ne_renames :
    (∃ t, parse gluedName = .ok t ∧ IsPath "etl.staging" ∧
      (t.renamed "etl.staging").toOption.map (·.fullName) = some "\"orders\"" ∧
      ¬t.Renames "etl.staging") ∧
    ∃ t, parse spacedName = .ok t ∧ IsPath "etl.staging" ∧
      (t.renamed "etl.staging").toOption.map (·.fullName) = some "etl.staging.orders" ∧
      ¬t.Renames "etl.staging" := by
  have other {t : Table} {m : String} (hm : m ≠ "etl.staging")
      (h : (t.renamed "etl.staging").toOption.map (·.fullName) = some m) :
      ¬t.Renames "etl.staging" := by
    rintro ⟨u, hu, same⟩
    rw [hu] at h
    have name : u.fullName = "etl.staging" := by rw [same]
    exact hm ((Option.some.inj h).symm.trans name)
  constructor
  · obtain ⟨t, ht, name⟩ := Outcome.exists_ok_of_map_toOption
      (f := fun t : Table => (t.renamed "etl.staging").toOption.map (·.fullName))
      (x := parse gluedName) (b := some "\"orders\"") (by decide +kernel)
    exact ⟨t, ht, isPath_staging, name, other (by decide) name⟩
  · obtain ⟨t, ht, name⟩ := Outcome.exists_ok_of_map_toOption
      (f := fun t : Table => (t.renamed "etl.staging").toOption.map (·.fullName))
      (x := parse spacedName) (b := some "etl.staging.orders") (by decide +kernel)
    exact ⟨t, ht, isPath_staging, name, other (by decide) name⟩

end EtlFlow.Warehouse.Table
