import EtlFlow.Proofs.Sql.Quiet
import EtlFlow.Proofs.Sql.Surface
import EtlFlow.Proofs.Warehouse.Header
import EtlFlow.Sql.ViewDef
/-!
# Bodies of views in parentheses

A body with balanced parentheses and closed quotes is passed over by the scan for the parenthesis that
closes the ones around it (`splitClosing?_surface`), so a view says the same with its body in parentheses
as without, whatever stands in the body (`parse_bare_and_parenthesised`).
-/

namespace EtlFlow.Sql.ViewDef

open Text (isBlank foldCase trimStart trimEnd trim dropBlanks? dropWord? dropSpacedWord? exists_trim
  trim_eq_self trim_trim trimStart_eq_self trimStart_blanks_append)
open Token (IsPath Path)
open Warehouse.Header (Spaced Spells)

variable {b k r s t w z : List Char} {o : List (Option Char)} {q : Char} {word : String}
variable {replace : Bool}

/-! ### The closing parenthesis -/

theorem splitClosing?_quotation {body : List Char} (h : q ∉ body) (n : Nat) (s : List Char) :
    splitClosing? n (some q) (body ++ q :: s) = behind (body ++ [q]) (splitClosing? n none s) := by
  induction body with
  | nil =>
      rw [List.nil_append, splitClosing?, if_pos rfl]
      rfl
  | cons c body ih =>
      rw [List.mem_cons, not_or] at h
      rw [List.cons_append, splitClosing?, if_neg (Ne.symm h.1), ih h.2]
      exact map_cons_behind

theorem splitClosing?_plain {c : Char} (hc : c ∉ brackets) (n : Nat) (s : List Char) :
    splitClosing? n none (c :: s) = behind [c] (splitClosing? n none s) := by
  unfold brackets at hc
  simp only [List.mem_cons, List.not_mem_nil, not_or] at hc
  simp [splitClosing?, behind, hc]

theorem splitClosing?_quote {c : Char} (hc : c = '\'' ∨ c = '"') (n : Nat) (s : List Char) :
    splitClosing? n none (c :: s) = behind [c] (splitClosing? n (some c) s) := by
  rcases hc with rfl | rfl
  all_goals simp [splitClosing?, behind]

/-- The scan passes over a text whose parentheses are balanced and whose quotes are closed. -/
theorem splitClosing?_surface (h : Surface s o) (n : Nat) (r : List Char) :
    splitClosing? (n + 1) none (s ++ r) = behind s (splitClosing? (n + 1) none r) := by
  induction h generalizing n r with
  | nil => exact behind_nil.symm
  | plain hc _ ih =>
      rw [List.cons_append, splitClosing?_plain hc, ih, behind_behind]
      rfl
  | quoted hq hbody _ ih =>
      rw [List.cons_append, splitClosing?_quote hq, List.append_assoc, List.cons_append,
        splitClosing?_quotation hbody, ih, behind_behind, behind_behind]
      simp
  | @group inner s _ _ _ _ inside outside =>
      have opened (s : List Char) : splitClosing? (n + 1) none ('(' :: s) =
          behind ['('] (splitClosing? (n + 1 + 1) none s) := by
        simp [splitClosing?, behind]
      have closed (s : List Char) : splitClosing? (n + 1 + 1) none (')' :: s) =
          behind [')'] (splitClosing? (n + 1) none s) := by
        simp [splitClosing?, behind]
      rw [List.cons_append, opened, List.append_assoc, List.cons_append, inside, closed, outside,
        behind_behind, behind_behind, behind_behind]
      simp

/-- The parentheses around a text with a surface are taken away. -/
theorem dropParens_parenthesised (h : Surface s o) : dropParens ('(' :: (s ++ [')'])) = trim s := by
  have found : splitClosing? 1 none (s ++ [')']) = some (s, []) := by
    rw [splitClosing?_surface h 0]
    simp [splitClosing?, behind]
  simp only [dropParens, found]

theorem dropParens_of_head (h : s.head? ≠ some '(') : dropParens s = s := by
  unfold dropParens
  split
  · exact absurd rfl h
  · rfl

/-! ### The header -/

/-- The words in front of the name. -/
def headerWords (replace : Bool) : List String :=
  "create" :: (if replace then ["or", "replace"] else []) ++ ["view"]

/-- Blanks, AS in any case and again blanks. -/
def IsAs (z : List Char) : Prop :=
  ∃ a k, z = a ++ k ∧ a ≠ [] ∧ (∀ c ∈ a, isBlank c) ∧ Spaced "as" k

theorem dropBlanks?_append (hne : b ≠ []) (hb : ∀ c ∈ b, isBlank c) (s : List Char) :
    dropBlanks? (b ++ s) = some (trimStart s) := by
  obtain ⟨c, b, rfl⟩ := List.exists_cons_of_ne_nil hne
  obtain ⟨hc, hb⟩ := List.forall_mem_cons.mp hb
  rw [List.cons_append, dropBlanks?, if_pos hc, trimStart_blanks_append hb]

/-- A word of plain letters does not start with a blank. -/
theorem isBlank_of_word (hp : Warehouse.Header.IsPlain word) (hw : w.map foldCase = word.toList)
    (s : List Char) : ∀ c ∈ (w ++ s).head?, isBlank c = false := by
  have hne : w ≠ [] := by
    rintro rfl
    exact hp.1 hw.symm
  intro c hc
  rw [List.head?_append_of_ne_nil _ hne] at hc
  have starts := Warehouse.Header.startsWord_of_map_foldCase hw hp c (List.mem_of_mem_head? hc)
  exact Token.isBlank_of_inWord (Token.inWord_of_startsWord starts)

theorem dropWord?_append (hw : w.map foldCase = word.toList) (s : List Char) :
    dropWord? word.toList (w ++ s) = some s :=
  Text.dropFolded?_eq_some_iff.mpr ⟨w, rfl, hw⟩

theorem dropSpacedWord?_append (hp : Warehouse.Header.IsPlain word) (hne : b ≠ [])
    (hb : ∀ c ∈ b, isBlank c) (hw : w.map foldCase = word.toList) (s : List Char) :
    dropSpacedWord? word.toList (b ++ (w ++ s)) = some s := by
  unfold dropSpacedWord?
  rw [dropBlanks?_append hne hb, trimStart_eq_self (isBlank_of_word hp hw s), Option.bind_some,
    dropWord?_append hw]

/-- Where VIEW comes, there is no OR. -/
theorem dropSpacedWord?_or_view (hne : b ≠ []) (hb : ∀ c ∈ b, isBlank c)
    (hw : w.map foldCase = "view".toList) (s : List Char) :
    dropSpacedWord? "or".toList (b ++ (w ++ s)) = none := by
  unfold dropSpacedWord?
  rw [dropBlanks?_append hne hb, trimStart_eq_self (isBlank_of_word (by decide) hw s),
    Option.bind_some, Option.eq_none_iff_forall_ne_some]
  intro r hr
  obtain ⟨w', hs, hw'⟩ := Text.dropFolded?_eq_some_iff.mp hr
  cases w with
  | nil => cases hw
  | cons c w =>
      cases w' with
      | nil => cases hw'
      | cons d w' =>
          have hc : foldCase c = 'v' := (List.cons.inj hw).1
          have hd : foldCase d = 'o' := (List.cons.inj hw').1
          rw [List.cons_append, List.cons_append, List.cons.injEq] at hs
          rw [hs.1, hd] at hc
          cases hc

theorem afterAs?_append (hz : IsAs z) (s : List Char) : afterAs? (z ++ s) = some (trimStart s) := by
  obtain ⟨a, _, rfl, hne, ha, w, b, rfl, hw, hbne, hb⟩ := hz
  unfold afterAs?
  rw [List.append_assoc, List.append_assoc, dropSpacedWord?_append (by decide) hne ha hw,
    Option.bind_some, dropBlanks?_append hbne hb]

/-- A name without blanks goes up to the first AS. -/
theorem splitAs?_append (hne : t ≠ []) (ht : ∀ c ∈ t, isBlank c = false) (hz : IsAs z)
    (s : List Char) : splitAs? (t ++ (z ++ s)) = some (t, trimStart s) := by
  induction t with
  | nil => exact absurd rfl hne
  | cons c t ih =>
      obtain ⟨-, ht⟩ := List.forall_mem_cons.mp ht
      cases t with
      | nil => rw [List.singleton_append, splitAs?, afterAs?_append hz]
      | cons d t =>
          have none_found : afterAs? (d :: t ++ (z ++ s)) = none := by
            have hd := ht d List.mem_cons_self
            simp [afterAs?, dropSpacedWord?, dropBlanks?, hd]
          rw [List.cons_append, splitAs?, none_found, ih (List.cons_ne_nil d t) ht]
          rfl

theorem nameAndBody?_append (hne : b ≠ []) (hb : ∀ c ∈ b, isBlank c) (htne : t ≠ [])
    (ht : ∀ c ∈ t, isBlank c = false) (hz : IsAs z) (s : List Char) :
    nameAndBody? (b ++ (t ++ (z ++ s))) = some (t, trimStart s) := by
  have hhead : ∀ c ∈ (t ++ (z ++ s)).head?, isBlank c = false := by
    intro c hc
    rw [List.head?_append_of_ne_nil _ htne] at hc
    exact ht c (List.mem_of_mem_head? hc)
  unfold nameAndBody?
  rw [dropBlanks?_append hne hb, trimStart_eq_self hhead]
  simp only [Option.bind_eq_bind, Option.bind_some]
  rw [splitAs?_append htne ht hz]

theorem spells_cons_iff {words : List String} : Spells (word :: words) k ↔
    ∃ a s, k = a ++ s ∧ Spaced word a ∧ Spells words s := by
  constructor
  · intro h
    cases h with
    | cons ha hs => exact ⟨_, _, rfl, ha, hs⟩
  · rintro ⟨a, s, rfl, ha, hs⟩
    exact .cons ha hs

/-- The parts of the header are what they are written as. -/
theorem header?_append (hk : Spells (headerWords replace) k) (htne : t ≠ [])
    (ht : ∀ c ∈ t, isBlank c = false) (hz : IsAs z) (s : List Char) :
    header? (k ++ (t ++ (z ++ s))) = some (replace, t, trim (dropEnd (trimStart s))) := by
  obtain ⟨_, words, rfl, ⟨c, bc, rfl, hc, hbc, hbcb⟩, hwords⟩ := spells_cons_iff.mp hk
  have start (s : List Char) : trimStart (c ++ s) = c ++ s :=
    trimStart_eq_self (isBlank_of_word (by decide) hc s)
  unfold header?
  simp only [List.append_assoc, start, dropWord?_append hc, Option.bind_eq_bind, Option.bind_some]
  cases replace with
  | false =>
      obtain ⟨_, rest, rfl, ⟨v, bv, rfl, hv, hbv, hbvb⟩, hrest⟩ := spells_cons_iff.mp hwords
      cases hrest
      simp only [List.append_assoc, List.nil_append, dropSpacedWord?_or_view hbc hbcb hv,
        Option.bind_none, Option.getD_none, dropSpacedWord?_append (by decide) hbc hbcb hv,
        Option.bind_some, nameAndBody?_append hbv hbvb htne ht hz]
      rfl
  | true =>
      obtain ⟨_, ors, rfl, ⟨u, bu, rfl, hu, hbu, hbub⟩, hors⟩ := spells_cons_iff.mp hwords
      obtain ⟨_, views, rfl, ⟨p, bp, rfl, hp, hbp, hbpb⟩, hviews⟩ := spells_cons_iff.mp hors
      obtain ⟨_, rest, rfl, ⟨v, bv, rfl, hv, hbv, hbvb⟩, hrest⟩ := spells_cons_iff.mp hviews
      cases hrest
      simp only [List.append_assoc, List.nil_append, Option.bind_some, Option.getD_some,
        dropSpacedWord?_append (by decide) hbc hbcb hu, dropSpacedWord?_append (by decide) hbu hbub hp,
        dropSpacedWord?_append (by decide) hbp hbpb hv, nameAndBody?_append hbv hbvb htne ht hz]
      rfl

/-- What does not end with a semicolon is trimmed only. -/
theorem trim_dropEnd (h : (trim s).getLast? ≠ some ';') : trim (dropEnd (trimStart s)) = trim s := by
  have kept : dropEnd (trimStart s) = trim s := by
    have ends : trimEnd (trimStart s) = trim s := rfl
    unfold dropEnd
    rw [ends]
    split
    · next r hr =>
        rw [List.getLast?_eq_head?_reverse, hr] at h
        exact absurd rfl h
    · rw [List.reverse_reverse]
  rw [kept, trim_trim]

/-! ### The name -/

theorem readName_path {ts : List Token} (h : Path t ts) :
    readName (String.ofList t) = .ok (String.ofList t) := by
  have reads := h.reads Token.endsWord_nil
  unfold Token.Reads at reads
  rw [List.append_nil] at reads
  have scanned : Grammar.definitionTokens (String.ofList t) = .ok (ts ++ []) := by
    unfold Grammar.definitionTokens Token.scan
    rw [String.toList_ofList, reads, Token.scanChars.eq_def]
    rfl
  have named : Grammar.relationName (ts ++ []) = .ok (String.ofList t, []) :=
    h.relationName_of_ne (by simp)
  unfold readName
  rw [scanned]
  simp only [bind, Except.bind, named]
  rfl

/-! ### The body -/

/-- The words that a body may start with. -/
def bodyWords : List String := ["SELECT", "WITH"]

/-- A letter of these words is neither a blank nor a parenthesis. -/
theorem of_toUpper_mem {c : Char} (h : ∃ word ∈ bodyWords, c.toUpper ∈ word.toList) :
    isBlank c = false ∧ c ≠ '(' := by
  by_cases hc : c.toNat < 128
  · exact Token.forall_ascii (p := fun c => (∃ word ∈ bodyWords, c.toUpper ∈ word.toList) →
      isBlank c = false ∧ c ≠ '(') (by decide +kernel) hc h
  · have table : ∀ word ∈ bodyWords, ∀ d ∈ word.toList, d.toNat < 128 := by decide
    obtain ⟨word, hword, hmem⟩ := h
    rw [Text.toUpper_of_le (Nat.le_of_not_lt hc)] at hmem
    exact absurd (table word hword c hmem) hc

/-- A body: it starts with SELECT or WITH and behind it a blank or a parenthesis, its parentheses are
balanced and its quotes closed, and it does not end with a semicolon. -/
structure IsBody (b : List Char) : Prop where
  starts : ∃ word ∈ bodyWords, ∃ w r, trim b = w ++ r ∧ w.map Char.toUpper = word.toList ∧
    ∀ c ∈ r.head?, isBlank c = true ∨ c = '('
  balanced : ∃ o, Surface (trim b) o
  ended : (trim b).getLast? ≠ some ';'

theorem firstWord_append (hword : word ∈ bodyWords) (hw : w.map Char.toUpper = word.toList)
    (hr : ∀ c ∈ r.head?, isBlank c = true ∨ c = '(') : firstWord (w ++ r) = String.ofList w := by
  have letters : ∀ c ∈ w, (!isBlank c && c != '(') = true := by
    intro c hc
    obtain ⟨hblank, hparen⟩ := of_toUpper_mem ⟨word, hword, hw ▸ List.mem_map_of_mem hc⟩
    simp [hblank, hparen]
  unfold firstWord
  rw [List.takeWhile_append_of_pos letters]
  cases r with
  | nil => simp
  | cons c r =>
      have stop : (!isBlank c && c != '(') = false := by
        rcases hr c rfl with h | rfl
        · simp [h]
        · simp
      rw [List.takeWhile_cons, stop]
      simp

namespace IsBody

variable (h : IsBody b)

include h

theorem exists_cons : ∃ word ∈ bodyWords, ∃ c s, trim b = c :: s ∧ c.toUpper ∈ word.toList := by
  obtain ⟨word, hword, w, r, hb, hw, -⟩ := h.starts
  have filled : ∀ word ∈ bodyWords, word.toList ≠ [] := by decide
  cases w with
  | nil => exact absurd hw.symm (filled word hword)
  | cons c w =>
      rw [List.map_cons] at hw
      exact ⟨word, hword, c, w ++ r, hb, hw ▸ List.mem_cons_self⟩

theorem head?_ne : (trim b).head? ≠ some '(' := by
  obtain ⟨word, hword, c, s, hb, hc⟩ := h.exists_cons
  rw [hb, List.head?_cons]
  intro hparen
  exact (of_toUpper_mem ⟨word, hword, hc⟩).2 (Option.some.inj hparen)

theorem firstWord_mem : Text.upperAscii (firstWord (trim b)) ∈ ["SELECT", "WITH"] := by
  obtain ⟨word, hword, w, r, hb, hw, hr⟩ := h.starts
  have capitals : Text.upperAscii (String.ofList w) = word := by
    refine String.toList_inj.mp ?_
    rw [← hw]
    simp [Text.upperAscii]
  rw [hb, firstWord_append hword hw hr, capitals]
  exact hword

/-- The blanks around a body do not matter for its parentheses. -/
theorem exists_surface : ∃ o, Surface b o := by
  obtain ⟨o, ho⟩ := h.balanced
  obtain ⟨a, z, hb, ha, hz⟩ := exists_trim b
  rw [hb]
  exact ⟨_, (surface_blanks ha).append (ho.append (surface_blanks hz))⟩

/-- A view has the body that is left of what stands behind AS. -/
theorem parse_append {v : String} {x : List Char} (hk : Spells (headerWords replace) k)
    (hv : IsPath v) (hz : IsAs z) (hend : (trim x).getLast? ≠ some ';')
    (hdrop : dropParens (trim x) = trim b) :
    parse (String.ofList (k ++ (v.toList ++ (z ++ x)))) =
      .ok ⟨v, replace, String.ofList (trim b)⟩ := by
  obtain ⟨ts, path⟩ := hv
  have filled : v.toList ≠ [] := by
    obtain ⟨c, q, hcq, -⟩ := path.head
    rw [hcq]
    exact List.cons_ne_nil c q
  have name := readName_path path
  rw [String.ofList_toList] at name
  have nonempty : ¬(trim b).isEmpty = true := by
    obtain ⟨-, -, c, s, hb, -⟩ := h.exists_cons
    simp [hb]
  unfold parse
  rw [String.toList_ofList, header?_append hk filled path.isBlank hz, trim_dropEnd hend]
  dsimp only
  rw [String.ofList_toList, name, hdrop]
  simp only [bind, Except.bind, if_neg nonempty, if_neg (not_not_intro h.firstWord_mem)]
  rfl

end IsBody

/-- A view is the same with its body in parentheses as without. -/
theorem parse_bare_and_parenthesised {v : String} (hk : Spells (headerWords replace) k)
    (hv : IsPath v) (hz : IsAs z) (hb : IsBody b) :
    parse (String.ofList (k ++ (v.toList ++ (z ++ b)))) = .ok ⟨v, replace, String.ofList (trim b)⟩ ∧
    parse (String.ofList (k ++ (v.toList ++ (z ++ ('(' :: (b ++ [')'])))))) =
      .ok ⟨v, replace, String.ofList (trim b)⟩ ∧
    (parse (String.ofList (k ++ (v.toList ++ (z ++ b)))) >>= dependencies) =
      (parse (String.ofList (k ++ (v.toList ++ (z ++ ('(' :: (b ++ [')'])))))) >>= dependencies) := by
  have bare := hb.parse_append hk hv hz hb.ended (dropParens_of_head hb.head?_ne)
  have parenthesised : trim ('(' :: (b ++ [')'])) = '(' :: (b ++ [')']) := by
    refine trim_eq_self ?_ ?_
    · intro c hc
      cases hc
      decide
    · intro c hc
      rw [← List.cons_append, List.getLast?_concat, Option.mem_some_iff] at hc
      subst hc
      decide
  obtain ⟨o, surface⟩ := hb.exists_surface
  have inside := hb.parse_append (x := '(' :: (b ++ [')'])) hk hv hz
    (by rw [parenthesised, ← List.cons_append, List.getLast?_concat]; decide)
    (by rw [parenthesised, dropParens_parenthesised surface])
  exact ⟨bare, inside, by rw [bare, inside]⟩

/-- A parenthesis in a literal does not close the ones around a body, and the word AS in it does not end
the name. -/
theorem parse_of_literal_parenthesis :
    parse "create or replace view sales.daily as SELECT ')' AS open FROM (t)" =
      .ok ⟨"sales.daily", true, "SELECT ')' AS open FROM (t)"⟩ ∧
    parse "create or replace view sales.daily as (SELECT ')' AS open FROM (t))" =
      .ok ⟨"sales.daily", true, "SELECT ')' AS open FROM (t)"⟩ := by
  have spaced {w : List Char} {word : String} (hw : w.map foldCase = word.toList) :
      Spaced word (w ++ [' ']) := ⟨w, [' '], rfl, hw, by decide, by decide⟩
  have header : Spells (headerWords true) "create or replace view ".toList :=
    .cons (spaced (w := "create".toList) (by decide))
      (.cons (spaced (w := "or".toList) (by decide))
        (.cons (spaced (w := "replace".toList) (by decide))
          (.cons (spaced (w := "view".toList) (by decide)) .nil)))
  have name : IsPath "sales.daily" :=
    ⟨_, .cons (w := "sales".toList) (p := "daily".toList) ⟨'s', "ales".toList, by decide +kernel⟩
      (.one ⟨'d', "aily".toList, by decide +kernel⟩)⟩
  have asWord : IsAs " as ".toList :=
    ⟨[' '], _, rfl, by decide, by decide, spaced (w := "as".toList) (by decide)⟩
  have literal : Surface "')'".toList [none] :=
    .quoted (.inl rfl) (show '\'' ∉ ")".toList by decide) .nil
  have group : Surface "(t)".toList [none] :=
    .group (surface_map_some (s := "t".toList) (by decide)) .nil
  have plain {s : List Char} (hs : ∀ c ∈ s, c ∉ brackets) := surface_map_some hs
  have body : IsBody "SELECT ')' AS open FROM (t)".toList := by
    have trimmed : trim "SELECT ')' AS open FROM (t)".toList =
        "SELECT ')' AS open FROM (t)".toList := by decide
    refine ⟨⟨"SELECT", by decide, "SELECT".toList, " ')' AS open FROM (t)".toList, ?_⟩, ?_, ?_⟩
    · refine ⟨by decide, by decide, fun c hc => .inl ?_⟩
      cases hc
      decide
    · rw [trimmed]
      exact ⟨_, (plain (s := "SELECT ".toList) (by decide)).append
        (literal.append ((plain (s := " AS open FROM ".toList) (by decide)).append group))⟩
    · decide
  obtain ⟨bare, inside, -⟩ := parse_bare_and_parenthesised header name asWord body
  exact ⟨bare, inside⟩

end EtlFlow.Sql.ViewDef
