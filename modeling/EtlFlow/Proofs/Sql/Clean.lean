import EtlFlow.Proofs.Text.Words
import EtlFlow.Sql.Script
import Mathlib.Tactic.Common
/-!
# Cleaning a text with a plain front

A front without quotes, semicolons, newlines and the characters that open comments goes through the
clean-up as it is (`sanitize_append`).  What stands behind it changes, but goes on as it did: behind
a name it still ends the name (`EndsName`), and an opening parenthesis that came next still does
(`Opens`).
-/

namespace EtlFlow.Sql

open Text (isBlank trimStart trimEnd trim trimEnd_append trimEnd_isPrefix)

/-- What holds of every character of a text is decided along the text, not along all characters. -/
instance decidableForallMemText (p : Char → Prop) [DecidablePred p] (s : List Char) :
    Decidable (∀ c ∈ s, p c) :=
  List.decidableBAll p s

/-! ### The stages at one character -/

section stages

variable {c : Char} {s : List Char}

theorem dropComments_cons (hq : c ≠ '\'') (hs : c ≠ '/') (hd : c ≠ '-') :
    dropComments .code (c :: s) = c :: dropComments .code s := by
  rw [dropComments.eq_def]
  split <;> simp_all

theorem joinLines_cons (hq : c ≠ '\'') (hn : c ≠ '\n') (hr : c = '\r' → s.head? ≠ some '\n') :
    joinLines .code (c :: s) = c :: joinLines .code s := by
  rw [joinLines.eq_def]
  split <;> simp_all

/-- A newline of one character becomes a space, the first character of one of two goes. -/
theorem joinLines_step (hq : c ≠ '\'') :
    joinLines .code (c :: s) = c :: joinLines .code s ∧ c ≠ '\n' ∧
        (c = '\r' → s.head? ≠ some '\n') ∨
      joinLines .code (c :: s) = ' ' :: joinLines .code s ∧ c = '\n' ∨
      joinLines .code (c :: s) = joinLines .code s ∧ c = '\r' ∧ s.head? = some '\n' := by
  by_cases hn : c = '\n'
  · subst hn
    exact .inr (.inl ⟨by simp [joinLines], rfl⟩)
  by_cases hr : c = '\r' ∧ s.head? = some '\n'
  · obtain ⟨rfl, hs⟩ := hr
    cases s with
    | nil => cases hs
    | cons d s =>
      cases hs
      exact .inr (.inr ⟨by simp [joinLines], rfl, rfl⟩)
  · have hr : c = '\r' → s.head? ≠ some '\n' := fun hc hs => hr ⟨hc, hs⟩
    exact .inl ⟨joinLines_cons hq hn hr, hn, hr⟩

theorem joinSemicolons_cons (hq : c ≠ '\'') (hs : c ≠ ';') :
    joinSemicolons false .code (c :: s) = c :: joinSemicolons false .code s := by
  rw [joinSemicolons.eq_def]
  split <;> simp_all

theorem fragments_ne_nil (quoted : Bool) (s : List Char) : fragments quoted s ≠ [] := by
  cases s with
  | nil => simp [fragments]
  | cons c s =>
    rw [fragments]
    split
    · exact List.cons_ne_nil _ _
    · split <;> exact List.cons_ne_nil _ _

theorem fragments_cons (hq : c ≠ '\'') (hs : c ≠ ';') {f : List Char} {fs : List (List Char)}
    (h : fragments false s = f :: fs) : fragments false (c :: s) = (c :: f) :: fs := by
  rw [fragments, if_neg (fun hc => hs hc.1), if_neg hq, h]

/-- A blank or an opening parenthesis. -/
def endsName (c : Char) : Bool := isBlank c || c == '('

theorem calm_of_endsName (h : endsName c) : c ≠ '\'' ∧ c ≠ ';' ∧ c ≠ '-' ∧ c ≠ '/' := by
  refine ⟨?_, ?_, ?_, ?_⟩ <;> rintro rfl <;> revert h <;> decide

end stages

/-! ### Behind a name -/

/-- The text is empty or starts with a character that ends a name. -/
def EndsName (s : List Char) : Prop := ∀ c ∈ s.head?, endsName c

/-- Only blanks stand before an opening parenthesis. -/
inductive Opens : List Char → Prop where
  | paren (s : List Char) : Opens ('(' :: s)
  | blank {c : Char} {s : List Char} : isBlank c → Opens s → Opens (c :: s)

theorem Opens.endsName {s : List Char} (h : Opens s) : EndsName s := by
  cases h with
  | paren s => simp [EndsName, Sql.endsName]
  | blank hc _ => simp [EndsName, Sql.endsName, hc]

theorem EndsName.of_isPrefix {f s : List Char} (h : EndsName s) (hf : f <+: s) : EndsName f := by
  obtain ⟨t, rfl⟩ := hf
  cases f with
  | nil => simp [EndsName]
  | cons c f => exact h

/-- A stage of the clean-up keeps a parenthesis, and keeps a blank or joins it to the next one. -/
structure IsStage (f : List Char → List Char) : Prop where
  nil : f [] = []
  paren (s : List Char) : f ('(' :: s) = '(' :: f s
  blank {c : Char} (hc : isBlank c) (s : List Char) :
    ∃ d, isBlank d ∧ (f (c :: s) = d :: f s ∨ f (c :: s) = f s ∧ (f s).head? = some d)

theorem IsStage.endsName {f : List Char → List Char} (hf : IsStage f) {s : List Char}
    (h : EndsName s) : EndsName (f s) := by
  cases s with
  | nil => rwa [hf.nil]
  | cons c s =>
    have hc : isBlank c ∨ c = '(' := by simpa [EndsName, Sql.endsName] using h
    rcases hc with hc | rfl
    · obtain ⟨d, hd, h | ⟨h, hs⟩⟩ := hf.blank hc s
      · rw [h]
        simp [EndsName, Sql.endsName, hd]
      · rw [h]
        simp [EndsName, Sql.endsName, hs, hd]
    · rw [hf.paren]
      exact h

theorem IsStage.opens {f : List Char → List Char} (hf : IsStage f) {s : List Char}
    (h : Opens s) : Opens (f s) := by
  induction h with
  | paren s =>
    rw [hf.paren]
    exact .paren _
  | @blank c s hc _ ih =>
    obtain ⟨d, hd, h | ⟨h, -⟩⟩ := hf.blank hc s
    · rw [h]
      exact .blank hd ih
    · rwa [h]

theorem isStage_dropComments : IsStage (dropComments .code) where
  nil := by simp [dropComments]
  paren s := dropComments_cons (by decide) (by decide) (by decide)
  blank {c} hc s := by
    obtain ⟨hq, -, hd, hs⟩ := calm_of_endsName (c := c) (by simp [Sql.endsName, hc])
    exact ⟨c, hc, .inl (dropComments_cons hq hs hd)⟩

theorem isStage_joinLines : IsStage (joinLines .code) where
  nil := by simp [joinLines]
  paren s := joinLines_cons (by decide) (by decide) (fun h => absurd h (by decide))
  blank {c} hc s := by
    have space : isBlank ' ' := by decide
    obtain ⟨hq, -⟩ := calm_of_endsName (c := c) (by simp [Sql.endsName, hc])
    rcases joinLines_step (s := s) hq with ⟨h, -⟩ | ⟨h, -⟩ | ⟨h, -, hs⟩
    · exact ⟨c, hc, .inl h⟩
    · exact ⟨' ', space, .inl h⟩
    · refine ⟨' ', space, .inr ⟨h, ?_⟩⟩
      cases s with
      | nil => cases hs
      | cons d s =>
        cases hs
        simp [joinLines]

theorem isStage_joinSemicolons : IsStage (joinSemicolons false .code) where
  nil := by simp [joinSemicolons]
  paren s := joinSemicolons_cons (by decide) (by decide)
  blank {c} hc s := by
    obtain ⟨hq, hs, -⟩ := calm_of_endsName (c := c) (by simp [Sql.endsName, hc])
    exact ⟨c, hc, .inl (joinSemicolons_cons hq hs)⟩

theorem isStage_fragments : IsStage fun s => (fragments false s).headD [] where
  nil := rfl
  paren s := by
    obtain ⟨f, fs, h⟩ := List.exists_cons_of_ne_nil (fragments_ne_nil false s)
    rw [fragments_cons (by decide) (by decide) h, h]
    rfl
  blank {c} hc s := by
    obtain ⟨hq, hs, -⟩ := calm_of_endsName (c := c) (by simp [Sql.endsName, hc])
    obtain ⟨f, fs, h⟩ := List.exists_cons_of_ne_nil (fragments_ne_nil false s)
    refine ⟨c, hc, .inl ?_⟩
    rw [fragments_cons hq hs h, h]
    rfl

/-! ### Opened parentheses -/

theorem Opens.eq_append {s : List Char} (h : Opens s) :
    ∃ gap r, s = gap ++ ['('] ++ r ∧ ∀ c ∈ gap, isBlank c := by
  induction h with
  | paren s => exact ⟨[], s, rfl, by simp⟩
  | @blank c s hc _ ih =>
    obtain ⟨gap, r, rfl, hgap⟩ := ih
    exact ⟨c :: gap, r, rfl, List.forall_mem_cons.mpr ⟨hc, hgap⟩⟩

theorem opens_append {gap : List Char} (hgap : ∀ c ∈ gap, isBlank c) (r : List Char) :
    Opens (gap ++ ['('] ++ r) := by
  induction gap with
  | nil => exact .paren r
  | cons c gap ih =>
    rw [List.forall_mem_cons] at hgap
    exact .blank hgap.1 (ih hgap.2)

theorem Opens.trimEnd {s : List Char} (h : Opens s) : Opens (trimEnd s) := by
  obtain ⟨gap, r, rfl, hgap⟩ := h.eq_append
  rw [trimEnd_append]
  · exact opens_append hgap _
  · rw [List.getLast?_concat]
    rintro _ ⟨⟩
    rfl

/-! ### Behind a plain front -/

/-- The character opens neither a literal nor a comment and ends no statement. -/
def isCalm (c : Char) : Bool := c != '\'' && c != ';' && c != '-' && c != '/'

/-- A front that the clean-up takes as it is, up to joining its lines. -/
structure IsFront (p : List Char) : Prop where
  ne_nil : p ≠ []
  calm : ∀ c ∈ p, isCalm c
  head : ∀ c ∈ p.head?, isBlank c = false
  last : ∀ c ∈ p.getLast?, isBlank c = false

/-- What the clean-up leaves of the text behind a plain front, up to the end of the statement. -/
def cleanBehind (s : List Char) : List Char :=
  trimEnd ((fragments false (joinSemicolons false .code (joinLines .code
    (dropComments .code s)))).headD [])

theorem EndsName.cleanBehind {s : List Char} (h : EndsName s) : EndsName (cleanBehind s) :=
  (isStage_fragments.endsName (isStage_joinSemicolons.endsName (isStage_joinLines.endsName
    (isStage_dropComments.endsName h)))).of_isPrefix (trimEnd_isPrefix _)

theorem Opens.cleanBehind {s : List Char} (h : Opens s) : Opens (cleanBehind s) :=
  (isStage_fragments.opens (isStage_joinSemicolons.opens (isStage_joinLines.opens
    (isStage_dropComments.opens h)))).trimEnd

section front

variable {p : List Char}

theorem isCalm_iff {c : Char} : isCalm c ↔ c ≠ '\'' ∧ c ≠ ';' ∧ c ≠ '-' ∧ c ≠ '/' := by
  simp [isCalm, and_assoc]

theorem isCalm_of_isBlank {c : Char} (h : isBlank c) : isCalm c :=
  isCalm_iff.mpr (calm_of_endsName (by simp [endsName, h]))

theorem dropComments_append (hp : ∀ c ∈ p, isCalm c) (s : List Char) :
    dropComments .code (p ++ s) = p ++ dropComments .code s := by
  induction p with
  | nil => rfl
  | cons c p ih =>
    rw [List.forall_mem_cons] at hp
    obtain ⟨hq, -, hd, hs⟩ := isCalm_iff.mp hp.1
    rw [List.cons_append, dropComments_cons hq hs hd, ih hp.2, List.cons_append]

/-- Lines may be joined piece by piece, unless a newline of two characters is cut. -/
theorem joinLines_append {p : List Char} (hp : ∀ c ∈ p, c ≠ '\'') {s : List Char}
    (hs : p.getLast? = some '\r' → s.head? ≠ some '\n') :
    joinLines .code (p ++ s) = joinLines .code p ++ joinLines .code s := by
  induction p with
  | nil => simp [joinLines]
  | cons c p ih =>
    rw [List.forall_mem_cons] at hp
    cases p with
    | nil =>
      rcases joinLines_step (s := s) hp.1 with ⟨h, hn, -⟩ | ⟨h, rfl⟩ | ⟨-, rfl, hd⟩
      · rw [List.singleton_append, h, joinLines_cons hp.1 hn (by simp)]
        simp [joinLines]
      · simp [joinLines]
      · exact absurd hd (hs rfl)
    | cons d p =>
      have rest := ih hp.2 fun h => hs (by rwa [List.getLast?_cons_cons])
      rcases joinLines_step (s := d :: p) hp.1 with ⟨h, hn, hr⟩ | ⟨h, rfl⟩ | ⟨h, rfl, hd⟩
      · rw [h, List.cons_append, joinLines_cons (s := d :: p ++ s) hp.1 hn hr, rest,
          List.cons_append]
      · have tail : ' ' :: joinLines .code (d :: p) ++ joinLines .code s =
            ' ' :: joinLines .code (d :: p ++ s) := by
          rw [rest, List.cons_append]
        rw [h, tail]
        simp [joinLines]
      · cases hd
        rw [h, ← rest]
        simp [joinLines]

theorem joinLines_eq_self {p : List Char} (hp : ∀ c ∈ p, isCalm c ∧ isBlank c = false) :
    joinLines .code p = p := by
  induction p with
  | nil => simp [joinLines]
  | cons c p ih =>
    rw [List.forall_mem_cons] at hp
    obtain ⟨hq, -⟩ := isCalm_iff.mp hp.1.1
    have ne {d : Char} (hd : isBlank d) : c ≠ d := by
      rintro rfl
      rw [hp.1.2] at hd
      cases hd
    rw [joinLines_cons hq (ne (by decide)) (fun h => absurd h (ne (by decide))), ih hp.2]

/-- Blanks become blanks when lines are joined. -/
theorem joinLines_blanks {b : List Char} (hb : ∀ c ∈ b, isBlank c) :
    (∀ c ∈ joinLines .code b, isBlank c) ∧ (b ≠ [] → joinLines .code b ≠ []) := by
  induction b with
  | nil => simp [joinLines]
  | cons c b ih =>
    rw [List.forall_mem_cons] at hb
    obtain ⟨d, hd, h | ⟨h, hs⟩⟩ := isStage_joinLines.blank hb.1 b
    · rw [h]
      exact ⟨List.forall_mem_cons.mpr ⟨hd, (ih hb.2).1⟩, fun _ => List.cons_ne_nil _ _⟩
    · rw [h]
      refine ⟨(ih hb.2).1, fun _ hnil => ?_⟩
      rw [hnil] at hs
      cases hs

theorem mem_joinLines {p : List Char} (hp : ∀ c ∈ p, c ≠ '\'') :
    ∀ c ∈ joinLines .code p, c ∈ p ∨ c = ' ' := by
  induction p with
  | nil => simp [joinLines]
  | cons c p ih =>
    rw [List.forall_mem_cons] at hp
    have rest : ∀ d ∈ joinLines .code p, d ∈ c :: p ∨ d = ' ' :=
      fun d hd => (ih hp.2 d hd).imp_left (List.mem_cons_of_mem c)
    rcases joinLines_step (s := p) hp.1 with ⟨h, -⟩ | ⟨h, -⟩ | ⟨h, -⟩
    · rw [h, List.forall_mem_cons]
      exact ⟨.inl (List.mem_cons_self ..), rest⟩
    · rw [h, List.forall_mem_cons]
      exact ⟨.inr rfl, rest⟩
    · rwa [h]

theorem joinSemicolons_append (hp : ∀ c ∈ p, isCalm c) (s : List Char) :
    joinSemicolons false .code (p ++ s) = p ++ joinSemicolons false .code s := by
  induction p with
  | nil => rfl
  | cons c p ih =>
    rw [List.forall_mem_cons] at hp
    obtain ⟨hq, hs, -⟩ := isCalm_iff.mp hp.1
    rw [List.cons_append, joinSemicolons_cons hq hs, ih hp.2, List.cons_append]

theorem fragments_append (hp : ∀ c ∈ p, isCalm c) {s f : List Char} {fs : List (List Char)}
    (h : fragments false s = f :: fs) : fragments false (p ++ s) = (p ++ f) :: fs := by
  induction p with
  | nil => exact h
  | cons c p ih =>
    rw [List.forall_mem_cons] at hp
    obtain ⟨hq, hs, -⟩ := isCalm_iff.mp hp.1
    exact fragments_cons hq hs (ih hp.2)

theorem ne_quote_of_isCalm (hp : ∀ c ∈ p, isCalm c) : ∀ c ∈ p, c ≠ '\'' :=
  fun c hc => (isCalm_iff.mp (hp c hc)).1

/-- Joining the lines of a front keeps it a front. -/
theorem isFront_joinLines (hp : IsFront p) : IsFront (joinLines .code p) := by
  have quotes := ne_quote_of_isCalm hp.calm
  have kept {c : Char} (hc : isBlank c = false) (hq : c ≠ '\'') (s : List Char) :
      joinLines .code (c :: s) = c :: joinLines .code s := by
    rcases joinLines_step (s := s) hq with ⟨h, -⟩ | ⟨-, rfl⟩ | ⟨-, rfl, -⟩
    · exact h
    · exact absurd hc (by decide)
    · exact absurd hc (by decide)
  obtain ⟨c, u, rfl⟩ := List.exists_cons_of_ne_nil hp.ne_nil
  have first := kept (hp.head c rfl) (quotes c (by simp)) u
  refine ⟨by rw [first]; exact List.cons_ne_nil _ _, ?_, ?_, ?_⟩
  · intro d hd
    rcases mem_joinLines quotes d hd with hd | rfl
    · exact hp.calm d hd
    · decide
  · rw [first]
    exact hp.head
  · -- the last character stands alone behind the rest
    have split := List.dropLast_concat_getLast hp.ne_nil
    have last := hp.last _ (List.getLast?_eq_some_getLast hp.ne_nil)
    rw [← split] at quotes ⊢
    rw [List.forall_mem_append] at quotes
    have alone := kept last (quotes.2 _ (by simp)) []
    rw [joinLines_append quotes.1, alone]
    · simpa [joinLines] using last
    · rintro - h
      rw [List.head?_cons, Option.some.injEq] at h
      rw [h] at last
      exact absurd last (by decide)

/-- The first statement of a text with a plain front starts with that front. -/
theorem sanitize_append (hp : IsFront p) (s : List Char) : ∃ rest,
    sanitize true (String.ofList (p ++ s)) =
      String.ofList (joinLines .code p ++ cleanBehind s) :: rest := by
  obtain ⟨f, fs, hf⟩ := List.exists_cons_of_ne_nil (fragments_ne_nil false
    (joinSemicolons false .code (joinLines .code (dropComments .code s))))
  refine ⟨((fs.map trim).filter (· ≠ [])).map String.ofList, ?_⟩
  have lines : joinLines .code (p ++ dropComments .code s) =
      joinLines .code p ++ joinLines .code (dropComments .code s) := by
    refine joinLines_append (ne_quote_of_isCalm hp.calm) fun h => ?_
    exact absurd (hp.last _ h) (by decide)
  have hq := isFront_joinLines hp
  obtain ⟨c, u, hc⟩ := List.exists_cons_of_ne_nil hq.ne_nil
  rw [hc] at hq lines ⊢
  have head : isBlank c = false := hq.head c rfl
  have hs : c ≠ ';' := (isCalm_iff.mp (hq.calm c (by simp))).2.1
  have started (r : List Char) : trimStart (c :: u ++ r) = c :: u ++ r := by
    rw [trimStart, List.cons_append, List.dropWhile_cons_of_neg (by simp [head])]
  have kept (r : List Char) : (c :: u ++ r).dropWhile (· == ';') = c :: u ++ r := by
    rw [List.cons_append, List.dropWhile_cons_of_neg (by simp [hs])]
  simp only [sanitize, if_pos, String.toList_ofList, dropComments_append hp.calm, lines,
    dropEmptyStatements, joinSemicolons_append hq.calm, started, kept, splitStatements,
    fragments_append hq.calm hf, cleanBehind, hf]
  rw [List.map_cons, trim, started, trimEnd_append hq.last]
  simp

/-- What a clean-up gives starts with no blank. -/
theorem head_of_mem_sanitize {keep : Bool} {sql x : String} (h : x ∈ sanitize keep sql) :
    ∀ c ∈ x.toList.head?, isBlank c = false := by
  simp only [sanitize, splitStatements, List.mem_map, List.mem_filter] at h
  obtain ⟨f, ⟨⟨g, -, rfl⟩, -⟩, rfl⟩ := h
  rw [String.toList_ofList]
  obtain ⟨t, ht⟩ := trimEnd_isPrefix (trimStart g)
  intro c hc
  have hg : (trimStart g).head? = some c := by
    rw [← ht, trim] at *
    cases h : trimEnd (trimStart g) with
    | nil =>
      rw [h] at hc
      cases hc
    | cons d r =>
      rw [h] at hc
      exact hc
  have := List.head?_dropWhile_not isBlank g
  rw [trimStart] at hg
  rw [hg] at this
  simpa using this

end front

end EtlFlow.Sql
