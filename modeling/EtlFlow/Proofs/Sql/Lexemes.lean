import EtlFlow.Proofs.Sql.Lookahead
import EtlFlow.Proofs.Sql.Quiet
import EtlFlow.Proofs.Sql.Spans
import Mathlib.Data.List.Basic
/-!
# Lexemes through the clean-up

The scan of a text cuts it into lexemes: tokens, blanks and comments (`lexemes`).  The clean-up takes
comments away, changes blanks and cuts at semicolons.  Where it would leave each token as it is
(`Agrees`), the statements that it gives are texts of the same tokens (`Renders`), and are read so
(`scansTo_of_renders`): a step looks no further than the blank or the semicolon behind its token.
-/

namespace EtlFlow.Sql

open Text (isBlank trimStart trimEnd trim trim_blanks trim_ends trim_trim trimEnd_append
  trimEnd_isPrefix)
open Outcome (map_eq_ok_iff)
open Token (step scanChars Resumes SameNext looksFar OpensComment)

/-- A token with the characters it is read from, or a blank or a comment, which give none. -/
structure Lexeme where
  token : Option Token
  text : List Char
  deriving DecidableEq

namespace Lexeme

/-- The lexeme is a token that stands in a statement. -/
def isKept (l : Lexeme) : Bool := l.token.any (· != .semicolon)

/-- The lexeme is a comment. -/
def isComment (l : Lexeme) : Bool := l.token.isNone && l.text.any (!isBlank ·)

theorem isComment_eq_false {l : Lexeme} (h : l.isKept) : l.isComment = false := by
  obtain ⟨_ | t, text⟩ := l
  · cases h
  · rfl

/-- What is needed to leave a token as it is in front of the lexemes `ls`: its characters are left as
they are and neither start nor end with a blank, no comment opens where it ends, comments right behind
it do not hide what it ends at, and where it looks for what stands behind blanks no blanks stand. -/
structure Stays (l : Lexeme) (ls : List Lexeme) : Prop where
  quiet : IsQuiet l.text
  trimmed : trim l.text = l.text
  border : ∀ c ∈ l.text.getLast?, ∀ m ∈ ls.head?, ¬OpensComment c m.text
  parted : (∃ m ∈ ls.head?, m.isComment) →
    ∀ m ∈ (ls.dropWhile isComment).head?, m.isKept = false
  near : (∃ t ∈ l.token, looksFar t) → ∃ m ∈ ls.head?, m.isKept

end Lexeme

open Lexeme (isKept isComment isComment_eq_false Stays)

/-- The clean-up leaves every token as it is. -/
def Agrees : List Lexeme → Prop
  | [] => True
  | l :: ls => (l.isKept → l.Stays ls) ∧ Agrees ls

instance (c : Char) (s : List Char) : Decidable (OpensComment c s) :=
  inferInstanceAs (Decidable (_ ∨ _))

instance (l : Lexeme) (ls : List Lexeme) : Decidable (l.Stays ls) :=
  have : Decidable (∀ c ∈ l.text.getLast?, ∀ m ∈ ls.head?, ¬OpensComment c m.text) :=
    Option.decidableForallMem ..
  decidable_of_iff _ ⟨fun h => ⟨h.1, h.2.1, h.2.2.1, h.2.2.2.1, h.2.2.2.2⟩,
    fun h => And.intro h.quiet (And.intro h.trimmed (And.intro h.border (And.intro h.parted h.near)))⟩

instance decidableAgrees : (ls : List Lexeme) → Decidable (Agrees ls)
  | [] => .isTrue trivial
  | l :: ls =>
    have := decidableAgrees ls
    inferInstanceAs (Decidable ((l.isKept → l.Stays ls) ∧ Agrees ls))

/-- The tokens among lexemes. -/
def tokens (ls : List Lexeme) : List Token := ls.filterMap Lexeme.token

theorem tokens_cons_some {l : Lexeme} {t : Token} (h : l.token = some t) (ls : List Lexeme) :
    tokens (l :: ls) = t :: tokens ls := List.filterMap_cons_some h

theorem tokens_cons_none {l : Lexeme} (h : l.token = none) (ls : List Lexeme) :
    tokens (l :: ls) = tokens ls := List.filterMap_cons_none h

/-- The lexemes of a text. -/
def lexemes : List Char → Except LexError (List Lexeme)
  | [] => .ok []
  | c :: s =>
    match _h : step c s with
    | .error e => .error e
    | .ok (t, r) => (lexemes r).map (⟨t, (c :: s).take (s.length + 1 - r.length)⟩ :: ·)
termination_by s => s.length
decreasing_by
  have := (Token.step_suffix _h).length_le
  simp only [List.length_cons]
  omega

variable {c : Char} {b f p r s x : List Char} {fs xs : List (List Char)} {l : Lexeme}
  {ls : List Lexeme}

/-! ### The lexemes of a text -/

theorem scanChars_eq (s : List Char) : scanChars s = (lexemes s).map tokens := by
  fun_induction lexemes s with
  | case1 => exact Token.scanChars_nil
  | case2 c s e h =>
    rw [scanChars.eq_def]
    dsimp only
    split
    · rename_i h'
      rw [h] at h'
      cases h'
      rfl
    · rename_i h'
      rw [h] at h'
      cases h'
  | case3 c s t r h ih =>
    have := Token.reads_of_step h
    rw [Token.Reads, ih] at this
    rw [this]
    cases lexemes r with
    | error e => rfl
    | ok ls => cases t <;> rfl

theorem exists_of_lexemes (h : lexemes s = .ok (l :: ls)) : ∃ c p r, l.text = c :: p ∧
    s = l.text ++ r ∧ step c (p ++ r) = .ok (l.token, r) ∧ lexemes r = .ok ls := by
  cases s with
  | nil =>
    rw [lexemes.eq_def] at h
    cases h
  | cons c s =>
    rw [lexemes.eq_def] at h
    dsimp only at h
    split at h
    · cases h
    · rename_i t r hstep
      obtain ⟨ls', hr, heq⟩ := map_eq_ok_iff.mp h
      obtain ⟨rfl, rfl⟩ := List.cons.inj heq
      obtain ⟨p, rfl⟩ := Token.step_suffix hstep
      have cut : (c :: (p ++ r)).take ((p ++ r).length + 1 - r.length) = c :: p := by
        rw [List.length_append, Nat.add_right_comm, Nat.add_sub_cancel, List.take_succ_cons,
          List.take_left]
      exact ⟨c, p, r, cut, by rw [cut, List.cons_append], hstep, hr⟩

theorem eq_nil_of_lexemes (h : lexemes s = .ok []) : s = [] := by
  cases s with
  | nil => rfl
  | cons c s =>
    rw [lexemes.eq_def] at h
    dsimp only at h
    split at h
    · cases h
    · obtain ⟨ls', -, heq⟩ := map_eq_ok_iff.mp h
      cases heq

/-! ### Fronts that stay -/

theorem forall_last {P : Char → Prop} (a : List Char) (h : ∀ c ∈ (a ++ p).getLast?, P c) :
    ∀ c ∈ p.getLast?, P c := by
  cases p with
  | nil => exact nofun
  | cons d p => rwa [List.getLast?_append_of_ne_nil _ (List.cons_ne_nil d p)] at h

theorem literal_eq (body s : List Char) :
    '\'' :: (body ++ '\'' :: s) = '\'' :: (body ++ ['\'']) ++ s := by simp

theorem dropComments_of_quiet (hp : IsQuiet p) (border : ∀ c ∈ p.getLast?, ¬OpensComment c s) :
    dropComments .code (p ++ s) = p ++ dropComments .code s := by
  obtain ⟨-, free, closed⟩ := hp
  induction p using induction_on_pieces with
  | nil => rfl
  | code c p hc ih =>
    rw [closed_cons hc] at closed
    rw [commentFree_cons hc] at free
    have opens : ¬OpensComment c (p ++ s) := by
      cases p with
      | nil => exact border c rfl
      | cons d p => exact free.1
    rw [List.cons_append, dropComments_of_not_opensComment hc opens,
      ih (forall_last [c] border) free.2 closed]
    rfl
  | literal body p hb ih =>
    rw [closed_literal hb] at closed
    rw [commentFree_literal hb] at free
    rw [literal_eq] at border
    rw [List.cons_append, List.append_assoc, List.cons_append,
      keepsLiterals_dropComments.literal hb, ih (forall_last _ border) free closed]
    simp
  | opened p hp => exact absurd closed (not_closed_opened hp)

theorem joinLines_of_quiet (hp : IsQuiet p) (last : ∀ c ∈ p.getLast?, isBlank c = false) :
    joinLines .code (p ++ s) = p ++ joinLines .code s := by
  obtain ⟨settled, -, closed⟩ := hp
  have lines := joinLines_eq_self_iff.mp settled.lines
  clear settled
  induction p using induction_on_pieces with
  | nil => rfl
  | code c p hc ih =>
    rw [closed_cons hc] at closed
    rw [pieces_cons hc, List.mem_cons, not_or] at lines
    have newline : c ≠ '\n' := fun h => lines.1 (by rw [h])
    have carriage : c = '\r' → (p ++ s).head? ≠ some '\n' := by
      rintro rfl
      cases p with
      | nil => exact absurd (last '\r' rfl) (by decide)
      | cons d p =>
        rintro ⟨⟩
        exact lines.2 (by rw [pieces_cons (by decide)]; exact List.mem_cons_self ..)
    rw [List.cons_append, joinLines_cons hc newline carriage, ih (forall_last [c] last) closed lines.2]
    rfl
  | literal body p hb ih =>
    rw [closed_literal hb] at closed
    rw [pieces_literal hb, List.mem_cons, not_or] at lines
    rw [literal_eq] at last
    rw [List.cons_append, List.append_assoc, List.cons_append,
      keepsLiterals_joinLines.literal hb, ih (forall_last _ last) closed lines.2]
    simp
  | opened p hp => exact absurd closed (not_closed_opened hp)

theorem fragments_of_quiet (hp : IsQuiet p) (h : fragments false s = f :: fs) :
    fragments false (p ++ s) = (p ++ f) :: fs := by
  obtain ⟨settled, -, closed⟩ := hp
  have undivided := settled.undivided
  clear settled
  induction p using induction_on_pieces with
  | nil => exact h
  | code c p hc ih =>
    rw [closed_cons hc] at closed
    rw [undivided_cons hc] at undivided
    exact fragments_cons hc undivided.1 (ih closed undivided.2)
  | literal body p hb ih =>
    rw [closed_literal hb] at closed
    rw [undivided_literal hb] at undivided
    have rest := fragments_literal hb (ih closed undivided)
    simpa using rest
  | opened p hp => exact absurd closed (not_closed_opened hp)

/-! ### Comments -/

theorem dropComments_lineComment (s : List Char) :
    dropComments .lineComment s = dropComments .code (s.dropWhile (· ≠ '\n')) := by
  induction s with
  | nil => simp [dropComments]
  | cons c s ih =>
    by_cases hc : c = '\n'
    · subst hc
      simp [dropComments]
    · rw [List.dropWhile_cons_of_pos (by simpa using hc), ← ih, dropComments, if_neg hc]

theorem dropComments_blockComment (h : Token.afterComment s = some r) :
    dropComments .blockComment s = dropComments .code r := by
  fun_induction Token.afterComment s with
  | case1 => cases h
  | case2 s =>
    cases h
    rw [dropComments]
  | case3 c s other ih =>
    rw [← ih h, dropComments.eq_def]
    split <;> simp_all

theorem step_blockComment (s : List Char) : step '/' ('*' :: s) =
    match Token.afterComment s with
    | none => .error .openComment
    | some r => .ok (none, r) := by
  rfl

theorem step_lineComment (s : List Char) :
    step '-' ('-' :: s) = .ok (none, s.dropWhile (· ≠ '\n')) := by
  rfl

/-- What the scan passes over without a token is a blank, or a comment that the clean-up takes away. -/
theorem gap_of_step (h : step c s = .ok (none, r)) : isBlank c ∧ r = s ∨
    isBlank c = false ∧ dropComments .code (c :: s) = dropComments .code r := by
  rcases (Token.shows_step c s).none r h with h | ⟨rfl, hs⟩ | ⟨rfl, hs⟩
  · exact .inl h
  · obtain ⟨s, rfl⟩ := List.head?_eq_some_iff.mp hs
    rw [step_lineComment] at h
    cases h
    exact .inr ⟨by decide, by rw [← dropComments_lineComment, dropComments]⟩
  · obtain ⟨s, rfl⟩ := List.head?_eq_some_iff.mp hs
    have found : Token.afterComment s = some r := by
      rw [step_blockComment] at h
      cases hs : Token.afterComment s with
      | none =>
        rw [hs] at h
        cases h
      | some r' =>
        rw [hs] at h
        cases h
        rfl
    exact .inr ⟨by decide, by rw [dropComments, dropComments_blockComment found]⟩

/-! ### Texts of the same tokens -/

/-- The texts hold the lexemes, one text up to each semicolon and one behind the last: each token in its
own characters, blanks for the others, and some right behind a token that some others follow.  The
first text is `x`, the later ones are `xs`. -/
inductive Renders : List Lexeme → List Char → List (List Char) → Prop where
  | nil : Renders [] [] []
  | semicolon {t : List Char} {ls x xs} : Renders ls x xs →
      Renders (⟨some .semicolon, t⟩ :: ls) [] (x :: xs)
  | token {l : Lexeme} {ls x xs} : l.isKept → l.text ≠ [] → l.Stays ls →
      (∀ m ∈ ls.head?, m.token = none → ∀ c ∈ x.head?, isBlank c) → Renders ls x xs →
      Renders (l :: ls) (l.text ++ x) xs
  | gap {l : Lexeme} {ls : List Lexeme} {b x : List Char} {xs} : l.token = none →
      (∀ c ∈ b, isBlank c) → Renders ls x xs → Renders (l :: ls) (b ++ x) xs

/-- A map of texts that keeps what no part of the clean-up changes, and maps blanks to blanks. -/
structure KeepsTokens (f : List Char → List Char) : Prop where
  nil : f [] = []
  quiet {p : List Char} : IsQuiet p → p ≠ [] → (∀ c ∈ p.getLast?, isBlank c = false) →
    ∀ x, f (p ++ x) = p ++ f x
  blank {c : Char} : isBlank c → ∀ x, ∃ b, (∀ d ∈ b, isBlank d) ∧ f (c :: x) = b ++ f x
  head {x : List Char} : (∀ c ∈ x.head?, isBlank c) → ∀ c ∈ (f x).head?, isBlank c

theorem KeepsTokens.blanks {g : List Char → List Char} (hg : KeepsTokens g)
    (hb : ∀ c ∈ b, isBlank c) (x : List Char) :
    ∃ b', (∀ c ∈ b', isBlank c) ∧ g (b ++ x) = b' ++ g x := by
  induction b with
  | nil => exact ⟨[], by simp, rfl⟩
  | cons c b ih =>
    rw [List.forall_mem_cons] at hb
    obtain ⟨b₁, h₁, e₁⟩ := hg.blank hb.1 (b ++ x)
    obtain ⟨b₂, h₂, e₂⟩ := ih hb.2
    refine ⟨b₁ ++ b₂, List.forall_mem_append.mpr ⟨h₁, h₂⟩, ?_⟩
    rw [List.cons_append, e₁, e₂, List.append_assoc]

theorem Renders.map {g : List Char → List Char} (hg : KeepsTokens g) (h : Renders ls x xs) :
    Renders ls (g x) (xs.map g) := by
  induction h with
  | nil =>
    rw [hg.nil]
    exact .nil
  | semicolon _ ih =>
    rw [hg.nil]
    exact .semicolon ih
  | token hl hne stays hgap _ ih =>
    rw [hg.quiet stays.quiet hne (trim_ends stays.trimmed).2]
    exact .token hl hne stays (fun m hm hnone => hg.head (hgap m hm hnone)) ih
  | gap hl hb _ ih =>
    obtain ⟨b', hb', e⟩ := hg.blanks hb _
    rw [e]
    exact .gap hl hb' ih

theorem keepsTokens_joinLines : KeepsTokens (joinLines .code) where
  nil := by simp [joinLines]
  quiet hp _ last x := joinLines_of_quiet hp last
  blank hc x := by
    obtain ⟨d, hd, h | ⟨h, -⟩⟩ := isStage_joinLines.blank hc x
    · exact ⟨[d], by simpa using hd, h⟩
    · exact ⟨[], by simp, h⟩
  head {x} hx := by
    cases x with
    | nil => simp [joinLines]
    | cons c x =>
      obtain ⟨d, hd, h | ⟨h, hs⟩⟩ := isStage_joinLines.blank (hx c rfl) x
      · simpa [h] using hd
      · simpa [h, hs] using hd

theorem keepsTokens_joinSemicolons : KeepsTokens (joinSemicolons false .code) where
  nil := by simp [joinSemicolons]
  quiet hp _ _ x := joinSemicolons_append_undivided hp.closed hp.settled.undivided x
  blank {c} hc x := by
    obtain ⟨hq, hs, -⟩ := isCalm_iff.mp (isCalm_of_isBlank hc)
    exact ⟨[c], by simpa using hc, joinSemicolons_cons hq hs⟩
  head {x} hx := by
    cases x with
    | nil => simp [joinSemicolons]
    | cons c x =>
      obtain ⟨hq, hs, -⟩ := isCalm_iff.mp (isCalm_of_isBlank (hx c rfl))
      rw [joinSemicolons_cons hq hs]
      exact hx

theorem keepsTokens_trimEnd : KeepsTokens trimEnd where
  nil := rfl
  quiet _ _ last x := trimEnd_append last
  blank {c} hc x := by
    have unfolded : trimEnd (c :: x) = ((x.reverse ++ [c]).dropWhile isBlank).reverse := by
      rw [trimEnd, List.reverse_cons]
    rw [unfolded, List.dropWhile_append]
    split
    · rename_i h
      refine ⟨[], by simp, ?_⟩
      rw [trimEnd, List.isEmpty_iff.mp h, List.dropWhile_cons_of_pos hc]
      rfl
    · exact ⟨[c], by simpa using hc, by rw [List.reverse_append]; rfl⟩
  head {x} hx := by
    obtain ⟨t, ht⟩ := trimEnd_isPrefix x
    cases h : trimEnd x with
    | nil => simp
    | cons c y =>
      rw [← ht, h] at hx
      exact hx

/-- Without the blanks in front, too, the texts hold the lexemes. -/
theorem Renders.trimStart (h : Renders ls x xs) : Renders ls x (xs.map trimStart) ∧
    Renders ls (trimStart x) (xs.map trimStart) := by
  -- the first text is trimmed where it starts a statement, and kept where it goes on in one
  induction h with
  | nil => exact ⟨.nil, .nil⟩
  | semicolon _ ih => exact ⟨.semicolon ih.2, .semicolon ih.2⟩
  | @token l ls x xs hl hne stays hgap _ ih =>
    have same : Text.trimStart (l.text ++ x) = l.text ++ x := by
      have head := (trim_ends stays.trimmed).1
      obtain ⟨c, p, hp⟩ := List.exists_cons_of_ne_nil hne
      rw [hp] at head ⊢
      exact List.dropWhile_cons_of_neg (by simp [head c rfl])
    rw [same]
    exact ⟨.token hl hne stays hgap ih.1, .token hl hne stays hgap ih.1⟩
  | @gap l ls b x xs hl hb _ ih =>
    rw [Text.trimStart_blanks_append hb]
    exact ⟨.gap hl hb ih.1, .gap (b := []) hl (by simp) ih.2⟩

theorem Renders.statement (h : Renders ls x xs) : Renders ls (statement x) (xs.map statement) := by
  have joined := (h.map keepsTokens_joinLines).map keepsTokens_joinSemicolons
  have trimmed := joined.trimStart.2.map keepsTokens_trimEnd
  rw [List.map_map, List.map_map, List.map_map] at trimmed
  exact trimmed

/-! ### The fragments of a text -/

/-- The first lexeme of a text, with the rest behind it: a blank, a comment that the clean-up takes
away, a semicolon, or a token that stands in a statement. -/
inductive Cut : Lexeme → List Char → List Char → Prop where
  | blank {c : Char} {r : List Char} : isBlank c → Cut ⟨none, [c]⟩ (c :: r) r
  | comment {p s r : List Char} : isComment ⟨none, p⟩ →
      dropComments .code s = dropComments .code r → Cut ⟨none, p⟩ s r
  | semicolon {r : List Char} : Cut ⟨some .semicolon, [';']⟩ (';' :: r) r
  | token {l : Lexeme} {r : List Char} : l.isKept → l.text ≠ [] → Cut l (l.text ++ r) r

theorem cut_of_lexemes (h : lexemes s = .ok (l :: ls)) : ∃ r, Cut l s r ∧ lexemes r = .ok ls := by
  obtain ⟨c, p, r, htext, rfl, hstep, hr⟩ := exists_of_lexemes h
  obtain ⟨t, text⟩ := l
  dsimp only at htext hstep ⊢
  subst htext
  refine ⟨r, ?_, hr⟩
  cases t with
  | none =>
    rcases gap_of_step hstep with ⟨hc, hp⟩ | ⟨hc, hdrop⟩
    · obtain rfl : p = [] := by simpa using hp
      exact .blank hc
    · exact .comment (by simp [isComment, hc]) hdrop
  | some t =>
    by_cases ht : t = .semicolon
    · subst ht
      obtain ⟨rfl, hp⟩ := step_eq_semicolon hstep
      obtain rfl : p = [] := by simpa using hp
      exact .semicolon
    · exact .token (by simpa [isKept] using ht) (List.cons_ne_nil c p)

theorem fragments_blank (hc : isBlank c) (h : fragments false (dropComments .code r) = f :: fs) :
    fragments false (dropComments .code (c :: r)) = (c :: f) :: fs := by
  obtain ⟨hq, hs, hd, hsl⟩ := isCalm_iff.mp (isCalm_of_isBlank hc)
  rw [dropComments_cons hq hsl hd, fragments_cons hq hs h]

theorem fragments_behind_semicolon (r : List Char) :
    fragments false (dropComments .code (';' :: r)) =
      [] :: fragments false (dropComments .code r) := by
  rw [dropComments_cons (by decide) (by decide) (by decide), fragments_semicolon]

/-- Where a blank, a semicolon or the end stands behind the comments at the front, the first fragment
starts with a blank, if it is not empty. -/
theorem isBlank_of_parted (h : lexemes s = .ok ls)
    (hls : ∀ m ∈ (ls.dropWhile isComment).head?, m.isKept = false)
    (hf : fragments false (dropComments .code s) = f :: fs) : ∀ c ∈ f.head?, isBlank c := by
  induction ls generalizing s with
  | nil =>
    rw [eq_nil_of_lexemes h, dropComments, fragments] at hf
    · cases hf
      simp
  | cons l ls ih =>
    obtain ⟨r, cut, hr⟩ := cut_of_lexemes h
    cases cut with
    | blank hc =>
      obtain ⟨g, gs, hg⟩ := exists_fragments (dropComments .code r)
      rw [fragments_blank hc hg] at hf
      cases hf
      simpa using hc
    | comment comment hdrop =>
      rw [List.dropWhile_cons_of_pos comment] at hls
      rw [hdrop] at hf
      exact ih hr hls hf
    | semicolon =>
      rw [fragments_behind_semicolon] at hf
      cases hf
      simp
    | token kept =>
      rw [List.dropWhile_cons_of_neg (by simp [isComment_eq_false kept])] at hls
      rw [hls l rfl] at kept
      cases kept

namespace Lexeme.Stays

/-- No comment opens where the token ends. -/
theorem not_opensComment (h : l.Stays ls) (hr : lexemes r = .ok ls) :
    ∀ c ∈ l.text.getLast?, ¬OpensComment c r := by
  intro c hc
  cases ls with
  | nil =>
    rw [eq_nil_of_lexemes hr]
    simp [OpensComment]
  | cons m ls =>
    obtain ⟨d, q, r, hm, rfl, -⟩ := exists_of_lexemes hr
    have border := h.border c hc m rfl
    rwa [hm] at border ⊢

/-- Where something else than a token follows, a blank does so in the fragment. -/
theorem isBlank_behind (h : l.Stays ls) (hr : lexemes r = .ok ls)
    (hf : fragments false (dropComments .code r) = f :: fs) :
    ∀ m ∈ ls.head?, m.token = none → ∀ c ∈ f.head?, isBlank c := by
  intro m hm gap
  refine isBlank_of_parted hr ?_ hf
  by_cases comment : isComment m
  · exact h.parted ⟨m, hm, comment⟩
  · obtain ⟨ls, rfl⟩ := List.head?_eq_some_iff.mp hm
    rw [List.dropWhile_cons_of_neg comment]
    rintro _ ⟨⟩
    simp [isKept, gap]

end Lexeme.Stays

/-- The fragments of a text without its comments hold its lexemes. -/
theorem renders_fragments (h : lexemes s = .ok ls) (ha : Agrees ls) : ∃ f fs,
    fragments false (dropComments .code s) = f :: fs ∧ Renders ls f fs := by
  -- each lexeme is put in front of the first fragment of the text behind it
  induction ls generalizing s with
  | nil =>
    rw [eq_nil_of_lexemes h]
    exact ⟨[], [], by simp [dropComments, fragments], .nil⟩
  | cons l ls ih =>
    obtain ⟨stays, ha⟩ := ha
    obtain ⟨r, cut, hr⟩ := cut_of_lexemes h
    obtain ⟨f, fs, hf, hrest⟩ := ih hr ha
    cases cut with
    | @blank c _ hc =>
      exact ⟨[c] ++ f, fs, fragments_blank hc hf, .gap rfl (by simpa using hc) hrest⟩
    | comment _ hdrop => exact ⟨[] ++ f, fs, hdrop ▸ hf, .gap rfl (by simp) hrest⟩
    | semicolon => exact ⟨[], f :: fs, hf ▸ fragments_behind_semicolon r, .semicolon hrest⟩
    | token kept solid =>
      have stays := stays kept
      refine ⟨l.text ++ f, fs, ?_, .token kept solid stays (stays.isBlank_behind hr hf) hrest⟩
      rw [dropComments_of_quiet stays.quiet (stays.not_opensComment hr),
        fragments_of_quiet stays.quiet hf]

/-! ### Reading the texts -/

/-- The text is read as the tokens, and is blank when there are none. -/
structure ScansTo (x : List Char) (ts : List Token) : Prop where
  scan : scanChars x = .ok ts
  blank : ts = [] → ∀ c ∈ x, isBlank c

theorem scansTo_nil : ScansTo [] [] := ⟨Token.scanChars_nil, by simp⟩

/-- The text of a token that comes first comes first. -/
theorem Renders.exists_eq_append {m : Lexeme} (h : Renders (m :: ls) x xs) (hm : m.isKept) :
    m.Stays ls ∧ ∃ y, x = m.text ++ y := by
  cases h with
  | semicolon => cases hm
  | token _ _ stays => exact ⟨stays, _, rfl⟩
  | gap hnone =>
    rw [isKept, hnone] at hm
    cases hm

/-- The texts that hold lexemes are read as the tokens between semicolons. -/
theorem scansTo_of_renders (h : Renders ls x xs) (hs : lexemes s = .ok ls) : ∃ ts tss,
    (tokens ls).splitOn .semicolon = ts :: tss ∧ ScansTo x ts ∧ List.Forall₂ ScansTo xs tss ∧
      ((∀ m ∈ ls.head?, m.token = none → ∀ c ∈ x.head?, isBlank c) → Resumes s x) := by
  induction h generalizing s with
  | nil =>
    rw [eq_nil_of_lexemes hs]
    exact ⟨[], [], rfl, scansTo_nil, .nil, fun _ => .of_stops nofun fun _ => rfl⟩
  | @semicolon t ls x xs _ ih =>
    obtain ⟨c, p, r, -, rfl, -, hr⟩ := exists_of_lexemes hs
    obtain ⟨ts, tss, split, hx, hxs, -⟩ := ih hr
    refine ⟨[], ts :: tss, ?_, scansTo_nil, .cons hx hxs, fun _ => .of_stops nofun fun _ => rfl⟩
    rw [tokens_cons_some rfl, List.splitOn_cons_eq_if_modifyHead, if_pos (by decide), split]
  | @token l ls x xs hl hne stays hgap hrest ih =>
    obtain ⟨c, p, r, htext, rfl, hstep, hr⟩ := exists_of_lexemes hs
    obtain ⟨ts, tss, split, hx, hxs, hresumes⟩ := ih hr
    obtain ⟨t, ht, hsemi⟩ := Option.any_eq_true _ _ |>.mp hl
    have resumes := hresumes hgap
    -- a token that looks far is followed by one that stays, so the same character comes next
    have near (far : looksFar t) : SameNext r x := by
      obtain ⟨m, hm, kept⟩ := stays.near ⟨t, ht, far⟩
      obtain ⟨ms, rfl⟩ := List.head?_eq_some_iff.mp hm
      obtain ⟨stays', y, rfl⟩ := hrest.exists_eq_append kept
      obtain ⟨d, q, r, hd, rfl, -⟩ := exists_of_lexemes hr
      refine ⟨d, (trim_ends stays'.trimmed).1 d (by rw [hd]; rfl), ?_, ?_⟩ <;> rw [hd] <;> rfl
    rw [ht] at hstep
    obtain ⟨p', hp, again⟩ := Token.localStep_step c _ _ _ hstep _ resumes near
    obtain rfl := List.append_cancel_right hp
    have read := Token.reads_of_step again
    rw [Token.Reads, hx.scan] at read
    refine ⟨t :: ts, tss, ?_, ⟨?_, fun none => absurd none (List.cons_ne_nil t ts)⟩, hxs,
      fun _ => resumes.append l.text⟩
    · have other : (t == .semicolon) = false := by simpa using hsemi
      rw [tokens_cons_some ht, List.splitOn_cons_eq_if_modifyHead, other, split]
      rfl
    · rw [htext, List.cons_append, read]
      rfl
  | @gap l ls b x xs hl hb _ ih =>
    obtain ⟨c, p, r, htext, rfl, -, hr⟩ := exists_of_lexemes hs
    obtain ⟨ts, tss, split, hx, hxs, -⟩ := ih hr
    refine ⟨ts, tss, ?_, ⟨?_, ?_⟩, hxs, fun head => ?_⟩
    · rw [tokens_cons_none hl, split]
    · have := Token.reads_blanks (s := x) hb
      rw [Token.Reads, hx.scan] at this
      exact this
    · exact fun none => List.forall_mem_append.mpr ⟨hb, hx.blank none⟩
    · refine .of_stops (fun d hd => ?_) fun empty => ?_
      · simp [Token.isStop, head l rfl hl d hd]
      · rw [htext] at empty
        cases empty

/-! ### Sentences -/

/-- The tokens between semicolons, where there are any. -/
def sentences (ts : List Token) : List (List Token) := (ts.splitOn .semicolon).filter (· ≠ [])

theorem forall₂_filled {tss : List (List Token)} (h : List.Forall₂ ScansTo xs tss)
    (trimmed : ∀ x ∈ xs, trim x = x) :
    List.Forall₂ (fun x ts => scanChars x = .ok ts) (filled xs) (tss.filter (· ≠ [])) := by
  induction h with
  | nil => exact .nil
  | @cons x ts xs tss hx _ ih =>
    rw [List.forall_mem_cons] at trimmed
    have empty : x = [] ↔ ts = [] := by
      constructor
      · rintro rfl
        exact (Except.ok.inj (Token.scanChars_nil.symm.trans hx.scan)).symm
      · intro none
        rw [← trimmed.1, trim_blanks (hx.blank none)]
    rw [filled_cons, List.filter_cons]
    by_cases none : x = []
    · simpa [none, empty.mp none] using ih trimmed.2
    · have some : ts ≠ [] := mt empty.mpr none
      rw [if_neg none, if_pos (by simpa using some)]
      exact .cons hx.scan (ih trimmed.2)

/-- Where the clean-up leaves every token of a text as it is, the statements are read as the tokens of
the text between its semicolons. -/
theorem mapM_scan_sanitize {sql : String} (h : lexemes sql.toList = .ok ls) (ha : Agrees ls) :
    (sanitize true sql).mapM Token.scan = .ok (sentences (tokens ls)) := by
  obtain ⟨f, fs, hf, hr⟩ := renders_fragments h ha
  obtain ⟨ts, tss, split, hx, hxs, -⟩ := scansTo_of_renders hr.statement h
  have trimmed : ∀ x ∈ statement f :: fs.map statement, trim x = x := by
    rw [List.forall_mem_cons, List.forall_mem_map]
    exact ⟨trim_trim _, fun x _ => trim_trim _⟩
  have read := forall₂_filled (.cons hx hxs) trimmed
  have texts : sanitize true sql = (filled (statement f :: fs.map statement)).map String.ofList := by
    rw [sanitize_eq, stripped, if_pos rfl, statements_eq, hf, List.map_cons]
  rw [texts, List.mapM_map, sentences, split]
  refine Outcome.mapM_of_forall₂ (read.imp fun x ts hx => ?_)
  rwa [Function.comp_apply, Token.scan, String.toList_ofList]

/-! ### Names in double quotes -/

/-- The name that a token is in double quotes. -/
def quotedName? : Token → Option String
  | .word v (some '"') => some v
  | _ => none

/-- The names in double quotes among tokens, in order. -/
def quotedNames (ts : List Token) : List String := ts.filterMap quotedName?

theorem quotedNames_sentences (ts : List Token) :
    (sentences ts).flatMap quotedNames = quotedNames ts := by
  have filled (tss : List (List Token)) :
      (tss.filter (· ≠ [])).flatMap quotedNames = tss.flatMap quotedNames := by
    induction tss with
    | nil => rfl
    | cons u tss ih => cases u <;> simp_all [quotedNames]
  rw [sentences, filled]
  induction ts with
  | nil => rfl
  | cons t ts ih =>
    obtain ⟨u, us, split⟩ := List.exists_cons_of_ne_nil (List.splitOn_ne_nil Token.semicolon ts)
    rw [split, List.flatMap_cons] at ih
    rw [List.splitOn_cons_eq_if_modifyHead, split]
    by_cases ht : t = .semicolon
    · subst ht
      rw [if_pos (by decide), List.flatMap_cons, List.flatMap_cons, ih]
      rfl
    · rw [if_neg (by simpa using ht), List.modifyHead_cons, List.flatMap_cons, quotedNames,
        quotedNames, List.filterMap_cons, List.filterMap_cons, ← quotedNames, ← quotedNames, ← ih]
      cases quotedName? t <;> rfl

/-- Where the clean-up leaves every token of a text as it is, the text and its statements are read, and
the same names in double quotes are read in both, in the same order. -/
theorem quotedNames_sanitize {sql : String} {ls : List Lexeme} (h : lexemes sql.toList = .ok ls)
    (ha : Agrees ls) : ∃ ts tss, Token.scan sql = .ok ts ∧
      (sanitize true sql).mapM Token.scan = .ok tss ∧ tss = sentences ts ∧
      tss.flatMap quotedNames = quotedNames ts := by
  refine ⟨tokens ls, _, ?_, mapM_scan_sanitize h ha, rfl, quotedNames_sentences _⟩
  rw [Token.scan, scanChars_eq, h]
  rfl

/-- Names with a blank and with a period, a comment with both kinds of quotes, a literal with a semicolon
and the sign of a comment. -/
theorem quotedNames_sanitize_orders : ∃ ls,
    lexemes "SELECT \"Order Id\", tags[1] -- it's \"old\"\nFROM \"a.b\"; SET note = ';--'".toList =
      .ok ls ∧ Agrees ls ∧ ∃ ts tss,
        Token.scan "SELECT \"Order Id\", tags[1] -- it's \"old\"\nFROM \"a.b\"; SET note = ';--'" =
          .ok ts ∧
        (sanitize true
          "SELECT \"Order Id\", tags[1] -- it's \"old\"\nFROM \"a.b\"; SET note = ';--'").mapM
            Token.scan = .ok tss ∧
        tss = sentences ts ∧ tss.flatMap quotedNames = quotedNames ts := by
  have agrees : ∃ ls ∈ (lexemes
      "SELECT \"Order Id\", tags[1] -- it's \"old\"\nFROM \"a.b\"; SET note = ';--'".toList).toOption,
      Agrees ls := by
    decide +kernel
  obtain ⟨_, found, ha⟩ := agrees
  obtain ⟨ls, h, rfl⟩ := Outcome.exists_ok_of_map_toOption (f := id) (by simpa using found)
  exact ⟨ls, h, ha, quotedNames_sanitize h ha⟩

/-- A name with the sign of a comment loses its end and its text cannot be read, one with a semicolon is
cut in two, one with a line end changes, and two names with a comment between them become one. -/
theorem quotedNames_sanitize_ne :
    ((Token.scan "SELECT \"a--b\" FROM t").map quotedNames = .ok ["a--b"] ∧
      sanitize true "SELECT \"a--b\" FROM t" = ["SELECT \"a"] ∧
      Token.scan "SELECT \"a" = .error (.openName '"')) ∧
    ((Token.scan "SELECT \"a;b\" FROM t").map quotedNames = .ok ["a;b"] ∧
      sanitize true "SELECT \"a;b\" FROM t" = ["SELECT \"a", "b\" FROM t"]) ∧
    ((Token.scan "SELECT \"a\nb\" FROM t").map quotedNames = .ok ["a\nb"] ∧
      ((sanitize true "SELECT \"a\nb\" FROM t").mapM Token.scan).map (·.flatMap quotedNames) =
        .ok ["a b"]) ∧
    ((Token.scan "SELECT \"a\"/**/\"b\"").map quotedNames = .ok ["a", "b"] ∧
      ((sanitize true "SELECT \"a\"/**/\"b\"").mapM Token.scan).map (·.flatMap quotedNames) =
        .ok ["a\"b"]) := by
  decide +kernel

end EtlFlow.Sql
