import EtlFlow.Proofs.Sql.Quiet
import EtlFlow.Proofs.Sql.Surface
import EtlFlow.Proofs.Warehouse.Header
import EtlFlow.Sql.Select.Projection
/-!
# Keywords and commas at the top level

The scans for a keyword and for commas look at the top level only, with a level of their own.  Over a text
with a surface the level comes back to where it was, and what stands in parentheses or quotes is never at
the top (`Buried`), so a scan finds in the text what is on its surface (`splitKeyword?_surface`,
`splitCommas_surface`).
-/

namespace EtlFlow.Sql.Select

open Text (isBlank trimStart trimEnd trim exists_trim trim_blanks_append trim_append_blanks)

variable {w a b s r t : List Char} {o p : List (Option Char)} {c : Char} {joined : Bool}
variable {l l' : Level}

/-! ### Words -/

/-- The text is the word, in any case. -/
def Says (word : String) (w : List Char) : Prop := w.map Char.toLower = word.toList

instance (word : String) (w : List Char) : Decidable (Says word w) :=
  inferInstanceAs (Decidable (_ = _))

/-- The word stands on a surface with no character of an identifier next to it.  `joined` says that an
identifier runs up to the surface. -/
def HasWord (word : String) (joined : Bool) (o : List (Option Char)) : Prop :=
  ∃ p w q, o = p ++ (w.map some ++ q) ∧ Says word w ∧ (joined = true → p ≠ []) ∧
    (∀ c, p.getLast? = some (some c) → inIdentifier c = false) ∧
    ∀ c, q.head? = some (some c) → inIdentifier c = false

/-- The text starts with the word and no character of an identifier behind it. -/
def StartsWith (word : String) (s : List Char) : Prop :=
  ∃ w r, s = w ++ r ∧ Says word w ∧ ∀ c ∈ r.head?, inIdentifier c = false

/-- The keywords around expressions. -/
def aroundExpressions : List String := ["select", "distinct", "all", "from"]

variable {k : String}

theorem inIdentifier_of_toLower (h : inIdentifier c.toLower = true) : inIdentifier c = true := by
  unfold Char.toLower at h
  split at h
  · next hc =>
      have upper : c.isUpper = true := by
        delta Char.isUpper
        simpa using hc
      have letter : c.isAlphanum = true := by
        change (c.isUpper || c.isLower || c.isDigit) = true
        rw [upper]
        rfl
      unfold inIdentifier
      rw [letter]
      rfl
  · exact h

theorem Says.inIdentifier (hk : k ∈ aroundExpressions) (h : Says k w) :
    ∀ c ∈ w, inIdentifier c = true := by
  intro c hc
  have letters : ∀ k ∈ aroundExpressions, ∀ d ∈ k.toList, Select.inIdentifier d = true := by
    decide
  refine inIdentifier_of_toLower (letters k hk _ ?_)
  rw [← h]
  exact List.mem_map_of_mem hc

theorem Says.ne_nil (hk : k ∈ aroundExpressions) (h : Says k w) : w ≠ [] := by
  rintro rfl
  have filled : ∀ k ∈ aroundExpressions, k.toList ≠ [] := by decide
  exact filled k hk h.symm

theorem inIdentifier_eq_false_of_mem_brackets (h : c ∈ brackets) : inIdentifier c = false := by
  have table : ∀ d ∈ brackets, inIdentifier d = false := by decide
  exact table c h

theorem not_mem_brackets_of_inIdentifier (h : inIdentifier c = true) : c ∉ brackets := by
  intro hc
  rw [inIdentifier_eq_false_of_mem_brackets hc] at h
  cases h

/-- Identifiers are ASCII. -/
theorem toNat_lt_of_inIdentifier (h : inIdentifier c = true) : c.toNat < 128 := by
  unfold inIdentifier at h
  rw [Bool.or_eq_true, Bool.or_eq_true, beq_iff_eq, beq_iff_eq] at h
  rcases h with (h | rfl) | rfl
  · delta Char.isAlphanum Char.isAlpha Char.isUpper Char.isLower Char.isDigit at h
    simp only [Bool.or_eq_true, Bool.and_eq_true, decide_eq_true_eq, UInt32.le_iff_toNat_le,
      ge_iff_le] at h
    change ((65 ≤ c.toNat ∧ c.toNat ≤ 90) ∨ (97 ≤ c.toNat ∧ c.toNat ≤ 122)) ∨
      (48 ≤ c.toNat ∧ c.toNat ≤ 57) at h
    omega
  · decide
  · decide

theorem inIdentifier_eq_false_of_isBlank (h : isBlank c = true) : inIdentifier c = false := by
  rw [← Bool.not_eq_true]
  intro hc
  have table := Token.forall_ascii (p := fun c => isBlank c = true → inIdentifier c = false)
    (by decide +kernel) (toNat_lt_of_inIdentifier hc) h
  rw [hc] at table
  cases table

/-- Blanks end an identifier, and so does what stands in their place. -/
theorem delimits_blanks_append (hb : ∀ c ∈ b, isBlank c)
    (hs : b = [] → ∀ c ∈ s.head?, inIdentifier c = false) :
    ∀ c ∈ (b ++ s).head?, inIdentifier c = false := by
  cases b with
  | nil => exact hs rfl
  | cons d b =>
      intro c hc
      cases hc
      exact inIdentifier_eq_false_of_isBlank (hb d List.mem_cons_self)

/-- The keyword is found at the front of a text that starts with it. -/
theorem afterKeyword?_eq_some_iff : afterKeyword? k.toList s = some r ↔
    ∃ w, s = w ++ r ∧ Says k w ∧ ∀ c ∈ r.head?, inIdentifier c = false := by
  have behind : (!r.head?.any inIdentifier) = true ↔ ∀ c ∈ r.head?, inIdentifier c = false := by
    cases r with
    | nil => simp
    | cons c r => simp
  unfold afterKeyword? Text.dropAsciiWord?
  rw [Option.filter_eq_some_iff, Text.dropFolded?_eq_some_iff, behind]
  constructor
  · rintro ⟨⟨w, hs, hw⟩, hr⟩
    exact ⟨w, hs, hw, hr⟩
  · rintro ⟨w, hs, hw, hr⟩
    exact ⟨⟨w, hs, hw⟩, hr⟩

theorem afterKeyword?_eq_none_iff : afterKeyword? k.toList s = none ↔ ¬StartsWith k s := by
  rw [Option.eq_none_iff_forall_ne_some]
  unfold StartsWith
  constructor
  · rintro h ⟨w, r, hs, hw, hr⟩
    exact h r (afterKeyword?_eq_some_iff.mpr ⟨w, hs, hw, hr⟩)
  · intro h r hr
    obtain ⟨w, hs, hw, hr⟩ := afterKeyword?_eq_some_iff.mp hr
    exact h ⟨w, r, hs, hw, hr⟩

/-- What stands behind a delimiter does not matter for how a text starts. -/
theorem startsWith_append (hk : k ∈ aroundExpressions)
    (ht : ∀ c ∈ t.head?, inIdentifier c = false) : StartsWith k (s ++ t) ↔ StartsWith k s := by
  constructor
  · rintro ⟨w, r, h, hw, hr⟩
    rcases List.append_eq_append_iff.mp h with ⟨a, rfl, rfl⟩ | ⟨a, rfl, rfl⟩
    · cases a with
      | nil => exact ⟨s, [], (List.append_nil s).symm, by simpa using hw, by simp⟩
      | cons c a =>
          have letter := hw.inIdentifier hk c (by simp)
          rw [ht c rfl] at letter
          cases letter
    · refine ⟨w, a, rfl, hw, ?_⟩
      intro c hc
      exact hr c (List.mem_head?_append_of_mem_head? hc)
  · rintro ⟨w, r, rfl, hw, hr⟩
    refine ⟨w, r ++ t, List.append_assoc w r t, hw, ?_⟩
    intro c hc
    cases r with
    | nil => exact ht c hc
    | cons d r => exact hr c hc

/-! ### Words on a surface -/

theorem not_hasWord_nil (hk : k ∈ aroundExpressions) : ¬HasWord k joined [] := by
  rintro ⟨p, w, q, h, hw, -⟩
  have hw := hw.ne_nil hk
  simp_all

/-- The letters of a word that stands on a surface are there. -/
theorem HasWord.exists_mem {d : Char} (h : HasWord k joined o) (hd : d ∈ k.toList) :
    ∃ c, some c ∈ o ∧ c.toLower = d := by
  obtain ⟨p, w, q, rfl, hw, -⟩ := h
  rw [← hw] at hd
  obtain ⟨c, hc, hcd⟩ := List.mem_map.mp hd
  exact ⟨c, by simp [hc], hcd⟩

/-- A word behind the first character of a surface is a word of it. -/
theorem HasWord.cons {x : Option Char} (h : HasWord k (x.any inIdentifier) o) :
    HasWord k joined (x :: o) := by
  obtain ⟨p, w, q, rfl, hw, hjoined, hp, hq⟩ := h
  refine ⟨x :: p, w, q, rfl, hw, fun _ => List.cons_ne_nil x p, ?_, hq⟩
  intro c hc
  cases p with
  | nil =>
      obtain rfl : x = some c := by simpa using hc
      rw [← Bool.not_eq_true]
      intro hident
      exact hjoined hident rfl
  | cons y p => exact hp c (by rwa [List.getLast?_cons_cons] at hc)

/-- A delimiter parts a word of a surface from the rest of it. -/
theorem HasWord.of_append {x : Option Char} (hk : k ∈ aroundExpressions)
    (hx : x.any inIdentifier = false) (h : HasWord k joined (p ++ x :: o)) :
    HasWord k joined p ∨ HasWord k false o := by
  obtain ⟨p', w, q, h, hw, hjoined, hp', hq⟩ := h
  have hmem : x ∉ w.map some := by
    intro hmem
    obtain ⟨c, hc, rfl⟩ := List.mem_map.mp hmem
    have := hw.inIdentifier hk c hc
    rw [Option.any_some, this] at hx
    cases hx
  rcases List.append_eq_append_iff.mp h with ⟨a, rfl, ha⟩ | ⟨a, rfl, ha⟩
  · cases a with
    | nil =>
        obtain ⟨c, w, rfl⟩ := List.exists_cons_of_ne_nil (hw.ne_nil hk)
        rw [List.nil_append, List.map_cons, List.cons_append, List.cons.injEq] at ha
        exact absurd (by simp [ha.1]) hmem
    | cons y a =>
        rw [List.cons_append, List.cons.injEq] at ha
        obtain ⟨rfl, rfl⟩ := ha
        refine .inr ⟨a, w, q, rfl, hw, nofun, ?_, hq⟩
        intro c hc
        refine hp' c ?_
        cases a with
        | nil => cases hc
        | cons z a => rwa [List.getLast?_append_cons, List.getLast?_cons_cons]
  · rcases List.append_eq_append_iff.mp ha with ⟨b, rfl, rfl⟩ | ⟨b, hb, hxo⟩
    · refine .inl ⟨p', w, b, rfl, hw, hjoined, hp', ?_⟩
      intro c hc
      exact hq c (List.mem_head?_append_of_mem_head? hc)
    · cases b with
      | nil =>
          rw [List.append_nil] at hb
          refine .inl ⟨p', w, [], by rw [hb, List.append_nil], hw, hjoined, hp', nofun⟩
      | cons y b =>
          rw [List.cons_append, List.cons.injEq] at hxo
          exact absurd (by simp [hb, hxo.1]) hmem

/-! ### Levels -/

/-- The text leads from one level to another, and before none of its characters is the level at the
top. -/
inductive Buried : Level → List Char → Level → Prop where
  | nil {l : Level} : Buried l [] l
  | cons {l l' : Level} {c : Char} {s : List Char} : l.isTop = false → Buried (l.after c) s l' →
      Buried l (c :: s) l'

theorem Buried.append {m : Level} (ha : Buried l a m) (hb : Buried m b l') :
    Buried l (a ++ b) l' := by
  induction ha with
  | nil => exact hb
  | cons hl _ ih => exact .cons hl (ih hb)

theorem Level.after_plain {d : Int} (hc : c ∉ brackets) :
    (⟨d, none⟩ : Level).after c = ⟨d, none⟩ := by
  unfold brackets at hc
  simp only [List.mem_cons, List.not_mem_nil, not_or] at hc
  simp [Level.after, hc]

theorem Level.after_quote {d : Int} (hc : c = '\'' ∨ c = '"') :
    (⟨d, none⟩ : Level).after c = ⟨d, some c⟩ := by
  unfold Level.after
  exact if_pos hc

/-- A quotation is not at the top up to the quote that closes it. -/
theorem buried_quotation {d : Int} (h : c ∉ s) : Buried ⟨d, some c⟩ (s ++ [c]) ⟨d, none⟩ := by
  have hidden : (⟨d, some c⟩ : Level).isTop = false := by simp [Level.isTop]
  induction s with
  | nil =>
      refine .cons hidden ?_
      simp only [Level.after, if_pos]
      exact .nil
  | cons a s ih =>
      rw [List.mem_cons, not_or] at h
      refine .cons hidden ?_
      simp only [Level.after, if_neg (Ne.symm h.1)]
      exact ih h.2

/-- In parentheses, a text with a surface is not at the top. -/
theorem buried_surface {d : Int} (h : Surface s o) (hd : 0 < d) :
    Buried ⟨d, none⟩ s ⟨d, none⟩ := by
  have hidden {d : Int} (hd : 0 < d) : (⟨d, none⟩ : Level).isTop = false := by
    simp only [Level.isTop, Bool.and_eq_false_iff, beq_eq_false_iff_ne]
    left
    omega
  induction h generalizing d with
  | nil => exact .nil
  | plain hc _ ih =>
      refine .cons (hidden hd) ?_
      rw [Level.after_plain hc]
      exact ih hd
  | quoted hq hbody _ ih =>
      refine .cons (hidden hd) ?_
      rw [Level.after_quote hq]
      have := (buried_quotation hbody).append (ih hd)
      rwa [List.append_assoc] at this
  | group _ _ inner outer =>
      have opened : (⟨d, none⟩ : Level).after '(' = ⟨d + 1, none⟩ := rfl
      have closed : (⟨d + 1, none⟩ : Level).after ')' = ⟨d, none⟩ := by
        simp [Level.after]
      refine .cons (hidden hd) ?_
      rw [opened]
      have higher : 0 < d + 1 := by omega
      refine (inner higher).append (.cons (hidden higher) ?_)
      rw [closed]
      exact outer hd

/-- A text with a surface, read at the top: it has ended, or goes on with a plain character, or with what
opens a quotation or parentheses and stays below the top until they are closed. -/
@[elab_as_elim]
theorem induction_on_surface
    {motive : (s : List Char) → (o : List (Option Char)) → Surface s o → Prop} (h : Surface s o)
    (nil : motive [] [] .nil)
    (plain : ∀ c s o (hc : c ∉ brackets) (hs : Surface s o), motive s o hs →
      motive (c :: s) (some c :: o) (.plain hc hs))
    (buried : ∀ c body s o (hs : Surface s o) (h : Surface (c :: (body ++ s)) (none :: o)),
      c ∈ brackets → Buried (({} : Level).after c) body {} → motive s o hs → motive _ _ h) :
    motive s o h := by
  have step {c : Char} {body s : List Char} {o : List (Option Char)} (hs : Surface s o)
      (hc : c ∈ brackets) (hbody : Buried (({} : Level).after c) body {}) (ih : motive s o hs) :
      ∀ t, t = body ++ s → ∀ h : Surface (c :: t) (none :: o), motive _ _ h := by
    rintro _ rfl h
    exact buried c body s o hs h hc hbody ih
  induction h with
  | nil => exact nil
  | plain hc hs ih => exact plain _ _ _ hc hs ih
  | @quoted q body s o hq hbody hs ih =>
      have inside : Buried (({} : Level).after q) (body ++ [q]) {} :=
        Level.after_quote hq ▸ buried_quotation hbody
      have bracket : q ∈ brackets := by
        rcases hq with rfl | rfl
        all_goals decide
      exact step hs bracket inside ih _ (by simp) _
  | @group inner s _ o hinner hs _ ih =>
      have inside : Buried (({} : Level).after '(') (inner ++ [')']) {} := by
        refine (buried_surface hinner Int.one_pos).append (.cons rfl ?_)
        exact .nil
      exact step hs (by decide) inside ih _ (by simp) _

/-! ### The scan for a keyword -/

/-- Whether an identifier runs up to the end of the text, when it does or does not run up to the text. -/
def endsIn (joined : Bool) (s : List Char) : Bool := s.foldl (fun _ c => inIdentifier c) joined

theorem endsIn_append_singleton : endsIn joined (s ++ [c]) = inIdentifier c := by
  unfold endsIn
  rw [List.foldl_append]
  rfl

theorem splitKeyword?_buried {j : Bool} (h : Buried l a l') :
    splitKeyword? w j l (a ++ r) = behind a (splitKeyword? w (endsIn j a) l' r) := by
  induction h generalizing j with
  | nil => exact behind_nil.symm
  | @cons l l' c s hl _ ih =>
      have top : ¬(l.isTop = true ∧ (!j) = true) := by simp [hl]
      rw [List.cons_append, splitKeyword?, if_neg top, ih]
      exact map_cons_behind

/-- No identifier runs on from the first text into the second. -/
def Parted (s r : List Char) : Prop :=
  (∀ c ∈ s.getLast?, inIdentifier c = false) ∨ ∀ c ∈ r.head?, inIdentifier c = false

theorem Parted.of_append (h : Parted (a ++ s) r) : Parted s r := by
  refine h.imp_left fun h c hc => ?_
  exact h c (List.mem_getLast?_append_of_mem_getLast? hc)

theorem not_startsWith_cons (hk : k ∈ aroundExpressions) (hc : inIdentifier c = false) :
    ¬StartsWith k (c :: s) := by
  rintro ⟨w, r, h, hw, -⟩
  obtain ⟨d, w, rfl⟩ := List.exists_cons_of_ne_nil (hw.ne_nil hk)
  rw [List.cons_append, List.cons.injEq] at h
  have := hw.inIdentifier hk d List.mem_cons_self
  rw [← h.1, hc] at this
  cases this

/-- A text that starts with a word has it on its surface. -/
theorem hasWord_of_startsWith (hk : k ∈ aroundExpressions) (h : Surface s o) (hs : s ≠ [])
    (hr : Parted s r) (hw : StartsWith k (s ++ r)) : HasWord k false o := by
  obtain ⟨w, t, hst, hw, ht⟩ := hw
  have letters := hw.inIdentifier hk
  have front : ∃ a, s = w ++ a ∧ ∀ c ∈ a.head?, inIdentifier c = false := by
    rcases List.append_eq_append_iff.mp hst with ⟨a, rfl, rfl⟩ | ⟨a, rfl, rfl⟩
    · cases a with
      | nil => exact ⟨[], by simp, by simp⟩
      | cons c a =>
          -- the word would run on into what stands behind the text
          rcases hr with hr | hr
          · have hmem := List.getLast_mem hs
            have := hr _ (List.getLast?_eq_some_getLast hs)
            rw [letters _ (List.mem_append_left _ hmem)] at this
            cases this
          · have := hr c rfl
            rw [letters c (by simp)] at this
            cases this
    · refine ⟨a, rfl, ?_⟩
      intro c hc
      exact ht c (List.mem_head?_append_of_mem_head? hc)
  obtain ⟨a, rfl, ha⟩ := front
  obtain ⟨o', rfl, hrest⟩ :=
    Surface.of_append (fun c hc => not_mem_brackets_of_inIdentifier (letters c hc)) h
  refine ⟨[], w, o', rfl, hw, nofun, nofun, ?_⟩
  intro c hc
  exact ha c (hrest.head?_eq hc)

theorem HasWord.of_joined (h : HasWord k joined o) : HasWord k false o := by
  obtain ⟨p, w, q, ho, hw, -, hp, hq⟩ := h
  exact ⟨p, w, q, ho, hw, nofun, hp, hq⟩

/-- The scan passes over a text when the keyword is not on its surface. -/
theorem splitKeyword?_surface (hk : k ∈ aroundExpressions) (h : Surface s o)
    (hno : ¬HasWord k joined o) (hr : Parted s r) :
    splitKeyword? k.toList joined {} (s ++ r) =
      behind s (splitKeyword? k.toList (endsIn joined s) {} r) := by
  induction h using induction_on_surface generalizing joined with
  | nil => exact behind_nil.symm
  | plain c s o hc hs ih =>
      have unmatched : (if ({} : Level).isTop ∧ !joined then afterKeyword? k.toList (c :: (s ++ r))
          else none) = none := by
        split
        · next hif =>
            have hj : joined = false := by simpa using hif.2
            subst hj
            refine afterKeyword?_eq_none_iff.mpr fun hw => hno ?_
            exact hasWord_of_startsWith hk (.plain hc hs) (List.cons_ne_nil c s) hr hw
        · rfl
      have tail : ¬HasWord k (inIdentifier c) o := fun hw => hno (HasWord.cons (x := some c) hw)
      have parted : Parted s r := hr.of_append (a := [c])
      rw [List.cons_append, splitKeyword?, unmatched, Level.after_plain hc, ih tail parted]
      exact map_cons_behind
  | buried c body s o hs h hc hbody ih =>
      have delimiter := inIdentifier_eq_false_of_mem_brackets hc
      have unmatched : (if ({} : Level).isTop ∧ !joined then
          afterKeyword? k.toList (c :: (body ++ s ++ r)) else none) = none := by
        split
        · exact afterKeyword?_eq_none_iff.mpr (not_startsWith_cons hk delimiter)
        · rfl
      have tail {j : Bool} : ¬HasWord k j o := by
        intro hw
        exact hno (HasWord.cons (x := none) hw.of_joined)
      have parted : Parted s r := (hr.of_append (a := [c])).of_append
      rw [List.cons_append, splitKeyword?, unmatched, List.append_assoc, splitKeyword?_buried hbody,
        ih tail parted]
      unfold endsIn
      rw [List.foldl_cons, List.foldl_append, behind_behind]
      exact map_cons_behind

/-! ### The scan for commas -/

/-- The first of the pieces with a text in front. -/
def onFirst (a : List Char) : List (List Char) → List (List Char)
  | [] => [a]
  | p :: ps => (a ++ p) :: ps

theorem splitCommas_cons (hc : ¬(l.isTop = true ∧ c = ',')) :
    splitCommas l (c :: s) = onFirst [c] (splitCommas (l.after c) s) := by
  rw [splitCommas, if_neg hc]
  cases splitCommas (l.after c) s <;> rfl

theorem onFirst_onFirst {ps : List (List Char)} : onFirst a (onFirst b ps) = onFirst (a ++ b) ps := by
  cases ps with
  | nil => rfl
  | cons p ps => simp [onFirst]

theorem splitCommas_ne_nil (l : Level) (s : List Char) : splitCommas l s ≠ [] := by
  cases s with
  | nil => exact List.cons_ne_nil _ _
  | cons c s =>
      unfold splitCommas
      split
      · exact List.cons_ne_nil _ _
      · split
        · exact List.cons_ne_nil _ _
        · exact List.cons_ne_nil _ _

theorem onFirst_nil_splitCommas : onFirst [] (splitCommas l s) = splitCommas l s := by
  obtain ⟨p, ps, h⟩ := List.exists_cons_of_ne_nil (splitCommas_ne_nil l s)
  rw [h]
  rfl

theorem splitCommas_buried (h : Buried l a l') :
    splitCommas l (a ++ r) = onFirst a (splitCommas l' r) := by
  induction h with
  | nil => exact onFirst_nil_splitCommas.symm
  | @cons l l' c s hl _ ih =>
      have top : ¬(l.isTop = true ∧ c = ',') := by simp [hl]
      rw [List.cons_append, splitCommas_cons top, ih, onFirst_onFirst]
      rfl

/-- The scan passes over a text when no comma is on its surface. -/
theorem splitCommas_surface (h : Surface s o) (hno : some ',' ∉ o) :
    splitCommas {} (s ++ r) = onFirst s (splitCommas {} r) := by
  induction h using induction_on_surface with
  | nil => exact onFirst_nil_splitCommas.symm
  | plain c s o hc _ ih =>
      rw [List.mem_cons, not_or] at hno
      have other : ¬(({} : Level).isTop = true ∧ c = ',') := fun h => hno.1 (congrArg some h.2.symm)
      rw [List.cons_append, splitCommas_cons other, Level.after_plain hc, ih hno.2, onFirst_onFirst]
      rfl
  | buried c body s o hs h hc hbody ih =>
      have other : ¬(({} : Level).isTop = true ∧ c = ',') := by
        rintro ⟨-, rfl⟩
        exact absurd hc (by decide)
      have hno : some ',' ∉ o := fun h => hno (List.mem_cons_of_mem _ h)
      rw [List.cons_append, splitCommas_cons other, List.append_assoc, splitCommas_buried hbody,
        ih hno, onFirst_onFirst, onFirst_onFirst]
      rfl

theorem splitCommas_of_not_mem (h : ',' ∉ s) : splitCommas l s = [s] := by
  induction s generalizing l with
  | nil => rfl
  | cons c s ih =>
      rw [List.mem_cons, not_or] at h
      have other : ¬(l.isTop = true ∧ c = ',') := fun hc => h.1 hc.2.symm
      rw [splitCommas_cons other, ih h.2]
      rfl

/-- What holds no comma belongs to the last piece when it stands at the end. -/
theorem exists_splitCommas_append (hb : ',' ∉ b) (l : Level) (s : List Char) :
    ∃ ps p, splitCommas l s = ps ++ [p] ∧ splitCommas l (s ++ b) = ps ++ [p ++ b] := by
  induction s generalizing l with
  | nil => exact ⟨[], [], rfl, splitCommas_of_not_mem hb⟩
  | cons c s ih =>
      by_cases hc : l.isTop = true ∧ c = ','
      · obtain ⟨ps, p, h, hsb⟩ := ih l
        refine ⟨[] :: ps, p, ?_, ?_⟩
        · rw [splitCommas, if_pos hc, h, List.cons_append]
        · rw [List.cons_append, splitCommas, if_pos hc, hsb, List.cons_append]
      · obtain ⟨ps, p, h, hsb⟩ := ih (l.after c)
        rw [List.cons_append, splitCommas_cons hc, splitCommas_cons hc, h, hsb]
        cases ps with
        | nil => exact ⟨[], c :: p, rfl, rfl⟩
        | cons q ps => exact ⟨(c :: q) :: ps, p, rfl, rfl⟩

/-- Blanks around a text do not matter for its pieces without the blanks around them. -/
theorem map_trim_splitCommas_trim (s : List Char) :
    (splitCommas {} (trim s)).map trim = (splitCommas {} s).map trim := by
  have comma {b : List Char} (hb : ∀ c ∈ b, isBlank c) : ',' ∉ b := by
    intro h
    exact absurd (hb _ h) (by decide)
  obtain ⟨a, b, h, ha, hb⟩ := exists_trim s
  have plain : some ',' ∉ a.map some := by
    intro h
    exact comma ha (by simpa using h)
  obtain ⟨ps, p, hps, hpsb⟩ := exists_splitCommas_append (comma hb) {} (trim s)
  conv_rhs => rw [h, splitCommas_surface (surface_blanks ha) plain, hpsb]
  rw [hps]
  cases ps with
  | nil => simp [onFirst, trim_blanks_append ha, trim_append_blanks hb]
  | cons q ps => simp [onFirst, trim_blanks_append ha, trim_append_blanks hb]

end EtlFlow.Sql.Select
