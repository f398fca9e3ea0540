import EtlFlow.Proofs.Sql.TableTree
import EtlFlow.Proofs.Warehouse.Header
import Mathlib.Data.List.Induction
/-!
# The parts of a table definition are read

One lemma for each reader below the level of an item: in front of tokens that do not go on with the
part, the reader takes the tokens of the part and answers what the part means.  What stands behind a
part of a column is another attribute or the end of the item (`Stops`), and neither goes on with a
name, a type, a value or a reference.  So the attributes of a column are read one by one, whatever
their order (`columnAttributes_tokens`).
-/

namespace EtlFlow.Sql.TableTree

open Grammar
open Select (Keyword isParen)
open Text (sameAscii lowerAscii upperAscii)
open Warehouse.Header (isKeyword_of_ne)
open Outcome (bind_eq_ok_iff)

/-! ### Words in any case -/

/-- The capital ASCII letters. -/
def capitalLetters : List Char := "ABCDEFGHIJKLMNOPQRSTUVWXYZ".toList

/-- The word consists of capital ASCII letters. -/
def IsCapital (w : String) : Prop := ∀ c ∈ w.toList, c ∈ capitalLetters

instance (w : String) : Decidable (IsCapital w) := inferInstanceAs (Decidable (∀ _ ∈ _, _))

/-- What differs from a capital letter in its case only has that capital and no other. -/
theorem capitals_of_toLower {c l : Char} (hl : l ∈ capitalLetters) (h : c.toLower = l.toLower) :
    capitals c = [l] ∧ c.toUpper = l := by
  by_cases hc : c.toNat < 128
  · exact Token.forall_ascii (p := fun c => ∀ l ∈ capitalLetters, c.toLower = l.toLower →
      capitals c = [l] ∧ c.toUpper = l) (by decide +kernel) hc l hl h
  · have below : ∀ l ∈ capitalLetters, l.toLower.toNat < 128 := by decide +kernel
    have := below l hl
    rw [← h, Text.toLower_of_le (Nat.le_of_not_lt hc)] at this
    exact absurd this hc

theorem map_toUpper_of_toLower {s t : List Char} (h : s.map Char.toLower = t.map Char.toLower)
    (ht : ∀ c ∈ t, c ∈ capitalLetters) : s.flatMap capitals = t ∧ s.map Char.toUpper = t := by
  induction s generalizing t with
  | nil =>
    rw [List.map_nil, eq_comm, List.map_eq_nil_iff] at h
    subst h
    exact ⟨rfl, rfl⟩
  | cons c s ih =>
    cases t with
    | nil => cases h
    | cons l t =>
      obtain ⟨hl, ht⟩ := List.forall_mem_cons.mp ht
      obtain ⟨hc, hs⟩ := List.cons.inj h
      obtain ⟨one, upper⟩ := capitals_of_toLower hl hc
      obtain ⟨all, uppers⟩ := ih hs ht
      rw [List.flatMap_cons, List.map_cons, one, upper, all, uppers]
      exact ⟨rfl, rfl⟩

theorem capitals_of_sameAscii {v w : String} (h : sameAscii v w = true) (hw : IsCapital w) :
    capitalised v = w ∧ upperAscii v = w := by
  have same : v.toList.map Char.toLower = w.toList.map Char.toLower := by
    have := congrArg String.toList (beq_iff_eq.mp h)
    rwa [lowerAscii, lowerAscii, String.toList_map, String.toList_map] at this
  obtain ⟨all, uppers⟩ := map_toUpper_of_toLower same hw
  constructor
  · rw [capitalised, all, String.ofList_toList]
  · rw [upperAscii, ← String.toList_inj, String.toList_map, uppers]

section words

variable {t : Token} {a b : String}

theorem isKeyword_of_isWord (h : t.isWord a = true) (ha : IsCapital a) :
    t.isKeyword a = true := by
  cases t with
  | word v q =>
    cases q with
    | none => exact beq_iff_eq.mpr (capitals_of_sameAscii h ha).1
    | some q => cases h
  | _ => cases h

theorem isWord_of_ne (h : t.isKeyword a = true) (hab : a ≠ b) (hb : IsCapital b) :
    t.isWord b = false := by
  by_contra hw
  rw [Bool.not_eq_false] at hw
  rw [isKeyword_of_ne (isKeyword_of_isWord hw hb) hab.symm] at h
  cases h

end words

theorem Word.isWord {w : String} (x : Word w) : x.token.isWord w = true := x.same

theorem Word.isKeyword {w : String} (x : Word w) (hw : IsCapital w) :
    x.token.isKeyword w = true :=
  isKeyword_of_isWord x.isWord hw

/-- The word `w` itself. -/
def Word.self (w : String) : Word w := ⟨w, beq_self_eq_true _⟩

/-- A keyword as a word in any case. -/
def Word.keyword {w : String} (x : Word w) (hw : IsCapital w) : Select.Keyword w :=
  ⟨x.token, x.isKeyword hw⟩

/-! ### What stands behind a part -/

/-- The words that start an attribute of a column. -/
def attributeWords : List String :=
  ["NOT", "NULL", "PRIMARY", "UNIQUE", "DISTKEY", "SORTKEY", "ENCODE", "REFERENCES", "DEFAULT",
    "IDENTITY"]

/-- The tokens go on with an attribute of a column, or the item ends. -/
inductive Stops : List Token → Prop where
  | comma (r : List Token) : Stops (.comma :: r)
  | rparen (r : List Token) : Stops (.rparen :: r)
  | word {t : Token} {k : String} (hk : k ∈ attributeWords) (ht : t.isKeyword k = true)
      (r : List Token) : Stops (t :: r)

section stops

variable {r : List Token}

theorem stops_of_atItemEnd (h : atItemEnd r = true) : Stops r := by
  unfold atItemEnd at h
  split at h
  · exact .comma _
  · exact .rparen _
  · cases h

theorem Stops.atParen_eq (h : Stops r) : atParen r = false := by
  cases h with
  | comma | rparen => rfl
  | @word t k _ ht r =>
    cases t with
    | lparen => cases ht
    | _ => rfl

theorem Stops.no_period (h : Stops r) : r.head? ≠ some .period := by
  cases h with
  | comma | rparen => simp
  | word _ ht _ =>
    rw [List.head?_cons, Ne, Option.some.injEq]
    rintro rfl
    cases ht

theorem typeTails_cases (type : String) : typeTails type = [["PRECISION"]] ∨
    typeTails type = [["VARYING"]] ∨
    typeTails type = [["WITH", "TIME", "ZONE"], ["WITHOUT", "TIME", "ZONE"]] ∨
    typeTails type = [] := by
  unfold typeTails
  split <;> simp

/-- The words that may follow one type are equally many. -/
theorem length_typeTails {type : String} {us ws : List String} (hu : us ∈ typeTails type)
    (hw : ws ∈ typeTails type) : us.length = ws.length := by
  have equal : ∀ tails ∈ [[["PRECISION"]], [["VARYING"]],
      [["WITH", "TIME", "ZONE"], ["WITHOUT", "TIME", "ZONE"]], []], ∀ us ∈ tails, ∀ ws ∈ tails,
      us.length = ws.length := by decide
  exact equal _ (by simpa using typeTails_cases type) us hu ws hw

/-- The first words of what may follow a type. -/
def tailWords : List String := ["PRECISION", "VARYING", "WITH", "WITHOUT"]

theorem exists_of_mem_typeTails {type : String} {ws : List String} (h : ws ∈ typeTails type) :
    ∃ w ∈ tailWords, ∃ us, ws = w :: us := by
  rcases typeTails_cases type with heq | heq | heq | heq <;> rw [heq] at h <;> simp at h
  · exact ⟨"PRECISION", by decide, _, h⟩
  · exact ⟨"VARYING", by decide, _, h⟩
  · rcases h with h | h
    · exact ⟨"WITH", by decide, _, h⟩
    · exact ⟨"WITHOUT", by decide, _, h⟩

theorem Stops.atWords_eq (h : Stops r) {type : String} {ws : List String}
    (hw : ws ∈ typeTails type) : atWords ws r = false := by
  obtain ⟨w, first, us, rfl⟩ := exists_of_mem_typeTails hw
  cases h with
  | comma | rparen => rfl
  | @word t k hk ht r =>
    have apart : ∀ k ∈ attributeWords, ∀ w ∈ tailWords, k ≠ w ∧ IsCapital w := by decide
    obtain ⟨hne, hcap⟩ := apart k hk w first
    rw [atWords, isWord_of_ne ht hne hcap, Bool.false_and]

end stops

/-! ### Names -/

theorem name_token (n : Name) (r : List Token) :
    Grammar.name (n.token :: r) = .ok (n.text, r) := rfl

theorem relationName_tokens (ns : Names) {r : List Token} (h : r.head? ≠ some .period) :
    relationName (ns.tokens .period ++ r) = .ok (ns.dotted, r) := by
  obtain ⟨n, more⟩ := ns
  induction more generalizing n with
  | nil =>
    rw [Names.dotted, Names.texts, List.map_nil, String.intercalate_singleton]
    exact Token.relationName_word h
  | cons m more ih =>
    have rest := ih m
    simp only [Names.tokens, Names.dotted, Names.texts, Name.token, Name.text, List.cons_append,
      List.nil_append, List.flatMap_cons, List.map_cons] at rest ⊢
    rw [relationName, rest, String.intercalate_cons_cons]
    rfl

theorem namesInside_tokens (ns : Names) (r : List Token) :
    namesInside (ns.tokens .comma ++ .rparen :: r) = .ok (ns.texts, r) := by
  obtain ⟨n, more⟩ := ns
  induction more generalizing n with
  | nil => rfl
  | cons m more ih =>
    have rest := ih m
    simp only [Names.tokens, Names.texts, Name.token, Name.text, List.cons_append,
      List.nil_append, List.flatMap_cons, List.map_cons] at rest ⊢
    rw [namesInside, rest]
    rfl

theorem nameList_listed (ns : Names) (r : List Token) :
    nameList (ns.listed ++ r) = .ok (ns.texts, r) := by
  rw [Names.listed, List.cons_append, List.append_assoc]
  exact namesInside_tokens ns r

/-! ### Types -/

theorem argumentsInside_tokens (as : List Argument) (r : List Token) :
    argumentsInside (as.map Argument.token ++ .rparen :: r) =
      .ok (as.filterMap Argument.text?, r) := by
  induction as with
  | nil => rfl
  | cons a as ih =>
    rw [List.map_cons, List.cons_append]
    cases a with
    | number d l =>
      rw [Argument.token, argumentsInside, ih]
      rfl
    | word n =>
      rw [Argument.token, Name.token, argumentsInside, ih]
      rfl
    | comma =>
      rw [Argument.token, argumentsInside, ih]
      rfl

theorem typeArguments_listed (as : List Argument) (r : List Token) :
    typeArguments (Argument.listed as ++ r) = .ok (Argument.texts as, r) := by
  rw [Argument.listed, List.cons_append, List.append_assoc, List.singleton_append, typeArguments,
    argumentsInside_tokens]
  rfl

theorem atWords_map {vs ws : List String} (h : List.Forall₂ (fun v w => sameAscii v w = true) vs ws)
    (r : List Token) : atWords ws (vs.map (.word · none) ++ r) = true := by
  induction h with
  | nil => rfl
  | cons hv _ ih =>
    rw [List.map_cons, List.cons_append, atWords, ih, Token.isWord, hv]
    rfl

theorem wordValues_map (vs : List String) : wordValues (vs.map (.word · none)) = vs := by
  rw [wordValues, List.filterMap_map]
  exact List.filterMap_some

/-- As many words are taken behind a type as are written there. -/
theorem ColumnType.length_tail (t : ColumnType) {r : List Token}
    (h : ∀ ws ∈ typeTails t.base.value, atWords ws r = false) :
    (((typeTails t.base.value).find? (atWords · (t.tail.map (.word · none) ++ r))).getD []).length =
      t.tail.length := by
  rcases t.follows with no | ⟨ws, hws, htail⟩
  · have : (typeTails t.base.value).find? (atWords · r) = none := by
      rw [List.find?_eq_none]
      exact fun ws hws => by simp [h ws hws]
    rw [no, List.map_nil, List.nil_append, this]
    rfl
  · cases hf : (typeTails t.base.value).find? (atWords · (t.tail.map (.word · none) ++ r)) with
    | none => exact absurd (atWords_map htail r) (List.find?_eq_none.mp hf ws hws)
    | some us =>
      -- The words found need not be those of the tree, but they are as many.
      rw [Option.getD_some, length_typeTails (List.mem_of_find?_eq_some hf) hws, htail.length_eq]

theorem typeName_tokens (t : ColumnType) (column : String) {r : List Token} (h : Stops r) :
    typeName column (t.tokens ++ r) = .ok (t.text, r) := by
  have behind : ∀ ws ∈ typeTails t.base.value,
      atWords ws ((t.arguments.map Argument.listed).getD [] ++ r) = false := by
    intro ws hws
    cases t.arguments with
    | none => exact h.atWords_eq hws
    | some as =>
      obtain ⟨w, -, us, rfl⟩ := exists_of_mem_typeTails hws
      rfl
  have taken := t.length_tail behind
  rw [ColumnType.tokens, Name.token, List.cons_append, List.append_assoc, typeName, if_pos t.known]
  dsimp only
  rw [taken, List.take_left' (by simp), List.drop_left' (by simp), wordValues_map, ColumnType.text]
  cases t.arguments with
  | none => simp [h.atParen_eq]
  | some as =>
    have paren : atParen (Argument.listed as ++ r) = true := rfl
    simp only [Option.map_some, Option.getD_some, paren, if_true, typeArguments_listed]
    rfl

/-! ### Default values and references -/

section balanced

variable {t : Token} (depth : Nat) (ts : List Token)

theorem ne_of_isParen (h : isParen t = false) : t ≠ .lparen ∧ t ≠ .rparen := by
  simpa [isParen] using h

theorem balancedText_plain (h : isParen t = false) : balancedText (depth + 1) (t :: ts) =
    (balancedText (depth + 1) ts).map fun (v, r) => (t.text ++ v, r) := by
  obtain ⟨hl, hr⟩ := ne_of_isParen h
  simp [balancedText, hl, hr]

theorem balancedText_lparen : balancedText depth (.lparen :: ts) =
    (balancedText (depth + 1) ts).map fun (v, r) => ("(" ++ v, r) := by
  simp [balancedText, Token.text]

theorem balancedText_rparen : balancedText (depth + 2) (.rparen :: ts) =
    (balancedText (depth + 1) ts).map fun (v, r) => (")" ++ v, r) := by
  simp [balancedText, Token.text]

theorem balancedText_last : balancedText 1 (.rparen :: ts) = .ok (")", ts) := by
  simp [balancedText, Token.text]

/-- Inside parentheses a balanced text is taken as a whole. -/
theorem balancedText_tokens (b : Balanced) :
    balancedText (depth + 1) (b.tokens ++ ts) = (balancedText (depth + 1) ts).map fun (v, r) =>
      (String.join (b.tokens.map Token.text) ++ v, r) := by
  induction b generalizing depth ts with
  | nil => cases h : balancedText (depth + 1) ts <;> simp [Balanced.tokens, h, Except.map]
  | token t plain b ih =>
    rw [Balanced.tokens, List.cons_append, balancedText_plain _ _ plain, ih]
    cases balancedText (depth + 1) ts <;> simp [Except.map, String.append_assoc]
  | group inner b ihi ih =>
    rw [Balanced.tokens, List.cons_append, List.append_assoc, List.cons_append,
      balancedText_lparen, ihi, balancedText_rparen, ih]
    cases balancedText (depth + 1) ts <;> simp [Except.map, String.append_assoc, Token.text]

end balanced

theorem defaultValue_tokens (v : Value) {r : List Token} (h : Stops r) :
    defaultValue (v.tokens ++ r) = .ok (v.text, r) := by
  obtain ⟨t, ⟨comma, plain⟩, group⟩ := v
  have close := (ne_of_isParen plain).2
  have value (ts : List Token) : defaultValue (t :: ts) =
      if atParen ts then (balancedText 0 ts).map fun (v, r) => (t.text ++ v, r)
      else .ok (t.text, ts) := by
    cases t <;> first | rfl | contradiction
  cases group with
  | none => simp [Value.tokens, Value.text, value, h.atParen_eq]
  | some b =>
    simp [Value.tokens, Value.text, value, atParen, balancedText_lparen, balancedText_tokens,
      balancedText_last, Except.map, Token.text]

theorem reference_tokens (t : Target) {r : List Token} (h : Stops r) :
    Grammar.reference (t.tokens ++ r) = .ok (t.reference, r) := by
  rw [Target.tokens, List.append_assoc, Grammar.reference]
  cases hc : t.columns with
  | none =>
    rw [Option.map_none, Option.getD_none, List.nil_append, relationName_tokens _ h.no_period]
    simp [bind, Except.bind, h.atParen_eq, Target.reference, hc]
  | some ns =>
    have paren : atParen (ns.listed ++ r) = true := rfl
    rw [Option.map_some, Option.getD_some, relationName_tokens _ (by simp [Names.listed])]
    simp [bind, Except.bind, paren, nameList_listed, Target.reference, hc, Except.map]

/-! ### Attributes of a column -/

/-- A word that is the keyword `k` is no other one. -/
theorem other_words {t : Token} {k : String} (h : t.isKeyword k = true) :
    (∀ b, k ≠ b → t.isKeyword b = false) ∧ ∀ b, k ≠ b → IsCapital b → t.isWord b = false :=
  ⟨fun _ hb => isKeyword_of_ne h hb, fun _ hb hcap => isWord_of_ne h hb hcap⟩

section attributes

attribute [local simp] Attribute.tokens Attribute.meaning columnAttribute atKeyword atWord Except.map

theorem columnAttribute_tokens (a : Attribute) (column : String) {r : List Token} (h : Stops r) :
    columnAttribute column (a.tokens ++ r) = .ok (a.meaning, r) := by
  cases a with
  | notNull n k => simp [n.isKeyword, k.isKeyword]
  | null k =>
    obtain ⟨keyword, -⟩ := other_words k.isKeyword
    simp +decide [k.isKeyword, keyword]
  | primaryKey p k =>
    obtain ⟨keyword, -⟩ := other_words p.isKeyword
    simp +decide [p.isKeyword, k.isKeyword, keyword]
  | unique k =>
    obtain ⟨keyword, -⟩ := other_words k.isKeyword
    simp +decide [k.isKeyword, keyword]
  | distkey w =>
    obtain ⟨keyword, -⟩ := other_words (w.isKeyword (by decide))
    simp +decide [w.isWord, keyword]
  | sortkey w =>
    obtain ⟨keyword, word⟩ := other_words (w.isKeyword (by decide))
    simp +decide [w.isWord, keyword, word]
  | encode w n =>
    obtain ⟨keyword, word⟩ := other_words (w.isKeyword (by decide))
    simp +decide [w.isWord, keyword, word, name_token]
  | references k t =>
    obtain ⟨keyword, word⟩ := other_words k.isKeyword
    simp +decide [k.isKeyword, keyword, word, reference_tokens t h]
  | default k v =>
    obtain ⟨keyword, word⟩ := other_words k.isKeyword
    simp +decide [k.isKeyword, keyword, word, defaultValue_tokens v h]
  | identity w as =>
    obtain ⟨keyword, word⟩ := other_words (w.isKeyword (by decide))
    simp +decide [w.isWord, keyword, word, typeArguments_listed]

end attributes

theorem Attribute.exists_lead (a : Attribute) :
    ∃ t ts, ∃ k ∈ attributeWords, a.tokens = t :: ts ∧ t.isKeyword k = true := by
  cases a with
  | notNull n k => exact ⟨_, _, _, by decide, rfl, n.isKeyword⟩
  | primaryKey p k => exact ⟨_, _, _, by decide, rfl, p.isKeyword⟩
  | null k | unique k | references k _ | default k _ =>
    exact ⟨_, _, _, by decide, rfl, k.isKeyword⟩
  | distkey w | sortkey w | encode w _ | identity w _ =>
    exact ⟨_, _, _, by decide, rfl, w.isKeyword (by decide)⟩

theorem stops_tokens (as : List Attribute) {r : List Token} (h : atItemEnd r = true) :
    Stops (as.flatMap Attribute.tokens ++ r) := by
  cases as with
  | nil => exact stops_of_atItemEnd h
  | cons a as =>
    obtain ⟨t, ts, k, hk, heq, ht⟩ := a.exists_lead
    rw [List.flatMap_cons, heq]
    exact .word hk ht _

/-! ### Columns -/

/-- What a column is by its attributes, before a key makes it NOT NULL. -/
def described (n type : String) (position : Nat) (as : List ColumnAttribute) : ColumnDef where
  name := n
  type := type
  encoding := (Attributes.encodings as).getLast?
  reference := (Attributes.references as).getLast?
  default := (Attributes.defaults as).getLast?
  identity := (Attributes.identities as).getLast?
  isDistkey := Attributes.isDistkey as
  isSortkey := Attributes.isSortkey as
  isPrimary := Attributes.isKey as
  nullability :=
    if Attributes.isNotNull as then .notNull
    else if Attributes.isNull as then .null
    else .unspecified
  position := position

theorem agree_of_append {as bs : List ColumnAttribute} (h : Attributes.Agree (as ++ bs)) :
    Attributes.Agree as := by
  simp only [Attributes.Agree, Attributes.isNull, Attributes.isNotNull, List.any_append,
    Bool.or_eq_false_iff] at h ⊢
  exact h.imp And.left And.left

section described

variable (n type : String) (position : Nat) (as : List ColumnAttribute)

attribute [local simp] described Attributes.encodings Attributes.references Attributes.defaults
  Attributes.identities Attributes.isKey Attributes.isDistkey Attributes.isSortkey Attributes.isNull
  Attributes.isNotNull

theorem described_notNull : described n type position (as ++ [.notNull]) =
    { described n type position as with nullability := .notNull } := by
  simp

theorem described_null (h : Attributes.isNotNull as = false) :
    described n type position (as ++ [.null]) =
      { described n type position as with nullability := .null } := by
  rw [Attributes.isNotNull] at h
  simp [h]

/-- One more attribute adds what it says. -/
theorem withAttribute_described (a : ColumnAttribute) (h : Attributes.Agree (as ++ [a])) :
    (described n type position as).withAttribute a =
      .ok (described n type position (as ++ [a])) := by
  cases a with
  | notNull =>
    have no_null : Attributes.isNull as = false := by simpa [Attributes.Agree] using h
    have before : (described n type position as).nullability =
        if Attributes.isNotNull as then .notNull else .unspecified := by
      rw [described, no_null]
      rfl
    rw [described_notNull, ColumnDef.withAttribute, ColumnDef.withNullability, before, if_neg]
    split <;> simp
  | null =>
    have nullable : Attributes.isNotNull as = false := by simpa [Attributes.Agree] using h
    have before : (described n type position as).nullability =
        if Attributes.isNull as then .null else .unspecified := by
      rw [described, nullable]
      rfl
    rw [described_null _ _ _ _ nullable, ColumnDef.withAttribute, ColumnDef.withNullability, before,
      if_neg]
    split <;> simp
  | _ => simp [ColumnDef.withAttribute]

theorem foldlM_withAttribute (h : Attributes.Agree as) :
    as.foldlM ColumnDef.withAttribute { name := n, type := type, position := position } =
      .ok (described n type position as) := by
  induction as using List.reverseRecOn with
  | nil => rfl
  | append_singleton as a ih =>
    rw [List.foldlM_append, ih (agree_of_append h)]
    simp only [bind, Except.bind, List.foldlM_cons, List.foldlM_nil,
      withAttribute_described n type position as a h]
    rfl

end described

theorem columnAttributes_of_ok {c d : ColumnDef} {ts r : List Token} {a : ColumnAttribute}
    (hts : atItemEnd ts = false) (ha : columnAttribute c.name ts = .ok (a, r))
    (hd : c.withAttribute a = .ok d) : columnAttributes c ts = columnAttributes d r := by
  have ne : ts ≠ [] := by
    rintro rfl
    cases ha
  rw [columnAttributes, if_neg (by simp [hts]), dif_neg ne]
  split
  · rename_i he
    rw [ha] at he
    cases he
  · rename_i ha'
    rw [ha] at ha'
    cases ha'
    rw [hd]

/-- The attributes of a column are read one by one up to the end of its item. -/
theorem columnAttributes_tokens (as : List Attribute) {c d : ColumnDef} {r : List Token}
    (hr : atItemEnd r = true)
    (h : (as.map (·.meaning)).foldlM ColumnDef.withAttribute c = .ok d) :
    columnAttributes c (as.flatMap Attribute.tokens ++ r) = .ok (d, r) := by
  -- Each attribute changes the column that the next one is added to, so the column is general.
  induction as generalizing c with
  | nil =>
    cases h
    rw [List.flatMap_nil, List.nil_append, columnAttributes, if_pos hr]
  | cons a as ih =>
    obtain ⟨e, he, h⟩ := bind_eq_ok_iff.mp h
    have first := columnAttribute_tokens a c.name (stops_tokens as hr)
    have goes_on : atItemEnd (a.tokens ++ (as.flatMap Attribute.tokens ++ r)) = false := by
      obtain ⟨t, ts, k, -, heq, ht⟩ := a.exists_lead
      rw [heq]
      cases t <;> first | rfl | cases ht
    rw [List.flatMap_cons, List.append_assoc, columnAttributes_of_ok goes_on first he, ih h]

theorem Column.definition_eq (c : Column) (position : Nat) : c.definition position =
    let d := described c.name.text c.type.text position c.meanings
    if d.isPrimary then { d with nullability := .notNull } else d := by
  unfold Column.definition described
  cases Attributes.isKey c.meanings <;> rfl

theorem column_tokens (c : Column) (position : Nat) {r : List Token} (hr : atItemEnd r = true) :
    column position (c.tokens ++ r) = .ok (c.definition position, r) := by
  have attributes := columnAttributes_tokens c.attributes hr
    (foldlM_withAttribute c.name.text c.type.text position c.meanings c.agrees)
  rw [Column.tokens, List.cons_append, List.append_assoc, column, c.definition_eq]
  simp only [bind, Except.bind, name_token, typeName_tokens _ _ (stops_tokens c.attributes hr),
    attributes]

end EtlFlow.Sql.TableTree
