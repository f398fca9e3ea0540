import EtlFlow.Sql.Select.Reads
/-!
# Queries as trees

The SELECT statements whose FROM clause is a list of items, each a relation name or a query in
parentheses, with commas and joins between them.  A tree keeps the tokens of its query, keywords in
the case in which they are written (`Query.tokens`).  What is not part of a FROM clause is kept as
words, which may hold further queries in parentheses.

`Query.mentioned` are the relations of all items, at every depth and in the order of the text;
`Query.reached` leaves out those behind a comma that follows a query or a join condition.
-/

namespace EtlFlow.Sql.Select

open Grammar

/-! ### Leaves -/

/-- A token that is the keyword `k`. -/
structure Keyword (k : String) where
  token : Token
  isKeyword : token.isKeyword k = true

/-- A quoted word, or a bare one that is no keyword. -/
structure Identifier where
  value : String
  quote : Option Char
  isPlainName : (Token.word value quote).isPlainName = true

/-- The word of an identifier. -/
def Identifier.token (i : Identifier) : Token := .word i.value i.quote

/-- Identifiers with periods between them. -/
structure RelationName where
  first : Identifier
  more : List Identifier

namespace RelationName

/-- The tokens of the parts behind the first one. -/
def moreTokens : List Identifier → List Token
  | [] => []
  | i :: is => .period :: i.token :: moreTokens is

/-- The text of the parts behind the first one. -/
def moreText : List Identifier → String
  | [] => ""
  | i :: is => "." ++ Token.nameText i.value i.quote ++ moreText is

/-- The tokens of a name. -/
def tokens (r : RelationName) : List Token := r.first.token :: moreTokens r.more

/-- The name as it is reported. -/
def text (r : RelationName) : String :=
  Token.nameText r.first.value r.first.quote ++ moreText r.more

end RelationName

/-- The name that an item has in its query. -/
inductive Alias where
  | none
  | bare (i : Identifier)
  | as (k : Keyword "AS") (i : Identifier)

/-- The tokens of an alias. -/
def Alias.tokens : Alias → List Token
  | .none => []
  | .bare i => [i.token]
  | .as k i => [k.token, i.token]

/-- The words between an item and the JOIN behind it. -/
def joinKinds : List String := ["INNER", "LEFT", "RIGHT", "FULL", "OUTER", "CROSS", "NATURAL"]

/-- What stands before an item. -/
inductive Separator where
  | start (k : Keyword "FROM")
  | comma
  | join (kinds : List Token) (k : Keyword "JOIN")

namespace Separator

/-- The tokens of a separator. -/
def tokens : Separator → List Token
  | .start k => [k.token]
  | .comma => [.comma]
  | .join kinds k => kinds ++ [k.token]

/-- A list of relations starts behind the separator. -/
def opens : Separator → Bool
  | .comma => false
  | _ => true

/-- The separator stands before the first item, or before another one. -/
def fits (first : Bool) : Separator → Bool
  | .start _ => first
  | .comma => !first
  | .join kinds _ => !first && kinds.all fun t => joinKinds.any (t.isKeyword ·)

end Separator

/-! ### Trees -/

mutual

/-- Text outside the lists of items. -/
inductive Words where
  | nil
  | token (t : Token) (w : Words)
  /-- Words in parentheses. -/
  | group (inner w : Words)
  /-- A query in parentheses. -/
  | query (q : Query) (w : Words)

/-- A query: what it selects, the items of its FROM clause, and the clauses behind them. -/
inductive Query where
  | select (k : Keyword "SELECT") (projection : Words) (items : Items) (tail : Words)

/-- Items, each with the separator before it and the join condition behind it. -/
inductive Items where
  | nil
  | relation (s : Separator) (r : RelationName) (a : Alias) (condition : Words) (is : Items)
  | query (s : Separator) (q : Query) (a : Alias) (condition : Words) (is : Items)

end

mutual

/-- The tokens of words. -/
def Words.tokens : Words → List Token
  | .nil => []
  | .token t w => t :: w.tokens
  | .group inner w => .lparen :: (inner.tokens ++ .rparen :: w.tokens)
  | .query q w => .lparen :: (q.tokens ++ .rparen :: w.tokens)

/-- The tokens of a query. -/
def Query.tokens : Query → List Token
  | .select k projection items tail =>
    k.token :: (projection.tokens ++ (items.tokens ++ tail.tokens))

/-- The tokens of items. -/
def Items.tokens : Items → List Token
  | .nil => []
  | .relation s r a c is => s.tokens ++ (r.tokens ++ (a.tokens ++ (c.tokens ++ is.tokens)))
  | .query s q a c is =>
    s.tokens ++ .lparen :: (q.tokens ++ .rparen :: (a.tokens ++ (c.tokens ++ is.tokens)))

end

/-! ### Names -/

/-- There are no words. -/
def Words.isNil : Words → Bool
  | .nil => true
  | _ => false

mutual

/-- The names of items in words: all of them, or those that are reached. -/
def Words.names (all : Bool) : Words → List String
  | .nil => []
  | .token _ w => w.names all
  | .group inner w => inner.names all ++ w.names all
  | .query q w => q.names all ++ w.names all

/-- The names of items in a query. -/
def Query.names (all : Bool) : Query → List String
  | .select _ projection items tail =>
    projection.names all ++ (items.names all false ++ tail.names all)

/-- The names of items.  `listed` says that the list of relations goes on behind a comma; a query or
a join condition ends it. -/
def Items.names (all : Bool) : (listed : Bool) → Items → List String
  | _, .nil => []
  | listed, .relation s r _ c is =>
    (if all || s.opens || listed then [r.text] else []) ++
      (c.names all ++ is.names all ((s.opens || listed) && c.isNil))
  | _, .query _ q _ c is => q.names all ++ (c.names all ++ is.names all false)

end

/-- The relations of all items of a query, in the order of the text. -/
def Query.mentioned (q : Query) : List String := q.names true

/-- The relations of a query that do not stand behind a comma which follows a query or a join
condition. -/
def Query.reached (q : Query) : List String := q.names false

/-! ### Well-formed trees -/

/-- The token is a parenthesis. -/
def isParen (t : Token) : Bool := t == .lparen || t == .rparen

/-- Relations are read behind the token. -/
def opensList (t : Token) : Bool := t.isKeyword "FROM" || t.isKeyword "JOIN"

/-- The token is no part of an item: a keyword that starts something else, or a semicolon. -/
def opensClause : Token → Bool
  | .word v none => keywords.contains (capitalised v) && capitalised v != "AS"
  | .semicolon => true
  | _ => false

/-- The words are a clause, or there are none. -/
def Words.isClause : Words → Bool
  | .nil => true
  | .token t _ => opensClause t
  | _ => false

/-- The words start with a query in parentheses. -/
def Words.startsQuery : Words → Bool
  | .query .. => true
  | _ => false

mutual

/-- Words whose parentheses are those of the tree.  FROM and JOIN stand for themselves in the
parentheses of a function only, and no AS stands before a query, which would bind a name. -/
def Words.wellFormed (inQuery : Bool) : Words → Bool
  | .nil => true
  | .token t w => !isParen t && !(inQuery && opensList t) &&
      !(t.isKeyword "AS" && w.startsQuery) && w.wellFormed inQuery
  | .group inner w => inner.wellFormed false && !atKeyword "SELECT" inner.tokens &&
      !atKeyword "WITH" inner.tokens && w.wellFormed inQuery
  | .query q w => q.wellFormed && w.wellFormed inQuery

/-- A query with a FROM clause. -/
def Query.wellFormed : Query → Bool
  | .select _ projection items tail => projection.wellFormed true && items.wellFormed true &&
      tail.wellFormed true && tail.isClause

/-- Items behind FROM, or behind another item. -/
def Items.wellFormed : (first : Bool) → Items → Bool
  | first, .nil => !first
  | first, .relation s _ _ c is => s.fits first && c.wellFormed true && c.isClause &&
      is.wellFormed false
  | first, .query s q _ c is => s.fits first && q.wellFormed && c.wellFormed true && c.isClause &&
      is.wellFormed false

end

mutual

/-- No query in the words has a relation behind a comma that follows a query or a condition. -/
def Words.unbroken : Words → Bool
  | .nil => true
  | .token _ w => w.unbroken
  | .group inner w => inner.unbroken && w.unbroken
  | .query q w => q.unbroken && w.unbroken

/-- No relation of the query stands behind a comma that follows a query or a join condition. -/
def Query.unbroken : Query → Bool
  | .select _ projection items tail =>
    projection.unbroken && items.unbroken false && tail.unbroken

/-- No relation of the items stands behind a comma that does not go on with a list. -/
def Items.unbroken : (listed : Bool) → Items → Bool
  | _, .nil => true
  | listed, .relation s _ _ c is => (s.opens || listed) && c.unbroken && is.unbroken c.isNil
  | _, .query _ q _ c is => q.unbroken && c.unbroken && is.unbroken false

end

/-! ### Which relations are left out -/

mutual

theorem Words.sublist_names (w : Words) : (w.names false).Sublist (w.names true) := by
  cases w with
  | nil => exact .slnil
  | token t w => exact w.sublist_names
  | group inner w => exact inner.sublist_names.append w.sublist_names
  | query q w => exact q.sublist_names.append w.sublist_names

theorem Query.sublist_names (q : Query) : (q.names false).Sublist (q.names true) := by
  cases q with
  | select k p items tail =>
    exact p.sublist_names.append ((items.sublist_names false false).append tail.sublist_names)

theorem Items.sublist_names (is : Items) (listed later : Bool) :
    (is.names false listed).Sublist (is.names true later) := by
  cases is with
  | nil => exact .slnil
  | relation s r a c is =>
    refine List.Sublist.append ?_ (c.sublist_names.append (is.sublist_names _ _))
    cases s.opens <;> cases listed <;> simp
  | query s q a c is =>
    exact q.sublist_names.append (c.sublist_names.append (is.sublist_names _ _))

end

mutual

theorem Words.names_of_unbroken (w : Words) (h : w.unbroken = true) :
    w.names false = w.names true := by
  cases w with
  | nil => rfl
  | token t w => exact w.names_of_unbroken h
  | group inner w =>
    rw [Words.unbroken, Bool.and_eq_true] at h
    rw [Words.names, Words.names, inner.names_of_unbroken h.1, w.names_of_unbroken h.2]
  | query q w =>
    rw [Words.unbroken, Bool.and_eq_true] at h
    rw [Words.names, Words.names, q.names_of_unbroken h.1, w.names_of_unbroken h.2]

theorem Query.names_of_unbroken (q : Query) (h : q.unbroken = true) :
    q.names false = q.names true := by
  cases q with
  | select k p items tail =>
    rw [Query.unbroken, Bool.and_eq_true, Bool.and_eq_true] at h
    rw [Query.names, Query.names, p.names_of_unbroken h.1.1, tail.names_of_unbroken h.2,
      items.names_of_unbroken false false h.1.2]

theorem Items.names_of_unbroken (is : Items) (listed later : Bool)
    (h : is.unbroken listed = true) : is.names false listed = is.names true later := by
  cases is with
  | nil => rfl
  | relation s r a c is =>
    rw [Items.unbroken, Bool.and_eq_true, Bool.and_eq_true] at h
    obtain ⟨⟨inList, hc⟩, his⟩ := h
    have rest := is.names_of_unbroken c.isNil ((s.opens || later) && c.isNil) his
    simp only [Items.names, Bool.false_or, Bool.true_or, inList, if_true, Bool.true_and,
      c.names_of_unbroken hc, rest]
  | query s q a c is =>
    rw [Items.unbroken, Bool.and_eq_true, Bool.and_eq_true] at h
    obtain ⟨⟨hq, hc⟩, his⟩ := h
    rw [Items.names, Items.names, q.names_of_unbroken hq, c.names_of_unbroken hc,
      is.names_of_unbroken false false his]

end

end EtlFlow.Sql.Select
