import EtlFlow.Proofs.Sql.Query
import EtlFlow.Sql.TableDef.Parser
import Mathlib.Data.List.Forall2
/-!
# Table definitions as trees

The CREATE TABLE statements whose items are columns and table constraints in any order, with the
attributes of a column and of the table in any order.  A tree keeps the tokens of its statement,
words in the case in which they are written (`TableTree.tokens`), and what is no statement is no
tree: a column does not start like a constraint, says one thing about NULL, and has a known type.

`TableTree.definition` is what a statement means.  It is read off the parts: of the attributes that
carry a value the last one of its kind counts, a key column is not NULL, and a column has the number
of columns before it.  `TableTree.Reordered` are the statements with the same parts in which
attributes stand in another order.
-/

namespace EtlFlow.Sql

open Grammar
open Select (Keyword isParen)

namespace TableTree

/-! ### Words and names -/

/-- The bare word `w`, in any case of its ASCII letters.  Every such word is a keyword in the sense of
`Keyword`, where beside them the few other letters with ASCII capitals are allowed. -/
structure Word (w : String) where
  value : String
  same : Text.sameAscii value w = true

/-- The token of a word. -/
def Word.token {w : String} (x : Word w) : Token := .word x.value none

/-- A word that names something, bare or quoted. -/
structure Name where
  value : String
  quote : Option Char

namespace Name

/-- The token of a name. -/
def token (n : Name) : Token := .word n.value n.quote

/-- The name with its quotes. -/
def text (n : Name) : String := Token.nameText n.value n.quote

end Name

/-- At least one name. -/
structure Names where
  first : Name
  more : List Name

namespace Names

/-- The tokens of names with `separator` between them. -/
def tokens (separator : Token) (ns : Names) : List Token :=
  ns.first.token :: ns.more.flatMap fun n => [separator, n.token]

/-- The names with their quotes. -/
def texts (ns : Names) : List String := ns.first.text :: ns.more.map Name.text

/-- The name of a relation that the names are the parts of. -/
def dotted (ns : Names) : String := ".".intercalate ns.texts

/-- The tokens of names with commas between them and parentheses around them. -/
def listed (ns : Names) : List Token := .lparen :: (ns.tokens .comma ++ [.rparen])

end Names

/-! ### Types, default values and references -/

/-- What stands in the parentheses behind a type. -/
inductive Argument where
  | number (digits : String) (long : Bool)
  | word (n : Name)
  | comma

namespace Argument

/-- The token of an argument. -/
def token : Argument → Token
  | number d long => .number d long
  | word n => n.token
  | comma => .comma

/-- What is kept of an argument. -/
def text? : Argument → Option String
  | number d _ => some d
  | word n => some n.value
  | comma => none

/-- The tokens of arguments in parentheses. -/
def listed (as : List Argument) : List Token := .lparen :: (as.map token ++ [.rparen])

/-- The text of arguments, in parentheses and without blanks. -/
def texts (as : List Argument) : String := argumentText (as.filterMap text?)

end Argument

/-- A type: a known word, words that may follow it, and arguments. -/
structure ColumnType where
  base : Name
  known : knownTypes.contains (Text.upperAscii base.value) = true
  tail : List String
  follows : tail = [] ∨
    ∃ ws ∈ typeTails base.value, List.Forall₂ (fun v w => Text.sameAscii v w = true) tail ws
  arguments : Option (List Argument)

namespace ColumnType

/-- The tokens of a type. -/
def tokens (t : ColumnType) : List Token :=
  t.base.token :: (t.tail.map (.word · none) ++ (t.arguments.map Argument.listed).getD [])

/-- A type in its own spelling. -/
def text (t : ColumnType) : String :=
  " ".intercalate (t.base.value :: t.tail) ++ (t.arguments.map Argument.texts).getD ""

end ColumnType

/-- Tokens whose parentheses are balanced. -/
inductive Balanced where
  | nil
  | token (t : Token) (plain : isParen t = false) (b : Balanced)
  | group (inner b : Balanced)

/-- The tokens of a balanced text. -/
def Balanced.tokens : Balanced → List Token
  | .nil => []
  | .token t _ b => t :: b.tokens
  | .group inner b => .lparen :: (inner.tokens ++ .rparen :: b.tokens)

/-- A default value: one token, and perhaps a balanced text in parentheses. -/
structure Value where
  head : Token
  isHead : head ≠ .comma ∧ isParen head = false
  group : Option Balanced

namespace Value

/-- The tokens of a value. -/
def tokens (v : Value) : List Token :=
  v.head :: (v.group.map fun b => .lparen :: (b.tokens ++ [.rparen])).getD []

/-- A value written without blanks. -/
def text (v : Value) : String := String.join (v.tokens.map Token.text)

end Value

/-- What a foreign key points to. -/
structure Target where
  table : Names
  columns : Option Names

namespace Target

/-- The tokens of a target. -/
def tokens (t : Target) : List Token :=
  t.table.tokens .period ++ (t.columns.map Names.listed).getD []

/-- The relation and the columns that are pointed to. -/
def reference (t : Target) : Reference :=
  ⟨t.table.dotted, (t.columns.map Names.texts).getD []⟩

end Target

/-! ### Columns -/

/-- An attribute of a column. -/
inductive Attribute where
  | notNull (n : Keyword "NOT") (k : Keyword "NULL")
  | null (k : Keyword "NULL")
  | primaryKey (p : Keyword "PRIMARY") (k : Keyword "KEY")
  | unique (k : Keyword "UNIQUE")
  | distkey (w : Word "DISTKEY")
  | sortkey (w : Word "SORTKEY")
  | encode (w : Word "ENCODE") (encoding : Name)
  | references (k : Keyword "REFERENCES") (target : Target)
  | default (k : Keyword "DEFAULT") (value : Value)
  | identity (w : Word "IDENTITY") (arguments : List Argument)

namespace Attribute

/-- The tokens of an attribute. -/
def tokens : Attribute → List Token
  | notNull n k => [n.token, k.token]
  | null k => [k.token]
  | primaryKey p k => [p.token, k.token]
  | unique k => [k.token]
  | distkey w => [w.token]
  | sortkey w => [w.token]
  | encode w n => [w.token, n.token]
  | references k t => k.token :: t.tokens
  | default k v => k.token :: v.tokens
  | identity w as => w.token :: Argument.listed as

/-- What an attribute says; the two ways to name a key say the same. -/
def meaning : Attribute → ColumnAttribute
  | notNull .. => .notNull
  | null _ => .null
  | primaryKey .. | unique _ => .key
  | distkey _ => .distkey
  | sortkey _ => .sortkey
  | encode _ n => .encode n.text
  | references _ t => .references t.reference
  | default _ v => .default v.text
  | identity _ as => .identity (Argument.texts as)

end Attribute

namespace Attributes

/-! What the attributes of a column say together; the values of one kind in the order of the text. -/

variable (as : List ColumnAttribute)

/-- The encodings that are given. -/
def encodings : List String := as.filterMap fun | .encode n => some n | _ => none

/-- The foreign keys that are given. -/
def references : List Reference := as.filterMap fun | .references x => some x | _ => none

/-- The default values that are given. -/
def defaults : List String := as.filterMap fun | .default v => some v | _ => none

/-- The arguments of IDENTITY that are given. -/
def identities : List String := as.filterMap fun | .identity args => some args | _ => none

/-- The column is a key by itself. -/
def isKey : Bool := as.any fun | .key => true | _ => false

/-- The column is said to be the distribution key. -/
def isDistkey : Bool := as.any fun | .distkey => true | _ => false

/-- The column is said to be a sort key. -/
def isSortkey : Bool := as.any fun | .sortkey => true | _ => false

/-- The column is said to be NULL. -/
def isNull : Bool := as.any fun | .null => true | _ => false

/-- The column is said to be NOT NULL. -/
def isNotNull : Bool := as.any fun | .notNull => true | _ => false

/-- NULL and NOT NULL are not both said. -/
def Agree : Prop := isNull as = false ∨ isNotNull as = false

end Attributes

/-- The words that start a table constraint. -/
def constraintWords : List String := ["CONSTRAINT", "PRIMARY", "FOREIGN", "UNIQUE"]

/-- A column.  Its name is no word that starts a constraint, and it is not said to be both NULL and
NOT NULL. -/
structure Column where
  name : Name
  isName : ∀ w ∈ constraintWords, name.token.isWord w = false
  type : ColumnType
  attributes : List Attribute
  agrees : Attributes.Agree (attributes.map (·.meaning))

namespace Column

/-- The tokens of a column. -/
def tokens (c : Column) : List Token :=
  c.name.token :: (c.type.tokens ++ c.attributes.flatMap Attribute.tokens)

/-- What the attributes say. -/
def meanings (c : Column) : List ColumnAttribute := c.attributes.map (·.meaning)

/-- The column at `position`. -/
def definition (c : Column) (position : Nat) : ColumnDef where
  name := c.name.text
  type := c.type.text
  encoding := (Attributes.encodings c.meanings).getLast?
  reference := (Attributes.references c.meanings).getLast?
  default := (Attributes.defaults c.meanings).getLast?
  identity := (Attributes.identities c.meanings).getLast?
  isDistkey := Attributes.isDistkey c.meanings
  isSortkey := Attributes.isSortkey c.meanings
  isPrimary := Attributes.isKey c.meanings
  nullability :=
    if Attributes.isKey c.meanings || Attributes.isNotNull c.meanings then .notNull
    else if Attributes.isNull c.meanings then .null
    else .unspecified
  position := position

end Column

/-! ### Constraints and items -/

/-- A table constraint without its name. -/
inductive ConstraintBody where
  | primaryKey (p : Word "PRIMARY") (k : Word "KEY") (columns : Names)
  | unique (u : Word "UNIQUE") (columns : Names)
  | foreignKey (f : Word "FOREIGN") (k : Word "KEY") (columns : Names)
      (r : Keyword "REFERENCES") (target : Target)

namespace ConstraintBody

/-- The tokens of a constraint without its name. -/
def tokens : ConstraintBody → List Token
  | primaryKey p k ns => p.token :: k.token :: ns.listed
  | unique u ns => u.token :: ns.listed
  | foreignKey f k ns r t => f.token :: k.token :: (ns.listed ++ r.token :: t.tokens)

/-- The constraint; one on unique columns is kept as a key. -/
def definition : ConstraintBody → TableConstraint
  | primaryKey _ _ ns => .primaryKey ns.texts
  | unique _ ns => .primaryKey ns.texts
  | foreignKey _ _ ns _ t => .foreignKey ns.texts t.reference

end ConstraintBody

/-- A table constraint, which may have a name. -/
structure Constraint where
  label : Option (Word "CONSTRAINT" × Name)
  body : ConstraintBody

/-- The tokens of a constraint. -/
def Constraint.tokens (c : Constraint) : List Token :=
  (c.label.map fun (w, n) => [w.token, n.token]).getD [] ++ c.body.tokens

/-- A column or a constraint. -/
inductive Item where
  | column (c : Column)
  | constraint (c : Constraint)

namespace Item

/-- The tokens of an item. -/
def tokens : Item → List Token
  | column c => c.tokens
  | constraint c => c.tokens

/-- The item as a column. -/
def column? : Item → Option Column
  | column c => some c
  | constraint _ => none

/-- The item as a constraint. -/
def constraint? : Item → Option Constraint
  | column _ => none
  | constraint c => some c

end Item

/-! ### Attributes of a table -/

/-- The words that may stand before SORTKEY. -/
inductive SortKind where
  | plain
  | compound (w : Word "COMPOUND")
  | interleaved (w : Word "INTERLEAVED")

/-- The tokens before SORTKEY. -/
def SortKind.tokens : SortKind → List Token
  | plain => []
  | compound w => [w.token]
  | interleaved w => [w.token]

/-- An attribute of a table. -/
inductive TableOption where
  | diststyle (w : Word "DISTSTYLE") (style : DistStyle) (name : Word style.text)
  | distkey (w : Word "DISTKEY") (columns : Names)
  | sortkey (kind : SortKind) (w : Word "SORTKEY") (columns : Names)

namespace TableOption

/-- The tokens of an attribute. -/
def tokens : TableOption → List Token
  | diststyle w _ n => [w.token, n.token]
  | distkey w ns => w.token :: ns.listed
  | sortkey kind w ns => kind.tokens ++ w.token :: ns.listed

/-- The style of an attribute that gives one. -/
def style? : TableOption → Option DistStyle
  | diststyle _ style _ => some style
  | _ => none

/-- The columns of an attribute that gives distribution keys. -/
def distkey? : TableOption → Option (List String)
  | distkey _ ns => some ns.texts
  | _ => none

/-- The columns of an attribute that gives sort keys. -/
def sortkey? : TableOption → Option (List String)
  | sortkey _ _ ns => some ns.texts
  | _ => none

end TableOption

/-! ### The statement -/

/-- What may stand between CREATE and TABLE. -/
inductive Temporary where
  | no
  | temp (k : Keyword "TEMP")
  | temporary (k : Keyword "TEMPORARY")

namespace Temporary

/-- The tokens between CREATE and TABLE. -/
def tokens : Temporary → List Token
  | no => []
  | temp k => [k.token]
  | temporary k => [k.token]

/-- There is such a word. -/
def isTemporary : Temporary → Bool
  | no => false
  | _ => true

end Temporary

/-- What may stand before the name of the table. -/
inductive Guard where
  | no
  | ifNotExists (i : Keyword "IF") (n : Keyword "NOT") (e : Keyword "EXISTS")

namespace Guard

/-- The tokens before the name of the table. -/
def tokens : Guard → List Token
  | no => []
  | ifNotExists i n e => [i.token, n.token, e.token]

/-- There is a guard. -/
def isGuarded : Guard → Bool
  | no => false
  | _ => true

end Guard

end TableTree

open TableTree in
/-- A CREATE TABLE statement with at least one column. -/
structure TableTree where
  create : Select.Keyword "CREATE"
  temporary : Temporary
  table : Select.Keyword "TABLE"
  guard : Guard
  name : Names
  first : Item
  more : List Item
  hasColumn : (first :: more).any (·.column?.isSome) = true
  options : List TableOption
  semicolons : Nat

namespace TableTree

variable (s : TableTree)

/-- The items in their order. -/
def items : List Item := s.first :: s.more

/-- The columns in their order. -/
def columns : List Column := s.items.filterMap Item.column?

/-- The tokens of the items, with commas between them. -/
def itemTokens (first : Item) (more : List Item) : List Token :=
  first.tokens ++ more.flatMap fun i => .comma :: i.tokens

/-- The tokens of a statement. -/
def tokens : List Token :=
  s.create.token :: (s.temporary.tokens ++ s.table.token :: (s.guard.tokens ++
    (s.name.tokens .period ++ .lparen :: (itemTokens s.first s.more ++ .rparen ::
      (s.options.flatMap TableOption.tokens ++ List.replicate s.semicolons .semicolon)))))

/-- What a statement defines. -/
def definition : TableDef where
  fullName := s.name.dotted
  temporary := s.temporary.isTemporary
  ifNotExists := s.guard.isGuarded
  columns := s.columns.mapIdx fun position c => c.definition position
  constraints := (s.items.filterMap Item.constraint?).map (·.body.definition)
  distkey := (s.options.filterMap TableOption.distkey?).flatten
  sortkey := (s.options.filterMap TableOption.sortkey?).flatten
  diststyle := (s.options.filterMap TableOption.style?).getLast?

/-! ### Another order -/

/-- The same attributes of a column in another order.  Of two values of one kind the later one counts,
so those that give a value of one kind keep their order. -/
structure Attributes.Reordered (as bs : List ColumnAttribute) : Prop where
  perm : as.Perm bs
  encodings : Attributes.encodings as = Attributes.encodings bs
  references : Attributes.references as = Attributes.references bs
  defaults : Attributes.defaults as = Attributes.defaults bs
  identities : Attributes.identities as = Attributes.identities bs

/-- The same attributes of a table in another order, where those of one kind keep theirs. -/
structure TableOption.Reordered (as bs : List TableOption) : Prop where
  styles : as.filterMap style? = bs.filterMap style?
  distkeys : as.filterMap distkey? = bs.filterMap distkey?
  sortkeys : as.filterMap sortkey? = bs.filterMap sortkey?

/-- The same item, its attributes in another order if it is a column. -/
inductive Item.Reordered : Item → Item → Prop where
  | column {c d : Column} : c.name = d.name → c.type = d.type →
      Attributes.Reordered c.meanings d.meanings → Item.Reordered (.column c) (.column d)
  | constraint (c : Constraint) : Item.Reordered (.constraint c) (.constraint c)

/-- The same statement, the attributes of columns and of the table in another order. -/
structure Reordered (s t : TableTree) : Prop where
  name : s.name = t.name
  temporary : s.temporary.isTemporary = t.temporary.isTemporary
  guard : s.guard.isGuarded = t.guard.isGuarded
  items : List.Forall₂ Item.Reordered s.items t.items
  options : TableOption.Reordered s.options t.options

end TableTree

end EtlFlow.Sql
