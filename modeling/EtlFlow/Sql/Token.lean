import EtlFlow.Sql.Keyword
/-!
# SQL tokens

What the reader of SQL text hands on: words, numbers, literals, placeholders, punctuation and
operators.  Blanks and comments give no token.  `Token.text` shows a token in messages and in default
values; `Token.nameText` shows a word with its opening quote on both sides.
-/

namespace EtlFlow.Sql

/-- The kinds of text literal. -/
inductive LiteralKind where
  | plain
  | national
  | escaped
  | hex
  /-- Between two copies of `$tag$`. -/
  | dollar (tag : String)
  deriving DecidableEq, Repr

/-- A token of SQL text that is neither blank nor comment. -/
inductive Token where
  /-- A word; `quote` is the delimiter that opened it. -/
  | word (value : String) (quote : Option Char)
  /-- A number; `long` says that the letter L follows its digits. -/
  | number (digits : String) (long : Bool)
  | literal (kind : LiteralKind) (value : String)
  | placeholder (name : String)
  | comma
  | period
  | semicolon
  | lparen
  | rparen
  | operator (text : String)
  deriving DecidableEq, Repr

/-- The delimiter that closes a quoted word. -/
def closingQuote (q : Char) : Char := if q = '[' then ']' else q

namespace Token

/-- How a token is shown.  Literals and quoted words are shown with their values unescaped. -/
def text : Token → String
  | .word v none => v
  | .word v (some q) => String.ofList (q :: v.toList ++ [closingQuote q])
  | .number d long => if long then d ++ "L" else d
  | .literal .plain v => "'" ++ v ++ "'"
  | .literal .national v => "N'" ++ v ++ "'"
  | .literal .escaped v => "E'" ++ v ++ "'"
  | .literal .hex v => "X'" ++ v ++ "'"
  | .literal (.dollar tag) v => "$" ++ tag ++ "$" ++ v ++ "$" ++ tag ++ "$"
  | .placeholder n => "$" ++ n
  | .comma => ","
  | .period => "."
  | .semicolon => ";"
  | .lparen => "("
  | .rparen => ")"
  | .operator t => t

/-- The name that a word stands for, with the delimiter that opened it on both sides. -/
def nameText (value : String) : Option Char → String
  | none => value
  | some q => String.ofList (q :: value.toList ++ [q])

/-- The token is the keyword `k`. -/
def isKeyword (k : String) : Token → Bool
  | .word v none => capitalised v == k
  | _ => false

/-- The token is a bare word that differs from `w` in the case of ASCII letters at most. -/
def isWord (w : String) : Token → Bool
  | .word v none => Text.sameAscii v w
  | _ => false

/-- The token is a quoted word, or a bare one that is no keyword. -/
def isPlainName : Token → Bool
  | .word v none => !keywords.contains (capitalised v)
  | .word _ (some _) => true
  | _ => false

end Token

/-- The text of the next token, or `EOF` behind the last one. -/
def nextText : List Token → String
  | [] => "EOF"
  | t :: _ => t.text

end EtlFlow.Sql
