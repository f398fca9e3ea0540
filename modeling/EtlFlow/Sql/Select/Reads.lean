import EtlFlow.Sql.Error
import EtlFlow.Sql.Grammar
/-!
# The relations a query reads

The names behind FROM and JOIN, wherever a query or a subquery may start; a FROM inside the
parentheses of a function is none of them.  Names bound by a WITH clause are left out, and of names
that differ in case alone the first counts.
-/

namespace EtlFlow.Sql.Select

open Grammar

/-! ### One list of relations -/

/-- The dotted parts behind the first part of a name, with their periods. -/
def moreParts : List Token → String × List Token
  | .period :: .word v q :: ts =>
    let (n, r) := moreParts ts
    ("." ++ Token.nameText v q ++ n, r)
  | ts => ("", ts)

/-- The relation named next, if one is. -/
def relation? : List Token → Option (String × List Token)
  | .word v q :: ts =>
    if (Token.word v q).isKeyword "SELECT" ∨ (Token.word v q).isKeyword "LATERAL" then none
    else
      let (n, r) := moreParts ts
      some (Token.nameText v q ++ n, r)
  | _ => none

/-- The tokens behind the alias of a relation, where it has one. -/
def skipAlias (ts : List Token) : List Token :=
  if atKeyword "AS" ts then ts.drop 2
  else if ts.head?.any Token.isPlainName then ts.drop 1
  else ts

theorem moreParts_length (ts : List Token) : (moreParts ts).2.length ≤ ts.length := by
  fun_induction moreParts ts with
  | case1 v q ts n r h ih => simp only [h, List.length_cons] at ih ⊢; omega
  | case2 => exact Nat.le_refl _

theorem relation?_length {ts r : List Token} {n : String} (h : relation? ts = some (n, r)) :
    r.length < ts.length := by
  unfold relation? at h
  split at h
  · rename_i v q ts
    split at h
    · cases h
    · cases h
      have := moreParts_length ts
      simp only [List.length_cons]
      omega
  · cases h

theorem skipAlias_length (ts : List Token) : (skipAlias ts).length ≤ ts.length := by
  unfold skipAlias
  split
  · simp
  split
  · simp
  · exact Nat.le_refl _

/-- The relations of a list with commas, aliases left out, and the tokens behind it. -/
def relationList (ts : List Token) : List String × List Token :=
  match _h : relation? ts with
  | none => ([], ts)
  | some (n, r) =>
    match _h' : skipAlias r with
    | .comma :: r' =>
      let (ns, r'') := relationList r'
      (n :: ns, r'')
    | r' => ([n], r')
termination_by ts.length
decreasing_by
  have := relation?_length _h
  have h' := skipAlias_length r
  simp only [_h', List.length_cons] at h'
  omega

theorem relationList_length (ts : List Token) : (relationList ts).2.length ≤ ts.length := by
  fun_induction relationList ts with
  | case1 => exact Nat.le_refl _
  | case2 ts n r h r' h' ns r'' e ih =>
    have := relation?_length h
    have ha := skipAlias_length r
    simp only [h', List.length_cons] at ha
    simp only [e] at ih
    dsimp only
    omega
  | case3 ts n r h _ =>
    have := relation?_length h
    have ha := skipAlias_length r
    dsimp only
    omega

/-! ### A whole query -/

/-- The tokens begin `name AS (SELECT`, without the name. -/
def bindsQuery : List Token → Bool
  | as :: .lparen :: select :: _ => as.isKeyword "AS" && select.isKeyword "SELECT"
  | _ => false

/-- What a scan of a query finds: names behind FROM and JOIN, and names bound by WITH. -/
structure Reads where
  relations : List String
  bound : List String

/-- The scan of a query.  `parens` tells of each open parenthesis, the innermost first, whether a
query starts in it. -/
def reads (parens : List Bool) : List Token → Reads
  | [] => ⟨[], []⟩
  | .lparen :: ts => reads ((atKeyword "SELECT" ts || atKeyword "WITH" ts) :: parens) ts
  | .rparen :: ts => reads parens.tail ts
  | .word v q :: ts =>
    if bindsQuery ts then
      let rest := reads parens ts
      { rest with bound := Token.nameText v q :: rest.bound }
    else if ((Token.word v q).isKeyword "FROM" ∨ (Token.word v q).isKeyword "JOIN") ∧
        parens.head?.getD true then
      let list := relationList ts
      let rest := reads parens list.2
      { rest with relations := list.1 ++ rest.relations }
    else reads parens ts
  | _ :: ts => reads parens ts
termination_by ts => ts.length
decreasing_by
  all_goals have := relationList_length ts; simp only [List.length_cons]; omega

/-- The names without those that repeat an earlier one in some case. -/
def distinctNames (names : List String) : List String :=
  names.foldl (fun seen n => if seen.any (Text.sameAscii · n) then seen else seen ++ [n]) []

/-- The relations that a query reads, in the order of their first mention. -/
def dependencies (sql : String) : Except Error (List String) :=
  match Token.scan sql with
  | .error e => .error (.lexical e)
  | .ok ts =>
    let found := reads [] ts
    .ok ((distinctNames found.relations).filter fun n => !found.bound.any (Text.sameAscii · n))

end EtlFlow.Sql.Select
