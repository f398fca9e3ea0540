import EtlFlow.Number.Shortest
import EtlFlow.Text.Split
import EtlFlow.Yaml.Value
/-!
# Plain scalars

What a scalar without quotes stands for: null, a truth value, a number, or else a string.  Decimal digits
with a zero in front are a string.
-/

namespace EtlFlow.Yaml.Scalar

open Number (Real64)

/-! ### Null and truth values -/

/-- The text stands for null. -/
def isNull (s : String) : Bool := ["null", "Null", "NULL", "~"].contains s

/-- The truth value that the text stands for. -/
def bool? (s : String) : Option Bool :=
  if ["true", "True", "TRUE"].contains s then some true
  else if ["false", "False", "FALSE"].contains s then some false
  else none

/-! ### Whole numbers -/

/-- The value of a digit, in any base up to sixteen. -/
def digit? (c : Char) : Option Nat :=
  if c.isDigit then some (c.toNat - '0'.toNat)
  else if 'a' ≤ c ∧ c ≤ 'f' then some (c.toNat - 'a'.toNat + 10)
  else if 'A' ≤ c ∧ c ≤ 'F' then some (c.toNat - 'A'.toNat + 10)
  else none

/-- The whole number that digits of a base spell, of which there is at least one. -/
def natural? (base : Nat) (ds : List Char) : Option Nat :=
  if ds.isEmpty then none
  else ds.foldlM (fun n c => (digit? c).bind fun d => if d < base then some (base * n + d) else none) 0

/-- Digits with more than one of them and a zero in front, behind an optional sign. -/
def hasLeadingZero (s : List Char) : Bool :=
  let ds := match s with
    | '-' :: ds | '+' :: ds => ds
    | ds => ds
  match ds with
  | '0' :: d :: r => (d :: r).all Char.isDigit
  | _ => false

/-- The number that digits spell behind the mark of their base; without a mark the base is ten, and a
zero must not stand in front. -/
def unsigned? (s : List Char) : Option Nat :=
  let marked := match s with
    | '0' :: 'x' :: ds => natural? 16 ds
    | '0' :: 'o' :: ds => natural? 8 ds
    | '0' :: 'b' :: ds => natural? 2 ds
    | _ => none
  marked.orElse fun _ => if hasLeadingZero s then none else natural? 10 s

/-- The whole number that a text spells. -/
def integer? (s : List Char) : Option Int :=
  match s with
  | '-' :: ds => (unsigned? ds).map fun n => -(n : Int)
  | '+' :: ds => (unsigned? ds).map Int.ofNat
  | ds => (unsigned? ds).map Int.ofNat

/-- The least whole number that a value can be. -/
def minInt : Int := -0x8000000000000000

/-- The greatest whole number that a value can be. -/
def maxInt : Int := 0xffffffffffffffff

/-- The whole number is too large for a value, but not so large that it is read as a fraction. -/
def isOversized (n : Int) : Bool :=
  (maxInt < n && n.toNat < Nat.pow 2 128) || (n < minInt && n.natAbs ≤ Nat.pow 2 127)

/-! ### Fractions -/

/-- The finite or infinite number that a text spells with a fraction, an exponent, or in words. -/
def real? (s : String) : Option Real64 :=
  if [".inf", ".Inf", ".INF", "+.inf", "+.Inf", "+.INF"].contains s then some (.infinite false)
  else if ["-.inf", "-.Inf", "-.INF"].contains s then some (.infinite true)
  else if [".nan", ".NaN", ".NAN"].contains s then some .nan
  else (Real64.read? s.toList).filter Real64.isFinite

/-! ### Values -/

/-- The value that a plain scalar stands for; none for a whole number that no value can be. -/
def resolve? (s : String) : Option Value :=
  if s = "" ∨ isNull s then some .null
  else
    match bool? s with
    | some b => some (.bool b)
    | none =>
      let fraction := if hasLeadingZero s.toList then none else real? s
      match integer? s.toList with
      | some n =>
        if minInt ≤ n ∧ n ≤ maxInt then some (.int n)
        else if isOversized n then none
        else some ((fraction.map Value.float).getD (.string s))
      | none => some ((fraction.map Value.float).getD (.string s))

/-- The text of a number with a fraction. -/
def realText : Real64 → String
  | .finite negative m q => Real64.signText negative ++ Real64.scientific m q
  | .infinite negative => Real64.signText negative ++ ".inf"
  | .nan => ".nan"

end EtlFlow.Yaml.Scalar
