/-!
# Binary floating point

Numbers of 53 binary digits, exactly: a finite one is a whole number times a power of two.  A decimal is
read as the number that is nearest to it, and of two that are equally near as the one with the even
mantissa.
-/

namespace EtlFlow.Number

/-- A number of the binary64 format. -/
inductive Real64 where
  /-- `mantissa * 2 ^ exponent`, with its sign. -/
  | finite (negative : Bool) (mantissa : Nat) (exponent : Int)
  | infinite (negative : Bool)
  | nan
  deriving DecidableEq, Repr

namespace Real64

/-- The least exponent, that of the subnormal numbers. -/
def minExponent : Int := -1074

/-- The greatest exponent. -/
def maxExponent : Int := 971

/-- `num / den`, to the nearest whole number and from the middle to the even one. -/
def roundDiv (num den : Nat) : Nat :=
  let q := num / den
  let r := num % den
  if 2 * r < den then q else if den < 2 * r then q + 1 else q + q % 2

/-- A power; one where the exponent is negative. -/
def power (base : Nat) (exponent : Int) : Nat := Nat.pow base exponent.toNat

/-- The exponent of the greatest power of two that is not above `num / den`. -/
def binaryExponent (num den : Nat) : Int :=
  let k : Int := num.log2 - den.log2
  if num * power 2 (-k) < den * power 2 k then k - 1 else k

/-- The number nearest to `num / den`. -/
def ofRatio (negative : Bool) (num den : Nat) : Real64 :=
  if num = 0 then .finite negative 0 minExponent
  else
    let q := max (binaryExponent num den - 52) minExponent
    let m := roundDiv (num * power 2 (-q)) (den * power 2 q)
    let (m, q) := if m = Nat.pow 2 53 then (Nat.pow 2 52, q + 1) else (m, q)
    if maxExponent < q then .infinite negative else .finite negative m q

/-- The number nearest to a whole number. -/
def ofInt (n : Int) : Real64 := ofRatio (n < 0) n.natAbs 1

/-- A power of ten beyond which `digits` decimal digits are no finite number, or zero. -/
def decimalReach : Int := 400

/-- The number nearest to `digits * 10 ^ exponent`. -/
def ofDecimal (negative : Bool) (digits : Nat) (exponent : Int) : Real64 :=
  let size : Int := (Nat.toDigits 10 digits).length + exponent
  if digits = 0 ∨ size < -decimalReach then .finite negative 0 minExponent
  else if decimalReach < size then .infinite negative
  else ofRatio negative (digits * power 10 exponent) (power 10 (-exponent))

/-- The number is neither infinite nor undefined. -/
def isFinite : Real64 → Bool
  | .finite _ _ _ => true
  | _ => false

/-- Equality of values: both zeros are the same, and so are all undefined numbers. -/
def same : Real64 → Real64 → Bool
  | .finite s m q, .finite s' m' q' => m == m' && q == q' && (s == s' || m == 0)
  | a, b => a == b

/-! ### Reading -/

/-- The value of decimal digits. -/
def digitsValue (ds : List Char) : Nat := ds.foldl (fun n d => 10 * n + (d.toNat - '0'.toNat)) 0

/-- The whole number that digits with an optional sign in front spell. -/
def readExponent? (s : List Char) : Option Int :=
  let (negative, ds) : Bool × List Char := match s with
    | '-' :: ds => (true, ds)
    | '+' :: ds => (false, ds)
    | ds => (false, ds)
  if ds.isEmpty ∨ !ds.all Char.isDigit then none
  else some (if negative then -(digitsValue ds : Int) else digitsValue ds)

/-- The number that decimal digits spell, with at most one period among them and an optional exponent
behind. -/
def readUnsigned? (negative : Bool) (s : List Char) : Option Real64 := do
  let whole := s.takeWhile Char.isDigit
  let rest := s.dropWhile Char.isDigit
  let (part, rest) : List Char × List Char := match rest with
    | '.' :: rest => (rest.takeWhile Char.isDigit, rest.dropWhile Char.isDigit)
    | rest => ([], rest)
  if whole.isEmpty ∧ part.isEmpty then none
  else
    let exponent ← match rest with
      | [] => some 0
      | e :: rest => if e = 'e' ∨ e = 'E' then readExponent? rest else none
    some (ofDecimal negative (digitsValue (whole ++ part)) (exponent - part.length))

/-- The number that a decimal spells. -/
def read? : List Char → Option Real64
  | '-' :: s => readUnsigned? true s
  | '+' :: s => readUnsigned? false s
  | s => readUnsigned? false s

end Real64

end EtlFlow.Number
