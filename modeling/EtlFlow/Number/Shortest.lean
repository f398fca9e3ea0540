import EtlFlow.Number.Real64
/-!
# Shortest decimals

The decimal of fewest digits that reads back as a given binary number, and two ways of writing it: with
an exponent where the number is large or small, and without one always.
-/

namespace EtlFlow.Number

/-- `digits * 10 ^ exponent`. -/
structure Decimal where
  digits : Nat
  exponent : Int
  deriving DecidableEq, Repr

namespace Real64

/-! ### The digits -/

/-- `x * 10 ^ s ≤ y * 2 ^ t`. -/
def decimalLE (x : Nat) (s : Int) (y : Nat) (t : Int) : Bool :=
  x * power 10 s * power 2 (-t) ≤ y * power 2 t * power 10 (-s)

/-- `x * 10 ^ s < y * 2 ^ t`. -/
def decimalLT (x : Nat) (s : Int) (y : Nat) (t : Int) : Bool :=
  x * power 10 s * power 2 (-t) < y * power 2 t * power 10 (-s)

/-- The greatest multiple of `10 ^ s` that is not above `m * 2 ^ q`, in units of `10 ^ s`. -/
def gridFloor (m : Nat) (q s : Int) : Nat :=
  m * power 2 q * power 10 (-s) / (power 2 (-q) * power 10 s)

/-- The exponent of the greatest power of ten that is not above `m * 2 ^ q`. -/
def decimalExponent (m : Nat) (q : Int) : Int :=
  let p := (m.log2 + q) * 30103 / 100000 - 1
  if decimalLE 1 (p + 2) m q then p + 2 else if decimalLE 1 (p + 1) m q then p + 1 else p

/-- `c * 10 ^ s` reads back as `m * 2 ^ q`: it lies between the middles to the neighbours of that
number, and on a middle only where the mantissa is even. -/
def readsBack (m : Nat) (q : Int) (c : Nat) (s : Int) : Bool :=
  let high := 4 * m + 2
  let low := if m = Nat.pow 2 52 ∧ minExponent < q then 4 * m - 1 else 4 * m - 2
  if m % 2 = 0 then !decimalLT c s low (q - 2) && decimalLE c s high (q - 2)
  else !decimalLE c s low (q - 2) && decimalLT c s high (q - 2)

/-- The multiple of `10 ^ s` that reads back, the nearer one if there are two next to the number. -/
def onGrid? (m : Nat) (q s : Int) : Option Decimal :=
  let c := gridFloor m q s
  match readsBack m q c s, readsBack m q (c + 1) s with
  | false, false => none
  | true, false => some ⟨c, s⟩
  | false, true => some ⟨c + 1, s⟩
  | true, true =>
    let middle := 2 * c + 1
    if decimalLT middle s (2 * m) q then some ⟨c + 1, s⟩
    else if decimalLE middle s (2 * m) q then some ⟨c + c % 2, s⟩
    else some ⟨c, s⟩

/-- A decimal without the zeros at the end of its digits. -/
def dropZeros : (fuel : Nat) → Decimal → Decimal
  | 0, d => d
  | fuel + 1, d =>
    if d.digits % 10 = 0 ∧ d.digits ≠ 0 then dropZeros fuel ⟨d.digits / 10, d.exponent + 1⟩ else d

/-- The shortest decimal that reads back as `m * 2 ^ q`; seventeen digits are enough. -/
def shortest (m : Nat) (q : Int) : Decimal :=
  if m = 0 then ⟨0, 0⟩
  else
    let p := decimalExponent m q
    dropZeros 17
      (((List.range 17).findSome? fun n : Nat => onGrid? m q (p - n)).getD ⟨gridFloor m q (p - 16), p - 16⟩)

/-! ### Writing -/

/-- Zeros. -/
def zeros (n : Int) : String := String.ofList (List.replicate n.toNat '0')

/-- Digits with a period behind the first `n`; where there are fewer, zeros follow, and where `n` is
not positive, zeros come first. -/
def positional (digits : String) (n : Int) (fraction : String) : String :=
  if n ≤ 0 then "0." ++ zeros (-n) ++ digits
  else if digits.length ≤ n then digits ++ zeros (n - digits.length) ++ fraction
  else
    String.ofList (digits.toList.take n.toNat) ++ "." ++ String.ofList (digits.toList.drop n.toNat)

/-- The sign of a number. -/
def signText (negative : Bool) : String := if negative then "-" else ""

/-- A finite number with a period or an exponent: positional from `10 ^ -5` up to `10 ^ 16`. -/
def scientific (m : Nat) (q : Int) : String :=
  let d := shortest m q
  let digits := toString d.digits
  let point := d.exponent + digits.length
  if -5 < point ∧ point ≤ 16 then positional digits point ".0"
  else
    let rest := digits.toList.drop 1
    String.ofList (digits.toList.take 1) ++ (if rest.isEmpty then "" else "." ++ String.ofList rest) ++
      "e" ++ toString (point - 1)

/-- A number without an exponent. -/
def plain : Real64 → String
  | .finite negative m q =>
    let d := shortest m q
    let digits := toString d.digits
    signText negative ++ positional digits (d.exponent + digits.length) ""
  | .infinite negative => signText negative ++ "inf"
  | .nan => "NaN"

end Real64

end EtlFlow.Number
