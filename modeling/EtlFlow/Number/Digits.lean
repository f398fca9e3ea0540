/-!
# Numbers in decimal digits

Whole numbers as they are written in settings: ASCII digits behind an optional sign, and nothing else; and
digits of a fixed width.
-/

namespace EtlFlow.Number

/-- The number that decimal digits spell, of which there is at least one. -/
def digits? (ds : List Char) : Option Nat :=
  if ds ≠ [] ∧ ds.all Char.isDigit then
    some (ds.foldl (fun n d => 10 * n + (d.toNat - '0'.toNat)) 0)
  else none

/-- The number below `bound` that a text spells, behind an optional plus. -/
def natural? (bound : Nat) (s : List Char) : Option Nat :=
  (digits? (match s with
    | '+' :: ds => ds
    | ds => ds)).filter (· < bound)

/-- The number from `-bound` to `bound - 1` that a text spells, behind an optional sign. -/
def integer? (bound : Nat) (s : List Char) : Option Int :=
  (match s with
    | '-' :: ds => (digits? ds).map fun n => -(n : Int)
    | s => (natural? bound s).map Int.ofNat).filter (-(bound : Int) ≤ ·)

/-- The decimal digits of a number, with zeros in front up to a width. -/
def padded (width n : Nat) : String :=
  let ds := toString n
  String.ofList (List.replicate (width - ds.length) '0') ++ ds

end EtlFlow.Number
