import BasicScript.Decimal.Dyadic

/-!
Numbers: 64-bit integers and doubles. The two kinds compare by value, and a double that is whole
and in range serves wherever an integer is wanted.
-/

namespace BasicScript

inductive Number where
  | int (n : Int64)
  | float (x : Float)

namespace Number

instance : Inhabited Number := ⟨.int 0⟩

/-- Whether an integer fits in 64 bits. -/
def fits (n : Int) : Bool :=
  -0x8000000000000000 ≤ n && n < 0x8000000000000000

/-- The integer number `n`, if it fits. -/
def ofInt? (n : Int) : Option Number :=
  if fits n then some (.int (Int64.ofInt n)) else none

/-- The number that a test yields: one or zero. -/
def ofBool (b : Bool) : Number :=
  .int (if b then 1 else 0)

/-- The double nearest to a number. -/
def toFloat : Number → Float
  | .int n => Float.ofInt n.toInt
  | .float x => x

/-- The integer a number is exactly equal to, if it fits in 64 bits. -/
def toInt? : Number → Option Int
  | .int n => some n.toInt
  | .float x =>
    match Decimal.Reading.ofFloat x with
    | .finite d => d.toInt?.filter fits
    | _ => none

def isZero (a : Number) : Bool :=
  a.toFloat == 0.0

/-- Equality of values: integers exactly, all else as doubles. -/
def equals : Number → Number → Bool
  | .int a, .int b => a == b
  | a, b => a.toFloat == b.toFloat

/-- Order of values: integers exactly, all else as doubles. -/
def lessThan : Number → Number → Bool
  | .int a, .int b => a < b
  | a, b => a.toFloat < b.toFloat

def atMost : Number → Number → Bool
  | .int a, .int b => a ≤ b
  | a, b => a.toFloat ≤ b.toFloat

/-- How two numbers compare; none if one of them is no number. -/
def compare? (a b : Number) : Option Ordering :=
  if a.lessThan b then some .lt
  else if b.lessThan a then some .gt
  else if a.equals b then some .eq
  else none

end Number

/-- Maps an index that may count from the end onto the positions `0, …, length - 1`. A length that
is no 64-bit integer has no indices. -/
def resolveIndex (length : Nat) (index : Int) : Option Nat :=
  let position := if index < 0 then index + length else index
  if 0 ≤ position ∧ position < length ∧ Number.fits length then some position.toNat else none

end BasicScript
