/-!
Doubles as exact binary fractions. A finite double is a sign and `mantissa * 2 ^ exponent`; the
rest are the two infinities and the values that are no number.
-/

namespace BasicScript.Decimal

/-- A finite double in exact form: `mantissa * 2 ^ exponent` with a sign. The mantissa is below
`2 ^ 53` and the exponent at least `-1074`. -/
structure Dyadic where
  negative : Bool
  mantissa : Nat
  exponent : Int
deriving Repr, DecidableEq

/-- What a double stands for. -/
inductive Reading where
  | finite (value : Dyadic)
  | infinite (negative : Bool)
  | notANumber
deriving Repr, DecidableEq

/-- The least exponent of a double. -/
def leastExponent : Int := -1074

/-- The number of fractions, `2 ^ 52`. It is also the least mantissa of a double of more than the
least exponent, whose highest bit is not stored. -/
def hiddenBit : Nat := 0x10000000000000

/-- The number of exponent fields, `2 ^ 11`. -/
def fieldCount : Nat := 0x800

/-- Reads the three fields of a double: one sign bit, eleven exponent bits, 52 fraction bits. -/
def Reading.ofBits (bits : UInt64) : Reading :=
  let n := bits.toNat
  let negative := n / hiddenBit / fieldCount == 1
  let field := n / hiddenBit % fieldCount
  let fraction := n % hiddenBit
  if field = fieldCount - 1 then
    if fraction = 0 then .infinite negative else .notANumber
  else if field = 0 then
    .finite ⟨negative, fraction, leastExponent⟩
  else
    .finite ⟨negative, hiddenBit + fraction, leastExponent + (field - 1 : Nat)⟩

def Reading.ofFloat (x : Float) : Reading := .ofBits x.toBits

/-- The integer a fraction is equal to, if it is whole. -/
def Dyadic.toInt? (d : Dyadic) : Option Int :=
  let magnitude : Option Nat :=
    match d.exponent with
    | .ofNat e => some (d.mantissa * Nat.pow 2 e)
    | .negSucc e =>
      let unit := Nat.pow 2 (e + 1)
      if d.mantissa % unit = 0 then some (d.mantissa / unit) else none
  magnitude.map fun m => if d.negative then -(m : Int) else m

end BasicScript.Decimal
