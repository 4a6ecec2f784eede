import BasicScript.Number.Basic

/-!
Arithmetic on numbers. Integers stay integers as long as the exact result fits in 64 bits; an
operation that overflows, or meets a double, is carried out on doubles. Division always yields a
double.
-/

namespace BasicScript.Number

/-- Carries out an operation exactly on integers where that fits, and else on doubles. -/
def combine (exact : Int → Int → Option Int) (rounded : Float → Float → Float) :
    Number → Number → Number
  | .int a, .int b =>
    ((exact a.toInt b.toInt).bind ofInt?).getD
      (.float (rounded (Number.int a).toFloat (Number.int b).toFloat))
  | a, b => .float (rounded a.toFloat b.toFloat)

def add : Number → Number → Number :=
  combine (fun a b => some (a + b)) (· + ·)

def sub : Number → Number → Number :=
  combine (fun a b => some (a - b)) (· - ·)

def mul : Number → Number → Number :=
  combine (fun a b => some (a * b)) (· * ·)

/-- The quotient as a double; a zero divisor is the caller's concern. -/
def div (a b : Number) : Number :=
  .float (a.toFloat / b.toFloat)

/-- The exponents at and above this bound, `2 ^ 32`, leave the integers, whatever the base. -/
def exponentBound : Int := 0x100000000

/-- An integer power, if the exponent is not negative and below the bound and the result may fit:
a base of two or more in size leaves 64 bits before the exponent 64. -/
def power? (base exponent : Int) : Option Int :=
  if exponent < 0 ∨ exponentBound ≤ exponent then none
  else if base.natAbs ≤ 1 then
    if exponent = 0 then some 1
    else if exponent % 2 = 0 then some (base * base)
    else some base
  else if exponent < 64 then some (Int.pow base exponent.toNat)
  else none

def pow : Number → Number → Number :=
  combine power? Float.pow

end BasicScript.Number
