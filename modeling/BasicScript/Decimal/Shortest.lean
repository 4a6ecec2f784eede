import BasicScript.Decimal.Dyadic

/-!
The fewest decimal digits that read back as a given double. The reals that round to the double form
an interval around it; the digits are those of a point of the coarsest decimal grid that meets the
interval, the nearest such point, and the upper one when two are equally near.
-/

namespace BasicScript.Decimal

/-- A decimal `digits * 10 ^ scale`. -/
structure Scaled where
  digits : Nat
  scale : Int
deriving Repr, DecidableEq

/-- The quotient `numerator / denominator * 10 ^ (-scale)` of positive numbers, as a pair. -/
def rescale (numerator denominator : Nat) (scale : Int) : Nat × Nat :=
  match scale with
  | .ofNat s => (numerator, denominator * Nat.pow 10 s)
  | .negSucc s => (numerator * Nat.pow 10 (s + 1), denominator)

/-- The reals that round to a positive double, in quarters of its last place: `center` is the
double itself and `unit / scale` the value of one quarter. The ends belong to the interval when the
mantissa is even. -/
structure Interval where
  low : Nat
  center : Nat
  high : Nat
  closed : Bool
deriving Repr, DecidableEq

/-- Below the least mantissa of its exponent a double is twice as close to its lower neighbour. -/
def Dyadic.interval (d : Dyadic) : Interval where
  low := if d.mantissa = hiddenBit ∧ leastExponent < d.exponent
    then 4 * d.mantissa - 1 else 4 * d.mantissa - 2
  center := 4 * d.mantissa
  high := 4 * d.mantissa + 2
  closed := d.mantissa % 2 == 0

/-- One quarter of a double's last place, as a quotient. -/
def Dyadic.quarter (d : Dyadic) : Nat × Nat :=
  match d.exponent - 2 with
  | .ofNat e => (Nat.pow 2 e, 1)
  | .negSucc e => (1, Nat.pow 2 (e + 1))

/-- The point of the grid `10 ^ scale` that stands for the double: of the two points around it one
that lies in the interval, the nearer if both do, the upper on a tie. -/
def Dyadic.onGrid? (d : Dyadic) (scale : Int) : Option Nat :=
  let i := d.interval
  let (num, den) := rescale d.quarter.1 d.quarter.2 scale
  let below := i.center * num / den
  let rest := i.center * num - below * den
  let above := below + 1
  let lowHit := if i.closed then i.low * num ≤ below * den else i.low * num < below * den
  let highHit := if i.closed then above * den ≤ i.high * num else above * den < i.high * num
  if rest = 0 then some below
  else if lowHit then
    if highHit ∧ den ≤ 2 * rest then some above else some below
  else if highHit then some above
  else none

/-- The decimal exponent of the first digit of a positive fraction: the greatest `k` with
`10 ^ k` at most the fraction, searched upwards from a lower bound. -/
def leadingPlace (num den : Nat) : Int → Nat → Int
  | k, 0 => k
  | k, fuel + 1 =>
    let (n, d) := rescale num den (k + 1)
    if d ≤ n then leadingPlace num den (k + 1) fuel else k

/-- The exponent of the first digit of a positive double. The count of binary digits gives it up to
two places. -/
def Dyadic.leadingPlace (d : Dyadic) : Int :=
  let binary : Int := d.mantissa.log2 + d.exponent
  let start : Int := (binary * 30103).fdiv 100000 - 1
  Decimal.leadingPlace (4 * d.mantissa * d.quarter.1) d.quarter.2 start 4

/-- The decimal that is equal to a positive double, with all its digits. -/
def Dyadic.exact (d : Dyadic) : Scaled :=
  match d.exponent with
  | .ofNat e => ⟨d.mantissa * Nat.pow 2 e, 0⟩
  | .negSucc e => ⟨d.mantissa * Nat.pow 5 (e + 1), .negSucc e⟩

/-- The same decimal with one zero less at its end, if there is one. -/
def Scaled.dropZero (s : Scaled) : Scaled :=
  if s.digits % 10 = 0 then ⟨s.digits / 10, s.scale + 1⟩ else s

/-- The decimal of fewest digits that reads back as the positive double `d`, and of those the
nearest. The grids of one digit, two digits and so on are tried in turn; seventeen digits always
suffice. A nine may be carried to a ten. -/
def Dyadic.shortest (d : Dyadic) : Scaled :=
  let place := d.leadingPlace
  let onGrid (less : Nat) : Option Scaled :=
    (d.onGrid? (place - less)).map fun digits => Scaled.dropZero ⟨digits, place - less⟩
  ((List.range 17).findSome? onGrid).getD d.exact

end BasicScript.Decimal
