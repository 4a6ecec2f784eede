import BasicScript.Number.Basic
import BasicScript.Text.Blank

/-!
Numbers read from text. Plain digits denote an integer when it fits in 64 bits; every other decimal
denotes the nearest double. A literal of the language is a run of digits with at most one point; an
entered number may also have blanks around it, a sign and an exponent.
-/

namespace BasicScript

namespace Decimal

/-- The number that a run of decimal digits denotes. -/
def ofDigits (ds : List Char) : Nat :=
  ds.foldl (fun n c => 10 * n + (c.toNat - '0'.toNat)) 0

/-- The double nearest to the digits `ds` times a power of ten. Outside the powers that doubles
reach the answer is infinity or zero. -/
def nearest (ds : List Char) (scale : Int) : Float :=
  let significant := ds.dropWhile (· == '0')
  let magnitude : Int := significant.length + scale
  if significant.isEmpty ∨ magnitude < -330 then 0.0
  else if 310 < magnitude then 1.0 / 0.0
  else Float.ofScientific (ofDigits significant) (decide (scale < 0)) scale.natAbs

/-- Splits a leading sign off; true is minus. -/
def splitSign : List Char → Bool × List Char
  | '-' :: r => (true, r)
  | '+' :: r => (false, r)
  | r => (false, r)

/-- An optional exponent at the end of a decimal: `e` or `E`, a sign, digits. -/
def exponent? : List Char → Option Int
  | [] => some 0
  | e :: r =>
    let (negative, ds) := splitSign r
    if (e == 'e' || e == 'E') && !ds.isEmpty && ds.all Char.isDigit then
      let n : Int := ofDigits ds
      some (if negative then -n else n)
    else none

/-- An unsigned decimal: digits with at most one point, at least one digit, an optional
exponent. -/
def unsigned? (cs : List Char) : Option Float :=
  let whole := cs.takeWhile Char.isDigit
  let (places, rest) :=
    match cs.dropWhile Char.isDigit with
    | '.' :: r => (r.takeWhile Char.isDigit, r.dropWhile Char.isDigit)
    | r => ([], r)
  if whole.isEmpty && places.isEmpty then none
  else (exponent? rest).map fun e => nearest (whole ++ places) (e - places.length)

/-- A double: an optional sign, then a decimal or one of the names of infinity and of no number in
any case. -/
def float? (cs : List Char) : Option Float :=
  let (negative, rest) := splitSign cs
  let name := rest.map Char.toLower
  let magnitude :=
    if name == ['i', 'n', 'f'] || name == ['i', 'n', 'f', 'i', 'n', 'i', 't', 'y'] then
      some (1.0 / 0.0)
    else if name == ['n', 'a', 'n'] then some (0.0 / 0.0)
    else unsigned? rest
  magnitude.map fun x => if negative then -x else x

/-- An integer: an optional sign and at least one digit. -/
def int? (cs : List Char) : Option Int :=
  let (negative, ds) := splitSign cs
  if !ds.isEmpty && ds.all Char.isDigit then
    let n : Int := ofDigits ds
    some (if negative then -n else n)
  else none

end Decimal

namespace Number

/-- The number that entered text stands for: blanks around it do not count, and an integer that
fits is preferred to a double. -/
def ofText? (s : String) : Option Number :=
  let cs := (Text.trimBlanks s).toList
  match (Decimal.int? cs).bind ofInt? with
  | some n => some n
  | none => (Decimal.float? cs).map .float

/-- The number that a literal stands for: a run of digits that fits is an integer, and any other
run of digits with at most one point a double. -/
def ofLiteral (cs : List Char) : Number :=
  let whole := cs.takeWhile Char.isDigit
  match cs.dropWhile Char.isDigit with
  | [] => (ofInt? (Decimal.ofDigits whole)).getD (.float (Decimal.nearest whole 0))
  | _ :: places => .float (Decimal.nearest (whole ++ places) (-places.length))

end Number

end BasicScript
