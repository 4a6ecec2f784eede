import BasicScript.Number.Basic
import BasicScript.Decimal.Shortest

/-!
How numbers are written. Integers are plain digits. A whole double is written with all its digits
and one decimal, any other finite double with the fewest digits that read back; an exponent is
never used.
-/

namespace BasicScript

namespace Decimal

/-- A decimal with a fraction, in positional notation. -/
def Scaled.positional (s : Scaled) : String :=
  let digits := (toString s.digits).toList
  match s.scale with
  | .ofNat e => String.ofList (digits ++ List.replicate e '0')
  | .negSucc e =>
    let places := e + 1
    let padded := List.replicate (places + 1 - digits.length) '0' ++ digits
    let whole := padded.length - places
    String.ofList (padded.take whole ++ '.' :: padded.drop whole)

/-- A finite double: a whole one with one decimal, any other by its shortest digits. -/
def Dyadic.text (d : Dyadic) : String :=
  let sign := if d.negative then "-" else ""
  match d.toInt? with
  | some n => sign ++ toString n.natAbs ++ ".0"
  | none => sign ++ d.shortest.positional

def Reading.text : Reading → String
  | .finite d => d.text
  | .infinite false => "inf"
  | .infinite true => "-inf"
  | .notANumber => "NaN"

end Decimal

def Number.text : Number → String
  | .int n => toString n.toInt
  | .float x => (Decimal.Reading.ofFloat x).text

end BasicScript
