import BasicScript.Data.Rendering
import BasicScript.Number.Arithmetic

/-!
What the operators do. Numbers are computed with; texts are joined and repeated; lists are extended,
joined, shortened and indexed, always into a new list. Any other pair of operands is refused.
-/

namespace BasicScript

namespace Word

/-- The product of two words, none if it takes more than 64 bits. -/
def product? (a b : UInt64) : Option UInt64 :=
  if a.toBitVec.umulOverflow b.toBitVec then none else some (a * b)

/-- How many copies an integer asks for, as a word. -/
def copies (n : Int64) : UInt64 :=
  if n < 0 then 0 else n.toUInt64

/-- Whether so many copies of a text of `size` bytes are too long, computed with words. -/
def tooLong (size : UInt64) (n : Int64) : Bool :=
  match product? size (copies n) with
  | none => true
  | some bytes => decide (0x10000000 < bytes)

end Word

/-- Computations that read the store and add lists to it, and may be refused. -/
abbrev Operation := EStateM Diagnostic Store

namespace Operation

/-- The longest text, in bytes, that repetition may build: `2 ^ 28`. -/
def longestText : Nat := 0x10000000

/-- A text `n` times over, by doubling. -/
def repeated (s : String) (n : Nat) : String :=
  if n = 0 then ""
  else
    let half := repeated s (n / 2)
    if n % 2 = 0 then half ++ half else half ++ half ++ s
termination_by n

def elements (l : ListRef) : Operation (Array Value) := fun s =>
  .ok (s.elements l) s

/-- A result computed from two operands: it spans both and keeps the frames of the first. -/
def derived (a b : Value) (d : Datum) : Value :=
  ⟨d, a.span.through b.span, a.trace⟩

/-- A new list computed from two operands. -/
def derivedList (a b : Value) (elements : Array Value) : Operation Value := fun s =>
  let (l, s) := s.newList elements
  .ok (derived a b (.list l)) s

def illegal (a b : Value) : Diagnostic :=
  a.failure (a.span.through b.span) "Illegal operation"

/-- What is told when no element has an index. -/
def outOfBounds (verb : String) : String :=
  "Element at this index could not be " ++ verb ++
    " from list because index is out of bounds"

/-- The position in the list `a` of length `length` that the index `b`, the integer `i`, means. -/
def positionOf (a b : Value) (length : Nat) (verb : String) (i : Int) : Operation Nat :=
  match resolveIndex length i with
  | none => throw (a.failure b.span (outOfBounds verb))
  | some p => return p

/-- The position that the index `b`, the number `n`, means. -/
def position (a b : Value) (length : Nat) (n : Number) (verb : String) : Operation Nat :=
  match n.toInt? with
  | none => throw (illegal a b)
  | some i => positionOf a b length verb i

def add (a b : Value) : Operation Value :=
  match a.datum, b.datum with
  | .number x, .number y => return derived a b (.number (x.add y))
  | .text x, .text y => return derived a b (.text (x ++ y))
  | .list l, _ => do derivedList a b ((← elements l).push b)
  | _, _ => throw (illegal a b)

def subtract (a b : Value) : Operation Value :=
  match a.datum, b.datum with
  | .number x, .number y => return derived a b (.number (x.sub y))
  | .list l, .number y => do
    let xs ← elements l
    let p ← position a b xs.size y "removed"
    derivedList a b (xs.eraseIdxIfInBounds p)
  | _, _ => throw (illegal a b)

def multiply (a b : Value) : Operation Value :=
  match a.datum, b.datum with
  | .number x, .number y => return derived a b (.number (x.mul y))
  | .text x, .number y =>
    match y.toInt? with
    | none => throw (illegal a b)
    | some count =>
      if longestText < x.utf8ByteSize * count.toNat then
        throw (a.failure (a.span.through b.span) "String is too long")
      else if x.isEmpty then return derived a b (.text "")
      else return derived a b (.text (repeated x count.toNat))
  | .list l, .list r => do
    let xs ← elements l
    let ys ← elements r
    derivedList a b (xs ++ ys)
  | _, _ => throw (illegal a b)

def divide (a b : Value) : Operation Value :=
  match a.datum, b.datum with
  | .number x, .number y =>
    if y.isZero then throw (a.failure b.span "Division by zero")
    else return derived a b (.number (x.div y))
  | .list l, .number y => do
    let xs ← elements l
    let p ← position a b xs.size y "retrieved"
    return xs[p]?.getD default
  | _, _ => throw (illegal a b)

/-- An operation on numbers alone. -/
def onNumbers (f : Number → Number → Number) (a b : Value) : Operation Value :=
  match a.datum, b.datum with
  | .number x, .number y => return derived a b (.number (f x y))
  | _, _ => throw (illegal a b)

/-- A test on numbers alone; it yields one or zero. -/
def test (f : Number → Number → Bool) (a b : Value) : Operation Value :=
  onNumbers (fun x y => .ofBool (f x y)) a b

def binary : BinaryOp → Value → Value → Operation Value
  | .add => add
  | .subtract => subtract
  | .multiply => multiply
  | .divide => divide
  | .power => onNumbers Number.pow
  | .equal => test Number.equals
  | .notEqual => test fun x y => !x.equals y
  | .less => test Number.lessThan
  | .greater => test fun x y => y.lessThan x
  | .atMost => test Number.atMost
  | .atLeast => test fun x y => y.atMost x
  | .and => test fun x y => !x.isZero && !y.isZero
  | .or => test fun x y => !x.isZero || !y.isZero

def not (a : Value) : Operation Value :=
  match a.datum with
  | .number x => return derived a a (.number (.ofBool x.isZero))
  | _ => throw (illegal a a)

/-- Negation is multiplication by minus one, which comes from the place of the sign. -/
def negate (a : Value) (span : Span) : Operation Value :=
  multiply a ((Value.ofInt (-1)).withSpan span)

end Operation

end BasicScript
