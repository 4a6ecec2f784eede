/-!
Blank characters, as the Unicode property White_Space lists them, and the cutting of blanks from
both ends of a text. What is cut is exactly the blank characters at the two ends.
-/

namespace BasicScript.Text

/-- The characters of the Unicode property White_Space. -/
def isBlank (c : Char) : Bool :=
  let n := c.toNat
  (0x9 ≤ n && n ≤ 0xd) || n == 0x20 || n == 0x85 || n == 0xa0 || n == 0x1680 ||
  (0x2000 ≤ n && n ≤ 0x200a) || n == 0x2028 || n == 0x2029 || n == 0x202f ||
  n == 0x205f || n == 0x3000

/-- A text without the blanks at its end. -/
def trimEndBlanks (cs : List Char) : List Char :=
  (cs.reverse.dropWhile isBlank).reverse

/-- A text without the blanks at its two ends. -/
def trimBlanks (s : String) : String :=
  String.ofList (trimEndBlanks (s.toList.dropWhile isBlank))

end BasicScript.Text
