/-!
Text as lines. A newline ends a line and belongs to none, so a text has one line more than it has
newlines, and the lines with newlines between them are the text again.
-/

namespace BasicScript.Text

/-- Puts a character in front of a text that is already cut into lines. -/
def consLine (c : Char) (lines : List (List Char)) : List (List Char) :=
  if c = '\n' then [] :: lines else (c :: lines.headD []) :: lines.tail

/-- The lines of a text, without their newlines. -/
def lines (cs : List Char) : List (List Char) :=
  cs.foldr consLine [[]]

@[simp] theorem lines_nil : lines [] = [[]] := rfl

@[simp] theorem lines_cons (c : Char) (cs : List Char) : lines (c :: cs) = consLine c (lines cs) :=
  rfl

theorem lines_ne_nil (cs : List Char) : lines cs ≠ [] := by
  cases cs with
  | nil => simp
  | cons c cs => by_cases h : c = '\n' <;> simp [consLine, h]

theorem length_lines (cs : List Char) : (lines cs).length = cs.count '\n' + 1 := by
  induction cs with
  | nil => rfl
  | cons c cs ih =>
    by_cases h : c = '\n'
    · subst h
      rw [lines_cons, consLine, if_pos rfl, List.length_cons, ih, List.count_cons_self]
    · have hn : 0 < (lines cs).length := by omega
      simp [consLine, h]
      omega

end BasicScript.Text
