import BasicScript.Program.Grammar
import BasicScript.Proofs.Sequencing

/-! # Steps of reading

What the primitive steps of reading do, and what a sequence of steps comes down to. -/

namespace BasicScript

namespace Cursor

variable {c : Cursor}

theorem peek_of_rest_nil (h : c.rest = []) : c.peek = c.finish := by
  simp [peek, h]

theorem peek_of_rest_cons {t : Token} {r : List Token} (h : c.rest = t :: r) : c.peek = t := by
  simp [peek, h]

theorem rest_ne_nil (h : c.peek.kind ≠ .endOfInput) : c.rest ≠ [] := by
  intro hnil
  rw [peek_of_rest_nil hnil, c.kind_finish] at h
  exact h rfl

theorem advance_of_rest_cons {t : Token} {r : List Token} (h : c.rest = t :: r) :
    c.advance = { c with before := t.span, rest := r } := by
  simp [advance, h]

theorem advance_of_rest_nil (h : c.rest = []) : c.advance = c := by
  simp [advance, h]

theorem peekSecond_eq (h : c.rest ≠ []) : c.peekSecond = c.advance.peek := by
  obtain ⟨t, r, hr⟩ := List.exists_cons_of_ne_nil h
  rw [advance_of_rest_cons hr, peekSecond, peek, hr, List.tail_cons]

theorem kind_of_rest_nil (h : c.rest = []) : c.peek.kind = .endOfInput := by
  rw [peek_of_rest_nil h, c.kind_finish]

theorem rest_behindNewlines (c : Cursor) :
    c.behindNewlines.rest = c.rest.dropWhile (·.kind = .newline) := by
  have hsplit := List.takeWhile_append_dropWhile (p := (·.kind = .newline)) (l := c.rest)
  calc
    c.rest.drop (c.rest.takeWhile (·.kind = .newline)).length
      = (c.rest.takeWhile (·.kind = .newline) ++ c.rest.dropWhile (·.kind = .newline)).drop
          (c.rest.takeWhile (·.kind = .newline)).length := by rw [hsplit]
    _ = c.rest.dropWhile (·.kind = .newline) := List.drop_left

/-- Newlines are passed over one by one. -/
theorem behindNewlines_advance (h : c.peek.kind = .newline) :
    c.advance.behindNewlines = c.behindNewlines := by
  have hne : c.rest ≠ [] := rest_ne_nil (by simp [h])
  obtain ⟨t, r, hrest⟩ := List.exists_cons_of_ne_nil hne
  rw [peek_of_rest_cons hrest] at h
  rw [advance_of_rest_cons hrest]
  cases hr : r.takeWhile (·.kind = .newline) <;>
    simp [behindNewlines, hrest, h, hr, List.getLast?_cons]

theorem behindNewlines_of_kind_ne (h : c.peek.kind ≠ .newline) : c.behindNewlines = c := by
  have hblank : c.rest.takeWhile (·.kind = .newline) = [] := by
    cases hrest : c.rest with
    | nil => rfl
    | cons t r =>
        rw [peek_of_rest_cons hrest] at h
        exact List.takeWhile_cons_of_neg (by simpa using h)
  simp [behindNewlines, hblank]

theorem rest_ofTokens {ts : List Token} {t : Token} (hts : ∀ u ∈ ts, u.kind ≠ .endOfInput)
    (ht : t.kind = .endOfInput) (us : List Token) : (ofTokens (ts ++ t :: us)).rest = ts := by
  rw [ofTokens, List.takeWhile_append_of_pos (by simpa using hts)]
  simp [ht]

end Cursor

namespace Grammar

variable {α β : Type} {c c' c'' : Cursor}

/-! ## Primitive steps -/

theorem peek_bind (f : Token → Reader α) : (peek >>= f) c = f c.peek c :=
  rfl

theorem peekKind_bind (f : TokenKind → Reader α) : (peekKind >>= f) c = f c.peek.kind c :=
  rfl

theorem get_bind (f : Cursor → Reader α) : ((get : Reader Cursor) >>= f) c = f c c :=
  rfl

theorem next_bind (f : Token → Reader α) : (next >>= f) c = f c.peek c.advance :=
  rfl

theorem skipNewlines_bind (f : Unit → Reader α) :
    (skipNewlines >>= f) c = f () c.behindNewlines :=
  rfl

theorem accept_bind (kind : TokenKind) (f : Bool → Reader α) :
    (accept kind >>= f) c = if c.peek.kind = kind then f true c.advance else f false c := by
  by_cases h : c.peek.kind = kind <;> simp [accept, bind, EStateM.bind, h]

theorem expect_bind (kind : TokenKind) (fault : GrammarFault) (f : Token → Reader α) :
    (expect kind fault >>= f) c =
      if c.peek.kind = kind then f c.peek c.advance
      else .error (.fault (fault.diagnostic c.peek.span)) c := by
  by_cases h : c.peek.kind = kind <;> simp [expect, bind, EStateM.bind, h]

end Grammar

end BasicScript
