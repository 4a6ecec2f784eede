import BasicScript.Token.Scan

/-! # How lexemes begin

The first character of a text says what the lexeme at its front is. -/

namespace BasicScript.Scan

variable {c : Char} {r : List Char} {l : Lexeme}

/-- The lexeme at the front of the text `c :: r`, read off `c`. -/
inductive LexemeAt (c : Char) (r : List Char) : Lexeme → Prop
  | gap (hc : isGap c) : LexemeAt c r (.skip 0)
  | comment (hc : c = '#') : LexemeAt c r (.skip (r.takeWhile (· != '\n')).length)
  | string {l : Lexeme} (hc : c = '"') (hl : string r = .ok l) : LexemeAt c r l
  | notEqual (hc : c = '!') (hr : r.head? = some '=') : LexemeAt c r (.mark 1 .notEqual)
  | number (hc : c.isDigit) : LexemeAt c r (.ofNumber (c :: r))
  | word (hc : c.isAlpha) : LexemeAt c r (.ofWord (c :: r))
  | mark {l : Lexeme} (hl : mark? c r = some l) : LexemeAt c r l

theorem lexemeAt_of_lexeme (h : lexeme c r = .ok l) : LexemeAt c r l := by
  unfold lexeme at h
  by_cases hgap : isGap c
  · rw [if_pos hgap] at h
    cases h
    exact .gap hgap
  rw [if_neg hgap] at h
  by_cases hcomment : c = '#'
  · rw [if_pos hcomment] at h
    cases h
    exact .comment hcomment
  rw [if_neg hcomment] at h
  by_cases hquote : c = '"'
  · rw [if_pos hquote] at h
    exact .string hquote h
  rw [if_neg hquote] at h
  by_cases hbang : c = '!'
  · rw [if_pos hbang] at h
    by_cases hequal : r.head? = some '='
    · rw [if_pos hequal] at h
      cases h
      exact .notEqual hbang hequal
    · rw [if_neg hequal] at h
      cases h
  rw [if_neg hbang] at h
  by_cases hdigit : c.isDigit
  · rw [if_pos hdigit] at h
    cases h
    exact .number hdigit
  rw [if_neg hdigit] at h
  by_cases halpha : c.isAlpha
  · rw [if_pos halpha] at h
    cases h
    exact .word halpha
  rw [if_neg halpha] at h
  cases hmark : mark? c r with
  | none =>
      rw [hmark] at h
      cases h
  | some l' =>
      rw [hmark] at h
      cases h
      exact .mark hmark

/-! ## No character begins two lexemes -/

theorem isDigit_eq_false_of_isAlpha (hc : c.isAlpha) : c.isDigit = false := by
  have hletter : 'A'.val ≤ c.val := by
    obtain h | h : c.isUpper = true ∨ c.isLower = true := (Bool.or_eq_true _ _).mp hc
    · exact (of_decide_eq_true h).1
    · have ha : 'a'.val ≤ c.val := of_decide_eq_true ((Bool.and_eq_true _ _).mp h).1
      exact UInt32.le_trans (by decide) ha
  have hle : ¬ c.val ≤ '9'.val := fun h9 => absurd (UInt32.le_trans hletter h9) (by decide)
  simp only [Char.isDigit, decide_eq_false hle, Bool.and_false]

theorem lexeme_of_isAlphanum (hc : c.isAlphanum) (r : List Char) :
    lexeme c r = .ok (if c.isDigit then .ofNumber (c :: r) else .ofWord (c :: r)) := by
  have hne (d : Char) (hd : d.isAlphanum = false) : c ≠ d := by
    rintro rfl
    exact absurd hc (by simp [hd])
  have hgap : isGap c = false := by
    simp [isGap, hne ' ' (by decide), hne '\t' (by decide), hne '\r' (by decide)]
  rw [lexeme, if_neg (by simp [hgap]), if_neg (hne '#' (by decide)), if_neg (hne '"' (by decide)),
    if_neg (hne '!' (by decide))]
  by_cases hdigit : c.isDigit
  · rw [if_pos hdigit, if_pos hdigit]
  · have halpha : c.isAlpha := by simpa [Char.isAlphanum, hdigit] using hc
    rw [if_neg hdigit, if_neg hdigit, if_pos halpha]

theorem lexeme_of_isDigit (hc : c.isDigit) (r : List Char) :
    lexeme c r = .ok (.ofNumber (c :: r)) := by
  rw [lexeme_of_isAlphanum (by simp [Char.isAlphanum, hc]), if_pos hc]

theorem lexeme_of_isAlpha (hc : c.isAlpha) (r : List Char) :
    lexeme c r = .ok (.ofWord (c :: r)) := by
  rw [lexeme_of_isAlphanum (by simp [Char.isAlphanum, hc]),
    if_neg (by simp [isDigit_eq_false_of_isAlpha hc])]

theorem lexeme_of_mark (hl : mark? c r = some l) : lexeme c r = .ok l := by
  unfold mark? at hl
  split at hl
  · rename_i hsingle
    unfold single? at hsingle
    split at hsingle <;> cases hsingle <;> cases hl <;> rfl
  · obtain ⟨marks, hextensible, rfl⟩ := Option.map_eq_some_iff.mp hl
    unfold extensible? at hextensible
    split at hextensible <;> cases hextensible <;> rfl

theorem lexeme_iff : lexeme c r = .ok l ↔ LexemeAt c r l := by
  refine ⟨lexemeAt_of_lexeme, fun h => ?_⟩
  cases h with
  | gap hc => rw [lexeme, if_pos hc]
  | comment hc =>
      subst hc
      rfl
  | string hc hl =>
      subst hc
      exact hl
  | notEqual hc hr =>
      subst hc
      exact if_pos hr
  | number hc => exact lexeme_of_isDigit hc r
  | word hc => exact lexeme_of_isAlpha hc r
  | mark hl => exact lexeme_of_mark hl

end BasicScript.Scan
