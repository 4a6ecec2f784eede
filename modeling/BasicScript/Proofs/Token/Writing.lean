import BasicScript.Proofs.Program.Printing
import BasicScript.Proofs.Token.Lexemes

/-! # Writing tokens

Every token but the end of input can be written down, most of them in more than one way. A text in
which tokens are written with blanks between them is cut into these tokens again. -/

namespace BasicScript

/-- A character inside a string. Quotes and backslashes are escaped. A newline or a tab stands as it
is if it is `raw`, and is else written with a letter. -/
def Quoted.character (c : Char) (raw : Bool) : List Char :=
  if c = '"' ∨ c = '\\' then ['\\', c]
  else if raw then [c]
  else if c = '\n' then ['\\', 'n']
  else if c = '\t' then ['\\', 't']
  else [c]

/-- A token with the choices that its spelling leaves: a newline may be a semicolon, an integer may
have zeros in front, a double is spelled by its digits, and newlines and tabs of a string may stand
as they are. -/
inductive Writing where
  | newline (semicolon : Bool)
  | mark (k : TokenKind) (hk : k ∈ TokenKind.marks)
  | keyword (k : TokenKind) (hk : k ∈ TokenKind.keywords)
  | identifier (c : Char) (cs : List Char) (hc : c.isAlpha) (hcs : ∀ d ∈ cs, Scan.isWordChar d)
      (hk : ∀ k ∈ TokenKind.keywords, k.spelling? ≠ some (String.ofList (c :: cs)))
  | int (zeros n : Nat) (hn : n < 0x8000000000000000)
  | float (ds places : List Char) (hne : ds ≠ []) (hds : ∀ d ∈ ds, d.isDigit)
      (hplaces : ∀ d ∈ places, d.isDigit)
  | string (cs : List (Char × Bool))

namespace Writing

/-- What is written. The value of a double is what its spelling is read as. -/
def symbol : Writing → Symbol
  | newline _ => .mark .newline
  | mark k _ => .mark k
  | keyword k _ => .word k
  | identifier c cs .. => .name (String.ofList (c :: cs))
  | int _ n _ => .number (.int (Int64.ofInt n))
  | float ds places .. =>
    ⟨.float, (Decimal.float? (ds ++ '.' :: places)).map fun x => .number (.float x)⟩
  | string cs => .text (String.ofList (cs.map Prod.fst))

def spelling : Writing → List Char
  | newline semicolon => [if semicolon then ';' else '\n']
  | mark k _ | keyword k _ => (k.spelling?.getD "").toList
  | identifier c cs .. => c :: cs
  | int zeros n _ => List.replicate zeros '0' ++ (toString n).toList
  | float ds places .. => ds ++ '.' :: places
  | string cs => '"' :: (cs.flatMap (fun (c, raw) => Quoted.character c raw) ++ ['"'])

end Writing

/-! ## What is written is spelled -/

theorem Quoted.of_character {cs text : List Char} (h : Quoted cs text) (c : Char) (raw : Bool) :
    Quoted (character c raw ++ cs) (c :: text) := by
  by_cases hescaped : c = '"' ∨ c = '\\'
  · rw [character, if_pos hescaped]
    rcases hescaped with rfl | rfl <;> exact .escaped (by decide) (by decide) h
  · have hplain : Quoted (c :: cs) (c :: text) := by
      rw [not_or] at hescaped
      exact .plain hescaped.1 hescaped.2 h
    rw [character, if_neg hescaped]
    by_cases hraw : raw
    · rw [if_pos hraw]
      exact hplain
    rw [if_neg hraw]
    by_cases hnewline : c = '\n'
    · subst hnewline
      exact .newline h
    rw [if_neg hnewline]
    by_cases htab : c = '\t'
    · subst htab
      exact .tab h
    · rw [if_neg htab]
      exact hplain

theorem Quoted.of_characters (cs : List (Char × Bool)) :
    Quoted (cs.flatMap fun (c, raw) => character c raw) (cs.map Prod.fst) := by
  induction cs with
  | nil => exact .nil
  | cons p cs ih => exact ih.of_character p.1 p.2

/-- Zeros in front make no difference to a number. -/
theorem Decimal.ofDigitChars_padded (zeros n : Nat) :
    Nat.ofDigitChars 10 (List.replicate zeros '0' ++ (toString n).toList) 0 = n := by
  rw [Nat.ofDigitChars_append, Nat.ofDigitChars_replicate_zero, Nat.mul_zero,
    Nat.toString_eq_repr, Nat.toList_repr]
  exact Nat.ofDigitChars_ten_toDigits

theorem Decimal.padded_isDigit (zeros n : Nat) :
    ∀ d ∈ List.replicate zeros '0' ++ (toString n).toList, d.isDigit := by
  intro d hd
  rcases List.mem_append.mp hd with hzero | hdigit
  · rw [List.eq_of_mem_replicate hzero]
    rfl
  · rw [Nat.toString_eq_repr, Nat.toList_repr] at hdigit
    exact Nat.isDigit_of_mem_toDigits (by decide) (by decide) hdigit

/-- An integer is written as its digits, with a minus in front of those of a negative one. -/
theorem Decimal.toString_of_neg {z : Int} (hz : z < 0) :
    (toString z).toList = '-' :: (toString z.natAbs).toList := by
  cases z with
  | ofNat k => exact absurd (Int.natCast_nonneg k) (Int.not_le.mpr hz)
  | negSucc k => simp [toString, Int.repr]

theorem Decimal.toString_of_nonneg {z : Int} (hz : 0 ≤ z) : toString z = toString z.natAbs := by
  cases z with
  | ofNat k => rfl
  | negSucc k => exact absurd (Int.negSucc_lt_zero k) (Int.not_lt.mpr hz)

theorem TokenKind.spelling?_of_mem {k : TokenKind} (hk : k ∈ marks ∨ k ∈ keywords) :
    ∃ s, k.spelling? = some s := by
  revert hk
  cases k <;> first | exact fun _ => ⟨_, rfl⟩ | exact fun hk => absurd hk (by decide)

/-- A digit is no sign. -/
theorem Decimal.splitSign_of_isDigit {c : Char} (hc : c.isDigit) (cs : List Char) :
    splitSign (c :: cs) = (false, c :: cs) := by
  unfold splitSign
  split
  · rename_i h
    cases h
    cases hc
  · rename_i h
    cases h
    cases hc
  · rfl

/-- A digit begins no name of a double. -/
theorem Decimal.float?_of_isDigit {c : Char} (hc : c.isDigit) (cs : List Char) :
    float? (c :: cs) = unsigned? (c :: cs) := by
  have hne (d : Char) (hd : d.isDigit = false) : c ≠ d := by
    rintro rfl
    simp [hd] at hc
  have hlower : c.toLower = c := by
    have hhigh : c.val ≤ '9'.val := of_decide_eq_true ((Bool.and_eq_true _ _).mp hc).2
    exact dif_neg fun hupper => absurd (UInt32.le_trans hupper.1 hhigh) (by decide)
  simp [float?, splitSign_of_isDigit hc, hlower, hne 'i' (by decide), hne 'n' (by decide)]

/-- Digits, a point and digits are read as a double. -/
theorem Decimal.float?_of_places {ds places : List Char} (hne : ds ≠ [])
    (hds : ∀ d ∈ ds, d.isDigit) (hplaces : ∀ d ∈ places, d.isDigit) :
    float? (ds ++ '.' :: places) = some (nearest (ds ++ places) (-places.length)) := by
  obtain ⟨c, r, hcons, hc⟩ := Scan.exists_cons_of_digits hne hds ('.' :: places)
  rw [hcons, float?_of_isDigit hc, ← hcons, unsigned?]
  rw [List.takeWhile_append_of_pos hds, List.dropWhile_append_of_pos hds]
  simp [List.takeWhile_eq_self_iff.mpr hplaces, List.dropWhile_eq_nil_iff.mpr hplaces, hne,
    exponent?]

theorem Writing.spelled (w : Writing) : Spelled w.symbol.kind w.symbol.literal w.spelling := by
  cases w with
  | newline semicolon =>
      refine .newline ?_
      cases semicolon
      · exact .inl rfl
      · exact .inr rfl
  | mark k hk =>
      obtain ⟨s, hs⟩ := TokenKind.spelling?_of_mem (.inl hk)
      have hspelled : Spelled k none s.toList := .mark hk (by simp [hs])
      simpa [symbol, Symbol.mark, spelling, hs] using hspelled
  | keyword k hk =>
      obtain ⟨s, hs⟩ := TokenKind.spelling?_of_mem (.inr hk)
      have hspelled : Spelled k (some (.text (String.ofList s.toList))) s.toList :=
        .keyword hk (by simp [hs])
      simpa [symbol, Symbol.word, spelling, hs] using hspelled
  | identifier c cs hc hcs hk => exact .identifier hc hcs hk
  | int zeros n hn =>
      have hne : List.replicate zeros '0' ++ (toString n).toList ≠ [] := by
        simp [Nat.toString_eq_repr]
      refine .int hne (Decimal.padded_isDigit zeros n) ?_
      rw [spelling, Decimal.ofDigitChars_padded]
      exact Number.toInt_ofInt_of_fits (Number.fits_of_lt hn)
  | float ds places hne hds hplaces =>
      simp only [symbol, Decimal.float?_of_places hne hds hplaces]
      exact .decimal hne hds hplaces
  | string cs => exact .string (.of_characters cs)

/-! ## What is spelled is scanned -/

namespace Scan

theorem blank_delimits : Delimits ' ' :=
  ⟨by decide, by decide, by decide, by decide⟩

/-- A spelled token is taken as it stands if the text ends behind it, or a character follows that
delimits it. -/
theorem run_spelled {k : TokenKind} {literal : Option Literal} {cs rest : List Char}
    (h : Spelled k literal cs) (hrest : ∀ d ∈ rest.head?, Delimits d) (p : Position)
    (done : List Token) :
    run p done (cs ++ rest) =
      run (p.advances cs) (⟨k, literal, ⟨p, p.advances cs⟩⟩ :: done) rest := by
  obtain ⟨c, r, rfl, hlexeme, -⟩ := h.takes
  have hwhole : lexeme c (r ++ rest) = .ok ⟨r.length, some (k, literal)⟩ := by
    cases rest with
    | nil => simpa using hlexeme
    | cons d u => exact lexeme_delimited hlexeme (by simp) (hrest d rfl) u
  have hafter : after p c (r ++ rest) r.length = p.advances (c :: r) := by
    rw [after, List.take_left]
    rfl
  rw [List.cons_append, run, hwhole]
  simp only [hafter, List.drop_left]

/-- Tokens that are written with blanks between them are scanned one by one. -/
theorem run_written (ws : List Writing) (p : Position) (done : List Token) :
    (run p done (List.intercalate [' '] (ws.map Writing.spelling))).map (·.map Token.symbol) =
      .ok (done.reverse.map Token.symbol ++ (ws.map Writing.symbol ++ [⟨.endOfInput, none⟩])) := by
  induction ws generalizing p done with
  | nil =>
      rw [List.map_nil, List.intercalate_nil, run]
      simp [Except.map, Token.symbol]
  | cons w ws ih =>
      cases ws with
      | nil =>
          have hrun : run p done (w.spelling ++ []) = _ := run_spelled w.spelled (by simp) p done
          rw [List.append_nil] at hrun
          rw [List.map_singleton, List.intercalate_singleton, hrun, run]
          simp [Except.map, Token.symbol]
      | cons w' ws =>
          have hblank (p : Position) (done : List Token) (r : List Char) :
              run p done (' ' :: r) = run (p.advance ' ') done r := by
            rw [run]
            rfl
          rw [List.map_cons, List.map_cons, List.intercalate_cons_cons, List.append_assoc,
            List.singleton_append, run_spelled w.spelled (by simpa using blank_delimits), hblank,
            ← List.map_cons, ih]
          simp [Token.symbol]

end Scan

/-- Whatever tokens are written, with blanks between them, the text is cut into these tokens and the
end of input. -/
theorem Source.tokens_written (name : String) (ws : List Writing) :
    (tokens ⟨name, String.intercalate " " (ws.map (String.ofList ·.spelling))⟩).map
        (·.map Token.symbol) = .ok (ws.map Writing.symbol ++ [⟨.endOfInput, none⟩]) := by
  have htext : (String.intercalate " " (ws.map (String.ofList ·.spelling))).toList =
      List.intercalate [' '] (ws.map Writing.spelling) := by
    rw [String.toList_intercalate, List.map_map]
    congr 2
    funext w
    exact String.toList_ofList
  rw [tokens, htext]
  exact Scan.run_written ws _ []

end BasicScript
