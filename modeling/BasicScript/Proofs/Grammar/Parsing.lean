import BasicScript.Proofs.Grammar.Following
import BasicScript.Proofs.Grammar.Fuel

/-! # Programs of token lists

The program of a token list depends on what its tokens are, and on nothing else. -/

namespace BasicScript

open Grammar

theorem Cursor.leads_ofTokens {ts us : List Token} (h : Token.symbols ts = Token.symbols us) :
    (Cursor.ofTokens ts).Leads [] (Cursor.ofTokens us) := by
  rw [Cursor.Leads, List.append_nil]
  exact h.symm

namespace Node

variable {ts us : List Token} {x : Node} {n : Nat}

theorem ofTokens_eq_ok_iff :
    ofTokens ts = .ok x ↔ ∃ c, program (fuelFor ts) (.ofTokens ts) = .ok x c := by
  unfold ofTokens
  cases hr : program (fuelFor ts) (.ofTokens ts) with
  | ok y c =>
      constructor
      · rintro ⟨⟩
        exact ⟨c, rfl⟩
      · rintro ⟨c', ⟨⟩⟩
        rfl
  | error e c =>
      cases e with
      | fault d => simp
      | fuel => simp

/-- The fuel makes no difference, when there is enough. -/
theorem ofTokens_eq_ok_iff_of_le (hn : fuelFor ts ≤ n) :
    ofTokens ts = .ok x ↔ ∃ c, program n (.ofTokens ts) = .ok x c := by
  rw [ofTokens_eq_ok_iff, (program_same ts n hn).1]

/-- A source is no program if it is cut into no tokens, or the tokens make no program. -/
theorem ofSource_eq_error {source : Source} {d : Diagnostic} :
    ofSource source = .error d ↔
      source.tokens = .error d ∨ ∃ ts, source.tokens = .ok ts ∧ ofTokens ts = .error d := by
  unfold ofSource
  cases source.tokens <;> simp [Except.bind]

theorem ofTokens_eq_error_iff {d : Diagnostic} :
    ofTokens ts = .error d ↔ Stops (program (fuelFor ts)) (.ofTokens ts) (.fault d) := by
  have hfuel := (program_same ts (fuelFor ts) (Nat.le_refl _)).2
  unfold ofTokens Stops
  cases hr : program (fuelFor ts) (.ofTokens ts) with
  | ok y c => simp
  | error e c =>
      cases e with
      | fault d => simp
      | fuel => exact absurd hr (hfuel c)

theorem ofTokens_eq_error_iff_of_le {d : Diagnostic} (hn : fuelFor ts ≤ n) :
    ofTokens ts = .error d ↔ Stops (program n) (.ofTokens ts) (.fault d) := by
  rw [ofTokens_eq_error_iff, Stops, Stops, (program_same ts n hn).1]

/-- Tokens that spell the same, wherever they stand, are read as programs that are alike. -/
theorem ofTokens_alike (h : Token.symbols ts = Token.symbols us) (hx : ofTokens ts = .ok x) :
    ∃ y, ofTokens us = .ok y ∧ x.Alike y := by
  have hts := Nat.le_max_left (fuelFor ts) (fuelFor us)
  have hus := Nat.le_max_right (fuelFor ts) (fuelFor us)
  obtain ⟨c, hx⟩ := (ofTokens_eq_ok_iff_of_le hts).mp hx
  obtain ⟨y, c', hy, hxy, -⟩ := program_follows (Cursor.leads_ofTokens h) x c hx
  exact ⟨y, (ofTokens_eq_ok_iff_of_le hus).mpr ⟨c', hy⟩, hxy⟩

end Node

end BasicScript
