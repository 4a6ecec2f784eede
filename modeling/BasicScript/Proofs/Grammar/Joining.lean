import BasicScript.Proofs.Grammar.Parsing
import BasicScript.Proofs.Token.Moving

/-! # Programs one behind another

A program, a newline and another program make up a program, whose statements are those of the two.
-/

namespace BasicScript

/-- A newline, wherever it stands. -/
def Symbol.line : Symbol :=
  ⟨.newline, none⟩

namespace Cursor

variable {c c' : Cursor}

theorem behindNewlines_eq_self (h : c.rest.takeWhile (·.kind = .newline) = []) :
    c.behindNewlines = c := by
  simp [behindNewlines, h]

theorem behindNewlines_behindNewlines (c : Cursor) :
    c.behindNewlines.behindNewlines = c.behindNewlines := by
  have takeWhile_dropWhile (ts : List Token) :
      (ts.dropWhile (·.kind = .newline)).takeWhile (·.kind = .newline) = [] := by
    induction ts with
    | nil => rfl
    | cons t r ih =>
        by_cases h : t.kind = .newline <;> simp [h, ih]
  exact behindNewlines_eq_self (by rw [rest_behindNewlines, takeWhile_dropWhile])

/-- Behind nothing but newlines the tail follows. -/
theorem Leads.of_newlines {tail : List Symbol} (h : c.Leads (.line :: tail) c')
    (hc : c.behindNewlines.rest = []) {d : Cursor} (hd : tail = d.rest.map Token.symbol) :
    d.behindNewlines.Leads [] c'.behindNewlines := by
  have symbols (ts : List Token) : (ts.dropWhile (·.kind = .newline)).map Token.symbol =
      (ts.map Token.symbol).dropWhile (·.kind = .newline) := by
    rw [List.dropWhile_map]
    rfl
  rw [rest_behindNewlines] at hc
  rw [Leads, rest_behindNewlines, rest_behindNewlines, symbols, symbols, h, List.dropWhile_append,
    ← symbols, hc, List.append_nil, hd]
  rfl

end Cursor

namespace Grammar

variable {c₁ c₁' c₂ d d' : Cursor}

/-- Newlines in front make no difference to a list of statements. -/
theorem statementsLoop_behindNewlines (n : Nat) (done : List Node) (c : Cursor) :
    statementsLoop (n + 1) done c.behindNewlines = statementsLoop (n + 1) done c := by
  unfold statementsLoop
  rw [skipNewlines_bind, skipNewlines_bind, Cursor.behindNewlines_behindNewlines]

/-- Where a program has only newlines left, the next program is read. -/
theorem statementsLoop_next {n m : Nat} (done : List Node) {lines : List Node}
    (h : c₁.Leads (.line :: d.rest.map Token.symbol) c₂) (hc : c₁.behindNewlines.rest = [])
    (hn : 20 * d.rest.length + 20 ≤ n + 1) (hm : 20 * d.rest.length + 20 ≤ m)
    (hd : statementsLoop m [] d = .ok lines d') :
    ∃ lines' c₂', statementsLoop (n + 1) done c₂ = .ok (done.reverse ++ lines') c₂' ∧
      List.Forall₂ Node.Alike lines lines' ∧ d'.Leads [] c₂' := by
  have hsame : statementsLoop m [] d = statementsLoop (n + 1) [] d :=
    ((settled d).statementsLoop [] m (n + 1) hm hn).1
  rw [hsame, ← statementsLoop_behindNewlines] at hd
  obtain ⟨l, c₂', hl, ⟨k, lines', hk, rfl, halike⟩, hlead⟩ :=
    (following severed_nil (n + 1)).statementsLoop [] done (h.of_newlines hc rfl) lines d' hd
      (.inr rfl)
  rw [statementsLoop_behindNewlines] at hl
  rw [List.reverse_nil, List.nil_append] at hk
  exact ⟨lines', c₂', hl, hk ▸ halike, hlead⟩

/-- Statement by statement, what is read of the first program is read of the two, and behind its
last statement the second program is read. -/
theorem statementsLoop_joins {n m : Nat} {done₁ lines₁ lines₂ : List Node}
    (done₂ : List Node) (h : c₁.Leads (.line :: d.rest.map Token.symbol) c₂)
    (hn : 20 * c₂.rest.length + 20 ≤ n) (h₁ : statementsLoop n done₁ c₁ = .ok lines₁ c₁')
    (hend : c₁'.rest = []) (hm : 20 * d.rest.length + 20 ≤ m)
    (h₂ : statementsLoop m [] d = .ok lines₂ d') :
    ∃ k k₁ k₂ c₂', statementsLoop n done₂ c₂ = .ok (done₂.reverse ++ (k₁ ++ k₂)) c₂' ∧
      lines₁ = done₁.reverse ++ k ∧ List.Forall₂ Node.Alike k k₁ ∧
      List.Forall₂ Node.Alike lines₂ k₂ ∧ d'.Leads [] c₂' := by
  have hs : Severed (.line :: d.rest.map Token.symbol) := by simp [Severed, Symbol.line]
  have length {c₁ c₂ : Cursor} (h : c₁.Leads (.line :: d.rest.map Token.symbol) c₂) :
      c₂.rest.length = c₁.rest.length + 1 + d.rest.length := by
    have hlen := congrArg List.length h
    simp only [List.length_map, List.length_append, List.length_cons] at hlen
    omega
  induction n generalizing done₁ done₂ c₁ c₂ with
  | zero => omega
  | succ n ih =>
      have hlen := length h
      unfold statementsLoop at h₁
      rw [skipNewlines_bind, peekKind_bind] at h₁
      split at h₁
      · -- nothing but newlines is left
        cases h₁
        obtain ⟨k₂, c₂', hk₂, halike, hlead⟩ :=
          statementsLoop_next (n := n) (m := m) done₂ h hend (by omega) hm h₂
        exact ⟨[], [], k₂, c₂', by simpa using hk₂, by simp, .nil, halike, hlead⟩
      · rename_i hends
        have hne : c₁.behindNewlines.rest ≠ [] := by
          intro hnil
          rw [Cursor.kind_of_rest_nil hnil] at hends
          exact hends rfl
        have hbehind := h.behindNewlines (.inl hne)
        obtain ⟨line, c₃, hline, h₁⟩ := ok_of_bind h₁
        obtain ⟨line', c₄, hline', hlines, h⟩ :=
          (following hs n).statement hbehind line c₃ hline
        have hshort : c₂.behindNewlines.rest.length ≤ c₂.rest.length := by
          rw [Cursor.rest_behindNewlines]
          exact (List.dropWhile_suffix _).length_le
        have hread := ((progress n).statement _ line' c₄ hline').length_le
        have hlen₄ := length h
        unfold statementsLoop
        rw [skipNewlines_bind, peekKind_bind, ← hbehind.kind hne, if_neg hends,
          bind_of_ok hline', peekKind_bind]
        rw [peekKind_bind] at h₁
        split at h₁
        · rename_i hk
          rw [← h.kind (Cursor.rest_ne_nil (by simp [hk])), if_pos hk]
          obtain ⟨k, k₁, k₂, c₂', hc₂', rfl, hk₁, hk₂, hlead⟩ :=
            ih (line' :: done₂) h (by omega) h₁
          exact ⟨line :: k, line' :: k₁, k₂, c₂', by simp [hc₂'], by simp, .cons hlines hk₁, hk₂,
            hlead⟩
        · -- the first program ends with this statement
          cases h₁
          have hnewline : c₄.peek.kind = .newline := by
            have hrest := h
            rw [Cursor.Leads, hend, List.map_nil, List.nil_append] at hrest
            obtain ⟨t, r, hr, ht, -⟩ := List.map_eq_cons_iff.mp hrest
            rw [Cursor.peek_of_rest_cons hr]
            exact congrArg Symbol.kind ht
          have hnil : c₁'.behindNewlines.rest = [] := by
            rw [Cursor.rest_behindNewlines, hend, List.dropWhile_nil]
          obtain ⟨n, rfl⟩ : ∃ i, n = i + 1 := ⟨n - 1, by omega⟩
          obtain ⟨k₂, c₂', hk₂, halike, hlead⟩ :=
            statementsLoop_next (n := n) (m := m) (line' :: done₂) h hnil (by omega) hm h₂
          rw [if_pos hnewline]
          exact ⟨[line], [line'], k₂, c₂', by simp [hk₂], by simp, .cons hlines .nil, halike,
            hlead⟩

end Grammar

namespace Cursor

theorem ne_endOfInput_of_reaches {ts : List Token} {c : Cursor} {k : Nat}
    (h : (ofTokens ts).Reaches k c) : ∀ t ∈ c.rest, t.kind ≠ .endOfInput := by
  obtain ⟨-, read, hread, -⟩ := h
  intro t ht
  have hmem : t ∈ ts.takeWhile (·.kind != .endOfInput) := by
    show t ∈ (ofTokens ts).rest
    rw [hread]
    exact List.mem_append_right read ht
  simpa using List.all_eq_true.mp List.all_takeWhile t hmem

/-- Behind the last token that a program is made of there is none. -/
theorem rest_eq_nil {ts : List Token} {c : Cursor} {k : Nat} (h : (ofTokens ts).Reaches k c)
    (hk : c.peek.kind = .endOfInput) : c.rest = [] := by
  cases hr : c.rest with
  | nil => rfl
  | cons t r =>
      rw [peek_of_rest_cons hr] at hk
      exact absurd hk (ne_endOfInput_of_reaches h t (hr ▸ List.mem_cons_self))

end Cursor

namespace Node

open Grammar

/-- What a program is read as, its statements in particular. -/
theorem ofTokens_eq_list {ts : List Token} {x : Node} (h : ofTokens ts = .ok x) :
    ∃ lines c, x = .list lines (statementsSpan (Cursor.ofTokens ts).peek.span.start lines) ∧
      statementsLoop (fuelFor ts - 1) [] (.ofTokens ts) = .ok lines c ∧ c.rest = [] := by
  obtain ⟨c', h⟩ := ofTokens_eq_ok_iff.mp h
  unfold program at h
  obtain ⟨x', c, hx, h⟩ := ok_of_bind h
  rw [peekKind_bind] at h
  split at h
  · rename_i hk
    cases h
    have hrest := Cursor.rest_eq_nil ((progress _).statements _ _ _ hx) hk
    obtain ⟨n, hn⟩ : ∃ n, fuelFor ts = n + 1 := ⟨fuelFor ts - 1, by unfold fuelFor; omega⟩
    rw [hn] at hx ⊢
    unfold statements at hx
    rw [peek_bind] at hx
    obtain ⟨lines, c, hlines, hx⟩ := ok_of_bind hx
    cases hx
    exact ⟨lines, _, rfl, hlines, hrest⟩
  · cases h

theorem ofSource_eq_ok {s : Source} {x : Node} (h : ofSource s = .ok x) :
    ∃ ts, s.tokens = .ok ts ∧ ofTokens ts = .ok x := by
  unfold ofSource at h
  cases hts : s.tokens with
  | error d => rw [hts] at h; cases h
  | ok ts =>
      rw [hts] at h
      exact ⟨ts, rfl, h⟩

/-- Statements that end with the tokens make up a program. -/
theorem ofTokens_eq_ok {ts : List Token} {lines : List Node} {c : Cursor}
    (h : statementsLoop (fuelFor ts - 1) [] (.ofTokens ts) = .ok lines c) (hc : c.rest = []) :
    ofTokens ts =
      .ok (.list lines (statementsSpan (Cursor.ofTokens ts).peek.span.start lines)) := by
  refine ofTokens_eq_ok_iff.mpr ⟨c, ?_⟩
  obtain ⟨n, hn⟩ : ∃ n, fuelFor ts = n + 1 := ⟨fuelFor ts - 1, by unfold fuelFor; omega⟩
  rw [hn, Nat.add_sub_cancel] at h
  rw [hn]
  have hstatements : statements (n + 1) (.ofTokens ts) = .ok
      (.list lines (statementsSpan (Cursor.ofTokens ts).peek.span.start lines)) c := by
    unfold statements
    rw [peek_bind, bind_of_ok h]
    rfl
  unfold program
  rw [bind_of_ok hstatements, peekKind_bind, if_pos (Cursor.kind_of_rest_nil hc)]
  rfl

/-- Tokens of a program, a newline and tokens of another are those of the two programs in one. -/
theorem ofTokens_joins {ts us vs : List Token} {x y : Node}
    (h : Token.symbols vs = Token.symbols ts ++ .line :: Token.symbols us)
    (hx : ofTokens ts = .ok x) (hy : ofTokens us = .ok y) :
    ∃ xs ys xs' ys' s t u, x = .list xs s ∧ y = .list ys t ∧
      ofTokens vs = .ok (.list (xs' ++ ys') u) ∧ List.Forall₂ Alike xs xs' ∧
      List.Forall₂ Alike ys ys' := by
  obtain ⟨xs, c, rfl, hxs, hc⟩ := ofTokens_eq_list hx
  obtain ⟨ys, d, rfl, hys, hd⟩ := ofTokens_eq_list hy
  have length (ts : List Token) :
      20 * (Cursor.ofTokens ts).rest.length + 20 ≤ fuelFor ts - 1 := by
    have hlen : (Cursor.ofTokens ts).rest.length ≤ ts.length := (List.takeWhile_prefix _).length_le
    unfold fuelFor
    omega
  have hleads : (Cursor.ofTokens ts).Leads
      (.line :: (Cursor.ofTokens us).rest.map Token.symbol) (.ofTokens vs) := h
  have hshort : (Cursor.ofTokens ts).rest.length ≤ (Cursor.ofTokens vs).rest.length := by
    have hlen := congrArg List.length hleads
    simp only [List.length_map, List.length_append] at hlen
    omega
  -- the first program is read with the fuel for all tokens
  have hvs := length vs
  have hsame : statementsLoop (fuelFor ts - 1) [] (.ofTokens ts) =
      statementsLoop (fuelFor vs - 1) [] (.ofTokens ts) :=
    ((settled _).statementsLoop [] _ _ (length ts) (by omega)).1
  rw [hsame] at hxs
  obtain ⟨k, xs', ys', c', hlines, hk, hxs', hys', hlead⟩ :=
    statementsLoop_joins [] hleads hvs hxs hc (length us) hys
  rw [List.reverse_nil, List.nil_append] at hk hlines
  subst hk
  have hc' : c'.rest = [] := by
    rw [Cursor.Leads, hd] at hlead
    exact List.map_eq_nil_iff.mp hlead
  exact ⟨xs, ys, xs', ys', _, _, _, rfl, rfl, ofTokens_eq_ok hlines hc', hxs', hys'⟩

/-- The text of a program, a newline and the text of another are the text of the two in one. -/
theorem ofSource_joins {name t₁ t₂ : String} {x y : Node} (hx : ofSource ⟨name, t₁⟩ = .ok x)
    (hy : ofSource ⟨name, t₂⟩ = .ok y) :
    ∃ xs ys xs' ys' s t u, x = .list xs s ∧ y = .list ys t ∧
      ofSource ⟨name, t₁ ++ "\n" ++ t₂⟩ = .ok (.list (xs' ++ ys') u) ∧
      List.Forall₂ Alike xs xs' ∧ List.Forall₂ Alike ys ys' := by
  obtain ⟨ts, hts, hx⟩ := ofSource_eq_ok hx
  obtain ⟨us, hus, hy⟩ := ofSource_eq_ok hy
  obtain ⟨vs, hvs, hsymbols⟩ := Source.symbols_joins hts hus
  rw [show ofSource ⟨name, t₁ ++ "\n" ++ t₂⟩ = ofTokens vs by rw [ofSource, hvs]; rfl]
  exact ofTokens_joins hsymbols hx hy

end Node

end BasicScript
