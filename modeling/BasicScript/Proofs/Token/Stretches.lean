import BasicScript.Proofs.Program.Printing
import BasicScript.Proofs.Token.Tiling

/-! # Stretches of a text

The text from the start of one token to the end of another, taken by itself, is cut into the same
tokens and the end of input: every tiling is what the scan yields, and a tiling may begin with any of
its tokens and end behind any other. -/

namespace BasicScript

/-- Only the character behind it matters to a gap. -/
theorem Gap.of_head? {gap r r' : List Char} (h : Gap gap r) (hr : r.head? = r'.head?) :
    Gap gap r' := by
  induction h with
  | nil => exact .nil r'
  | blank hc _ ih => exact .blank hc (ih hr)
  | @comment text cs r htext hend _ ih =>
      refine .comment htext (fun c hc => hend c ?_) (ih hr)
      rw [List.head?_append] at hc ⊢
      rw [hr]
      exact hc

namespace Scan

/-! ## What is tiled is scanned -/

/-- What yields no token yields none in front of any other text. -/
theorem lexeme_skips {c : Char} {r : List Char} {l : Lexeme} (h : lexeme c r = .ok l)
    (hl : l.token = none) (r' : List Char) : ∃ more, lexeme c r' = .ok (.skip more) := by
  cases lexeme_iff.mp h with
  | gap hc => exact ⟨_, lexeme_iff.mpr (.gap hc)⟩
  | comment hc => exact ⟨_, lexeme_iff.mpr (.comment hc)⟩
  | string _ hstring =>
      obtain ⟨k, literal, htoken, -⟩ := spelled_of_string hstring
      rw [htoken] at hl
      cases hl
  | mark hmark =>
      obtain ⟨k, htoken, -⟩ := spelled_of_mark hmark
      rw [htoken] at hl
      cases hl
  | notEqual => cases hl
  | number => cases hl
  | word => cases hl

theorem run_of_skip {c : Char} {r : List Char} {more : Nat} (h : lexeme c r = .ok (.skip more))
    (p : Position) (done : List Token) :
    run p done (c :: r) = run (p.advances (c :: r.take more)) done (r.drop more) := by
  rw [run, h]
  rfl

theorem run_gap {gap r : List Char} (h : Gap gap r) (p : Position) (done : List Token) :
    run p done (gap ++ r) = run (p.advances gap) done r := by
  induction h generalizing p with
  | nil => rfl
  | @blank c cs r hc _ ih =>
      rw [List.cons_append, run_of_skip (lexeme_iff.mpr (.gap hc)), List.take_zero, List.drop_zero,
        ih, ← advances_append, List.singleton_append]
  | @comment text cs r htext hend _ ih =>
      have hplain : ∀ c ∈ text, (c != '\n') = true := by
        intro c hc
        refine bne_iff_ne.mpr ?_
        rintro rfl
        exact htext hc
      have hrest : (cs ++ r).takeWhile (· != '\n') = [] := by
        cases hcs : cs ++ r with
        | nil => rfl
        | cons c cs =>
            rw [hend c (by rw [hcs]; rfl)]
            rfl
      have htake : (text ++ (cs ++ r)).takeWhile (· != '\n') = text := by
        rw [List.takeWhile_append_of_pos hplain, hrest, List.append_nil]
      rw [List.cons_append, List.append_assoc, run_of_skip (lexeme_iff.mpr (.comment rfl)), htake,
        List.take_left, List.drop_left, ih, ← advances_append, List.cons_append]

/-- The longest text that spells a token is the lexeme in front. -/
theorem run_longest {k : TokenKind} {literal : Option Literal} {cs rest : List Char}
    (h : Spelled k literal cs)
    (hlongest : ∀ ds, ds ≠ [] → ds <+: rest → ∀ k literal, ¬Spelled k literal (cs ++ ds))
    (p : Position) (done : List Token) :
    run p done (cs ++ rest) =
      run (p.advances cs) (⟨k, literal, ⟨p, p.advances cs⟩⟩ :: done) rest := by
  obtain ⟨c, r, rfl, halone, htakes⟩ := h.takes
  obtain ⟨l, hl, hle⟩ := htakes rest
  have htake : (r ++ rest).take l.more = r ++ rest.take (l.more - r.length) := by
    rw [List.take_append, List.take_of_length_le hle]
  rcases lexeme_spells hl with ⟨k', literal', htoken, hspelled⟩ | ⟨hnone, -⟩
  · rw [htake, ← List.cons_append] at hspelled
    have hmore : rest.take (l.more - r.length) = [] := by
      by_contra hne
      exact hlongest _ hne (List.take_prefix _ _) _ _ hspelled
    rw [hmore, List.append_nil] at hspelled htake
    obtain ⟨rfl, rfl⟩ := h.unique hspelled
    have hafter : after p c (r ++ rest) l.more = p.advances (c :: r) := by
      rw [after_eq_advances, htake]
    have hdrop : (r ++ rest).drop l.more = rest := by
      have hsplit := List.take_append_drop l.more (r ++ rest)
      rw [htake] at hsplit
      exact List.append_cancel_left hsplit
    rw [List.cons_append, run, hl]
    simp only [htoken, hafter, hdrop]
  · obtain ⟨more, hskip⟩ := lexeme_skips hl hnone r
    rw [halone] at hskip
    cases hskip

/-- A tiling of a text is what the scan yields. -/
theorem run_of_tiling {p : Position} {cs : List Char} {ts : List Token} (h : Tiling p cs ts)
    (done : List Token) : run p done cs = .ok (done.reverse ++ ts) := by
  induction h generalizing done with
  | @finish p gap hgap =>
      have hrun := run_gap hgap p done
      rw [List.append_nil] at hrun
      rw [hrun, run, List.reverse_cons]
  | token hgap hcs hlongest _ ih =>
      rw [run_gap hgap, run_longest hcs hlongest, ih, List.reverse_cons, List.append_assoc,
        List.singleton_append]

/-! ## Tilings that begin later or end earlier -/

/-- A tiling begins with its first token. -/
theorem Tiling.begun {p : Position} {cs : List Char} {t u : Token} {ts : List Token}
    (h : Tiling p cs (t :: u :: ts)) :
    ∃ gap rest, cs = gap ++ rest ∧ t.span.start = p.advances gap ∧
      Tiling (p.advances gap) rest (t :: u :: ts) := by
  cases h with
  | @token _ gap cs rest _ _ _ hgap hcs hlongest h =>
      exact ⟨gap, cs ++ rest, rfl, rfl, .token (.nil _) hcs hlongest h⟩

/-- A tiling ends behind any of its tokens. -/
theorem Tiling.ended_early {p : Position} {cs : List Char} {front after : List Token} {t : Token}
    (h : Tiling p cs (front ++ t :: after)) (hafter : after ≠ []) :
    ∃ cs₁ cs₂, cs = cs₁ ++ cs₂ ∧ t.span.stop = p.advances cs₁ ∧
      Tiling p cs₁ (front ++ [t, ⟨.endOfInput, none, .single (p.advances cs₁)⟩]) := by
  -- A shorter rest leaves the gaps as they are, and nothing in it makes a token longer.
  have shorten {cs gap rest rest' tail : List Char} (hne : cs ≠ []) (hrest : rest = rest' ++ tail)
      (hgap : Gap gap (cs ++ rest))
      (hlongest : ∀ ds, ds ≠ [] → ds <+: rest → ∀ k literal, ¬Spelled k literal (cs ++ ds)) :
      Gap gap (cs ++ rest') ∧
        ∀ ds, ds ≠ [] → ds <+: rest' → ∀ k literal, ¬Spelled k literal (cs ++ ds) := by
    obtain ⟨c, r, rfl⟩ := List.exists_cons_of_ne_nil hne
    refine ⟨hgap.of_head? rfl, fun ds hds hfront => hlongest ds hds ?_⟩
    rw [hrest]
    exact hfront.trans (List.prefix_append _ _)
  induction front generalizing p cs with
  | nil =>
      rw [List.nil_append] at h
      cases h with
      | finish => exact absurd rfl hafter
      | @token _ gap cs rest k literal _ hgap hcs hlongest h =>
          obtain ⟨hgap, hlongest⟩ := shorten hcs.ne_nil (List.nil_append rest).symm hgap hlongest
          refine ⟨gap ++ cs, rest, by rw [List.append_assoc], (advances_append _ _ _).symm, ?_⟩
          have hfinish := Tiling.finish (p := (p.advances gap).advances cs) (.nil [])
          have htiling := Tiling.token hgap hcs hlongest hfinish
          rw [List.append_nil] at htiling
          rw [advances_append]
          exact htiling
  | cons u front ih =>
      rw [List.cons_append] at h
      generalize hts : front ++ t :: after = ts at h
      cases h with
      | finish => exact absurd hts (by simp)
      | @token _ gap cs rest k literal _ hgap hcs hlongest h =>
          subst hts
          obtain ⟨cs₁, cs₂, rfl, hstop, htiling⟩ := ih h
          obtain ⟨hgap, hlongest⟩ := shorten hcs.ne_nil rfl hgap hlongest
          have hadvances : p.advances (gap ++ (cs ++ cs₁)) =
              ((p.advances gap).advances cs).advances cs₁ := by
            rw [advances_append, advances_append]
          refine ⟨gap ++ (cs ++ cs₁), cs₂, by simp, hstop.trans hadvances.symm, ?_⟩
          rw [hadvances]
          exact .token hgap hcs hlongest htiling

/-- A tiling may begin anywhere. -/
theorem Tiling.elsewhere {p : Position} {cs : List Char} {ts : List Token} (h : Tiling p cs ts)
    (q : Position) : ∃ us, Tiling q cs us ∧ us.map Token.symbol = ts.map Token.symbol := by
  induction h generalizing q with
  | finish hgap => exact ⟨_, .finish hgap, rfl⟩
  | token hgap hcs hlongest _ ih =>
      obtain ⟨us, htiling, hsymbols⟩ := ih _
      exact ⟨_, .token hgap hcs hlongest htiling, congrArg (_ :: ·) hsymbols⟩

end Scan

/-- From the start of one token of a tiling to the end of another is a tiling of its own. -/
theorem Scan.Tiling.stretch {p : Position} {cs : List Char} {before core after : List Token}
    {first last : Token} (h : Tiling p cs (before ++ (core ++ after))) (hafter : after ≠ [])
    (hfirst : core.head? = some first) (hlast : core.getLast? = some last) :
    ∃ cs₁ cs₂ cs₃ e, cs = cs₁ ++ (cs₂ ++ cs₃) ∧ first.span.start = p.advances cs₁ ∧
      last.span.stop = p.advances (cs₁ ++ cs₂) ∧ Tiling (p.advances cs₁) cs₂ (core ++ [e]) ∧
      e.symbol = ⟨.endOfInput, none⟩ := by
  obtain ⟨front, rfl⟩ := List.getLast?_eq_some_iff.mp hlast
  obtain ⟨core, hcore⟩ := List.head?_eq_some_iff.mp hfirst
  obtain ⟨x, after, rfl⟩ := List.exists_cons_of_ne_nil hafter
  obtain ⟨u, us, hu⟩ : ∃ u us, core ++ x :: after = u :: us :=
    List.exists_cons_of_ne_nil (by simp)
  rw [hcore, List.cons_append, hu] at h
  obtain ⟨cs₁, rest, rfl, -, h⟩ := h.drop
  obtain ⟨gap, rest, rfl, hstart, h⟩ := h.begun
  rw [← hu, ← List.cons_append, ← hcore, List.append_assoc, List.singleton_append] at h
  obtain ⟨cs₂, cs₃, rfl, hstop, h⟩ := h.ended_early (List.cons_ne_nil _ _)
  rw [← advances_append] at hstart hstop h
  rw [← advances_append, ← List.append_assoc] at hstop
  exact ⟨cs₁ ++ gap, cs₂, cs₃, _, by rw [List.append_assoc], hstart, hstop, by simpa using h, rfl⟩

/-- A span from a place in the text of a source to the same or a later one. -/
def Span.LiesIn (s : Source) (span : Span) : Prop :=
  ∃ cs₁ cs₂ cs₃, s.text.toList = cs₁ ++ (cs₂ ++ cs₃) ∧
    span.start = (Position.start s).advances cs₁ ∧
    span.stop = (Position.start s).advances (cs₁ ++ cs₂)

namespace Source

variable {s : Source} {before core after : List Token} {first last : Token}

/-- From the start of one token of a source to the end of another. -/
theorem liesIn_of_tokens (h : s.tokens = .ok (before ++ (core ++ after))) (hafter : after ≠ [])
    (hfirst : core.head? = some first) (hlast : core.getLast? = some last) :
    (Span.mk first.span.start last.span.stop).LiesIn s := by
  obtain ⟨ts, hts, htiling⟩ := Scan.tiling_of_run h
  rw [List.reverse_nil, List.nil_append] at hts
  subst hts
  obtain ⟨cs₁, cs₂, cs₃, -, hs, hstart, hstop, -⟩ := htiling.stretch hafter hfirst hlast
  exact ⟨cs₁, cs₂, cs₃, hs, hstart, hstop⟩

/-- The text from the start of one token of a source to the end of another is cut into the tokens
from the one to the other and the end of input. -/
theorem tokens_stretch (h : s.tokens = .ok (before ++ (core ++ after))) (hafter : after ≠ [])
    (hfirst : core.head? = some first) (hlast : core.getLast? = some last) (name : String) :
    ∃ us, tokens ⟨name, (Span.mk first.span.start last.span.stop).text⟩ = .ok us ∧
      us.map Token.symbol = core.map Token.symbol ++ [⟨.endOfInput, none⟩] := by
  obtain ⟨ts, hts, htiling⟩ := Scan.tiling_of_run h
  rw [List.reverse_nil, List.nil_append] at hts
  subst hts
  obtain ⟨cs₁, cs₂, cs₃, e, hs, hstart, hstop, htiling, he⟩ := htiling.stretch hafter hfirst hlast
  have htext : (Span.mk first.span.start last.span.stop).text.toList = cs₂ := by
    rw [hstart, hstop, Span.text_advances hs, String.toList_ofList]
  obtain ⟨us, husTiling, hsymbols⟩ :=
    htiling.elsewhere (Position.start ⟨name, (Span.mk first.span.start last.span.stop).text⟩)
  refine ⟨us, ?_, by rw [hsymbols, List.map_append, List.map_singleton, he]⟩
  have hrun := Scan.run_of_tiling husTiling []
  rw [← htext] at hrun
  exact hrun

/-- The end of the input is the last token, and no other. -/
theorem tokens_ended {ts : List Token} (h : s.tokens = .ok ts) :
    ∃ front e, ts = front ++ [e] ∧ (∀ t ∈ front, t.kind ≠ .endOfInput) ∧
      e.kind = .endOfInput := by
  obtain ⟨ts, rfl, htiling⟩ := Scan.tiling_of_run h
  obtain ⟨front, e, hts, hfront, he⟩ := Scan.Tiling.ended [] htiling rfl
  exact ⟨front, e, hts, fun t ht => (hfront t ht).1, he.kind⟩

end Source

end BasicScript
