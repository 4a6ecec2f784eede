import BasicScript.Number.Text
import BasicScript.Proofs.Number.Integers
import BasicScript.Proofs.Token.Tiling
import BasicScript.Proofs.Token.Writing

/-! # Numbers as literals and as input

A number that is entered is read by rules of its own. On the text of a literal they come to the same
number as the scan, whatever blanks stand around the text, and every written integer is read back.
-/

namespace BasicScript

/-! ## Blanks around a text -/

namespace Text

variable {before cs after : List Char}

/-- What is cut from a text are the blanks at its ends. -/
theorem trimBlanks_surrounded (hbefore : ∀ c ∈ before, isBlank c) (hafter : ∀ c ∈ after, isBlank c)
    (hcs : ∀ c ∈ cs, ¬isBlank c) :
    trimBlanks (String.ofList (before ++ cs ++ after)) = String.ofList cs := by
  have hend : trimEndBlanks (cs ++ after) = cs := by
    have hstop : cs.reverse.dropWhile isBlank = cs.reverse := by
      cases h : cs.reverse with
      | nil => rfl
      | cons c r =>
          have hc : c ∈ cs := List.mem_reverse.mp (h ▸ List.mem_cons_self)
          simp [hcs c hc]
    have hblank : ∀ c ∈ after.reverse, isBlank c := by simpa using hafter
    rw [trimEndBlanks, List.reverse_append, List.dropWhile_append_of_pos hblank, hstop,
      List.reverse_reverse]
  have hdrop : (before ++ cs ++ after).dropWhile isBlank = (cs ++ after).dropWhile isBlank := by
    rw [List.append_assoc, List.dropWhile_append_of_pos hbefore]
  rw [trimBlanks, String.toList_ofList, hdrop]
  cases cs with
  | nil =>
      rw [List.nil_append, List.dropWhile_eq_nil_iff.mpr hafter]
      rfl
  | cons c r =>
      have hfirst : ((c :: r) ++ after).dropWhile isBlank = (c :: r) ++ after := by simp [hcs c]
      rw [hfirst, hend]

theorem trimBlanks_eq_self (hcs : ∀ c ∈ cs, ¬isBlank c) :
    trimBlanks (String.ofList cs) = String.ofList cs := by
  have htrim := trimBlanks_surrounded (List.forall_mem_nil _) (List.forall_mem_nil _) hcs
  rwa [List.nil_append, List.append_nil] at htrim

end Text

/-- Blanks around an entered number make no difference. -/
theorem Number.ofText?_surrounded {before cs after : List Char}
    (hbefore : ∀ c ∈ before, Text.isBlank c) (hafter : ∀ c ∈ after, Text.isBlank c)
    (hcs : ∀ c ∈ cs, ¬Text.isBlank c) :
    ofText? (String.ofList (before ++ cs ++ after)) = ofText? (String.ofList cs) := by
  rw [ofText?, ofText?, Text.trimBlanks_surrounded hbefore hafter hcs, Text.trimBlanks_eq_self hcs]

theorem Text.not_isBlank_of_isDigit {c : Char} (hc : c.isDigit) : ¬isBlank c := by
  have hlow : '0'.val ≤ c.val := of_decide_eq_true ((Bool.and_eq_true _ _).mp hc).1
  have hhigh : c.val ≤ '9'.val := of_decide_eq_true ((Bool.and_eq_true _ _).mp hc).2
  rw [UInt32.le_iff_toNat_le] at hlow hhigh
  change 48 ≤ c.toNat at hlow
  change c.toNat ≤ 57 at hhigh
  simp only [isBlank, Bool.or_eq_true, Bool.and_eq_true, decide_eq_true_eq, beq_iff_eq]
  omega

/-- A token of a source is the one that its text spells. -/
theorem Source.token_of_spelled {s : Source} {ts : List Token} {t : Token} {k : TokenKind}
    {literal : Option Literal} (hts : s.tokens = .ok ts) (ht : t ∈ ts)
    (h : Spelled k literal t.span.text.toList) : t.kind = k ∧ t.literal = literal := by
  obtain ⟨us, rfl, htiling⟩ := Scan.tiling_of_run hts
  obtain ⟨front, e, hsplit, hfront, he⟩ := Scan.Tiling.ended [] htiling rfl
  rw [hsplit] at ht
  rcases List.mem_append.mp ht with ht | ht
  · obtain ⟨-, hcut⟩ := hfront t ht
    obtain ⟨hkind, hliteral⟩ := hcut.determined _ _ h
    exact ⟨hkind.symm, hliteral.symm⟩
  · -- The end of input has no text.
    obtain rfl := List.mem_singleton.mp ht
    have hempty : t.span.text.toList = [] := by simp [Span.text, he.start.source, he.offset]
    exact absurd hempty h.ne_nil

/-! ## Numerals -/

/-- The text of one number literal: a digit, then digits and at most one point. -/
structure Numeral (cs : List Char) : Prop where
  first : ∃ c ∈ cs.head?, c.isDigit
  characters : ∀ c ∈ cs, c.isDigit ∨ c = '.'
  points : cs.count '.' ≤ 1

/-- What a numeral stands for: an integer if there is no point and the digits denote one that fits,
and else the double that the spelling is read as. -/
structure Number.DenotedBy (n : Number) (cs : List Char) : Prop where
  int_iff (k : Int64) : n = .int k ↔ '.' ∉ cs ∧ (Nat.ofDigitChars 10 cs 0 : Int) = k.toInt
  float_iff (x : Float) : n = .float x ↔
    ('.' ∈ cs ∨ 0x8000000000000000 ≤ Nat.ofDigitChars 10 cs 0) ∧ Decimal.float? cs = some x

theorem Number.DenotedBy.int {cs : List Char} {k : Int64} (hpoint : '.' ∉ cs)
    (hk : (Nat.ofDigitChars 10 cs 0 : Int) = k.toInt) : (Number.int k).DenotedBy cs := by
  have hsmall : ¬0x8000000000000000 ≤ Nat.ofDigitChars 10 cs 0 := by
    have hfits := fits_toInt k
    rw [fits_iff] at hfits
    omega
  constructor
  · intro k'
    simp [hpoint, hk, Int64.toInt_inj]
  · intro x
    simp [hpoint, hsmall]

theorem Number.DenotedBy.float {cs : List Char} {x : Float}
    (hcs : '.' ∈ cs ∨ 0x8000000000000000 ≤ Nat.ofDigitChars 10 cs 0)
    (hx : Decimal.float? cs = some x) : (Number.float x).DenotedBy cs := by
  constructor
  · intro k
    have hfits := fits_toInt k
    rw [fits_iff] at hfits
    rcases hcs with hpoint | hlarge
    · simp [hpoint]
    · have hk : (Nat.ofDigitChars 10 cs 0 : Int) ≠ k.toInt := by omega
      simp [hk]
  · intro x'
    simp [hcs, hx]

/-- Digits are read as the double nearest to them. -/
theorem Decimal.float?_of_digits {ds : List Char} (hne : ds ≠ []) (hds : ∀ d ∈ ds, d.isDigit) :
    float? ds = some (nearest ds 0) := by
  obtain ⟨c, r, rfl⟩ := List.exists_cons_of_ne_nil hne
  rw [float?_of_isDigit (hds c List.mem_cons_self), unsigned?,
    List.takeWhile_eq_self_iff.mpr hds, List.dropWhile_eq_nil_iff.mpr hds]
  simp [exponent?]

theorem Decimal.int?_of_digits {ds : List Char} (hne : ds ≠ []) (hds : ∀ d ∈ ds, d.isDigit) :
    int? ds = some (ofDigits ds : Int) := by
  obtain ⟨c, r, rfl⟩ := List.exists_cons_of_ne_nil hne
  rw [int?, splitSign_of_isDigit (hds c List.mem_cons_self)]
  simp [List.all_eq_true.mpr hds]

/-- A text with a point is no integer. -/
theorem Decimal.int?_of_point {ds places : List Char} (hne : ds ≠ []) (hds : ∀ d ∈ ds, d.isDigit) :
    int? (ds ++ '.' :: places) = none := by
  obtain ⟨c, r, rfl⟩ := List.exists_cons_of_ne_nil hne
  rw [List.cons_append, int?, splitSign_of_isDigit (hds c List.mem_cons_self)]
  simp

namespace Numeral

variable {cs : List Char}

/-- A numeral is a run of digits, or two with a point between them, the second of which may be
empty. -/
theorem digits_or_places (h : Numeral cs) :
    (cs ≠ [] ∧ ∀ d ∈ cs, d.isDigit) ∨
      ∃ ds places, cs = ds ++ '.' :: places ∧ ds ≠ [] ∧ (∀ d ∈ ds, d.isDigit) ∧
        ∀ d ∈ places, d.isDigit := by
  obtain ⟨c, hhead, hc⟩ := h.first
  obtain ⟨r, rfl⟩ := List.head?_eq_some_iff.mp hhead
  have digit_of {ds : List Char} (hsub : ds ⊆ c :: r) (hpoint : '.' ∉ ds) :
      ∀ d ∈ ds, d.isDigit := fun d hd =>
    (h.characters d (hsub hd)).resolve_right fun hdot => hpoint (hdot ▸ hd)
  by_cases hpoint : '.' ∈ c :: r
  · obtain ⟨ds, places, hsplit⟩ := List.append_of_mem hpoint
    have hcount := h.points
    rw [hsplit, List.count_append, List.count_cons_self] at hcount
    have hds : '.' ∉ ds := List.count_eq_zero.mp (by omega)
    have hplaces : '.' ∉ places := List.count_eq_zero.mp (by omega)
    refine .inr ⟨ds, places, hsplit, ?_, digit_of ?_ hds, digit_of ?_ hplaces⟩
    · rintro rfl
      obtain ⟨rfl, -⟩ := List.cons.inj hsplit
      cases hc
    · exact hsplit ▸ List.subset_append_left _ _
    · exact hsplit ▸ fun d hd => List.mem_append_right ds (List.mem_cons_of_mem _ hd)
  · exact .inl ⟨List.cons_ne_nil c r, digit_of (List.Subset.refl _) hpoint⟩

theorem not_isBlank (h : Numeral cs) : ∀ c ∈ cs, ¬Text.isBlank c := by
  intro c hc
  rcases h.characters c hc with hdigit | rfl
  · exact Text.not_isBlank_of_isDigit hdigit
  · decide

/-- A numeral spells the token of its literal. -/
theorem spelled (h : Numeral cs) : Spelled (Number.ofLiteral cs).tokenKind
    (some (.number (Number.ofLiteral cs))) cs := by
  rcases h.digits_or_places with ⟨hne, hds⟩ | ⟨ds, places, rfl, hne, hds, hplaces⟩
  · exact Scan.spelled_of_digits hne hds
  · rw [Scan.ofLiteral_of_places hds]
    exact .decimal hne hds hplaces

/-- An entered numeral is read as its literal. -/
theorem ofText?_eq (h : Numeral cs) : Number.ofText? (String.ofList cs) = some (.ofLiteral cs) := by
  rw [Number.ofText?, Text.trimBlanks_eq_self h.not_isBlank, String.toList_ofList]
  rcases h.digits_or_places with ⟨hne, hds⟩ | ⟨ds, places, rfl, hne, hds, hplaces⟩
  · rw [Decimal.int?_of_digits hne hds, Decimal.float?_of_digits hne hds,
      Scan.ofLiteral_of_forall hds, Option.bind_some]
    cases Number.ofInt? (Decimal.ofDigits cs) <;> rfl
  · rw [Decimal.int?_of_point hne hds, Decimal.float?_of_places hne hds hplaces,
      Scan.ofLiteral_of_places hds]
    rfl

/-- The number of a literal is what its text denotes. -/
theorem denotedBy (h : Numeral cs) : (Number.ofLiteral cs).DenotedBy cs := by
  rcases h.digits_or_places with ⟨hne, hds⟩ | ⟨ds, places, rfl, hne, hds, hplaces⟩
  · have hpoint : '.' ∉ cs := fun hmem => absurd (hds _ hmem) (by decide)
    by_cases hlarge : 0x8000000000000000 ≤ Nat.ofDigitChars 10 cs 0
    · rw [Scan.ofLiteral_of_wide hds hlarge]
      exact .float (.inr hlarge) (Decimal.float?_of_digits hne hds)
    · have hk := Number.toInt_ofInt_of_fits (Number.fits_of_lt (Nat.not_le.mp hlarge))
      rw [Scan.ofLiteral_of_int hds hk]
      exact .int hpoint hk.symm
  · rw [Scan.ofLiteral_of_places hds]
    exact .float (.inl (by simp)) (Decimal.float?_of_places hne hds hplaces)

/-- Alone, a numeral is one token. -/
theorem tokens_eq (h : Numeral cs) (name : String) :
    let source : Source := ⟨name, String.ofList cs⟩
    let finish := (Position.start source).advances cs
    source.tokens = .ok [⟨(Number.ofLiteral cs).tokenKind, some (.number (.ofLiteral cs)),
      ⟨.start source, finish⟩⟩, ⟨.endOfInput, none, .single finish⟩] := by
  intro source finish
  have hrun : Scan.run (.start source) [] (cs ++ []) = _ :=
    Scan.run_spelled h.spelled (by simp) (.start source) []
  rw [List.append_nil] at hrun
  rw [Source.tokens, String.toList_ofList, hrun, Scan.run]
  rfl

end Numeral

theorem Decimal.int?_of_minus {ds : List Char} (hne : ds ≠ []) (hds : ∀ d ∈ ds, d.isDigit) :
    int? ('-' :: ds) = some (-(ofDigits ds : Int)) := by
  simp [int?, splitSign, hne, List.all_eq_true.mpr hds]

/-- The written form of an integer is read as this integer. -/
theorem Decimal.int?_toString (z : Int) : int? (toString z).toList = some z := by
  have hdigits := padded_isDigit 0 z.natAbs
  have hvalue : ofDigits _ = _ := (ofDigits_eq _).trans (ofDigitChars_padded 0 z.natAbs)
  rw [List.replicate_zero, List.nil_append] at hdigits hvalue
  have hne : (toString z.natAbs).toList ≠ [] := by simp [Nat.toString_eq_repr]
  rcases Int.lt_or_le z 0 with hneg | hpos
  · rw [toString_of_neg hneg, int?_of_minus hne hdigits, hvalue]
    congr 1
    omega
  · rw [toString_of_nonneg hpos, int?_of_digits hne hdigits, hvalue]
    congr 1
    omega

theorem Number.not_isBlank_text (k : Int64) :
    ∀ c ∈ (Number.int k).text.toList, ¬Text.isBlank c := by
  have hdigits := Decimal.padded_isDigit 0 k.toInt.natAbs
  rw [List.replicate_zero, List.nil_append] at hdigits
  intro c hc
  rw [text] at hc
  rcases Int.lt_or_le k.toInt 0 with hneg | hpos
  · rw [Decimal.toString_of_neg hneg] at hc
    rcases List.mem_cons.mp hc with rfl | hc
    · decide
    · exact Text.not_isBlank_of_isDigit (hdigits c hc)
  · rw [Decimal.toString_of_nonneg hpos] at hc
    exact Text.not_isBlank_of_isDigit (hdigits c hc)

/-- The written form of an integer is read as this integer. -/
theorem Number.ofText?_text (k : Int64) : ofText? (Number.int k).text = some (.int k) := by
  have htrim := Text.trimBlanks_eq_self (not_isBlank_text k)
  rw [String.ofList_toList] at htrim
  rw [ofText?, htrim, text, Decimal.int?_toString, Option.bind_some, ofInt?, if_pos (fits_toInt k),
    Int64.ofInt_toInt]

/-- The scan and the reading of input agree on numbers. A numeral is one token, by itself and
wherever it is the text of one, and its literal is what it denotes; entered with blanks around it,
it is the same number. The written form of an integer is read as this integer. -/
theorem Number.entered_as_literal :
    (∀ cs, Numeral cs → ∃ n : Number, n.DenotedBy cs ∧
      (∀ name, ∃ span finish, Source.tokens ⟨name, String.ofList cs⟩ =
        .ok [⟨n.tokenKind, some (.number n), span⟩, finish]) ∧
      (∀ s ts, Source.tokens s = .ok ts → ∀ t ∈ ts, t.span.text.toList = cs →
        t.kind = n.tokenKind ∧ t.literal = some (.number n)) ∧
      ∀ before after, (∀ c ∈ before, Text.isBlank c) → (∀ c ∈ after, Text.isBlank c) →
        ofText? (String.ofList (before ++ cs ++ after)) = some n) ∧
    ∀ k : Int64, ofText? (Number.int k).text = some (.int k) := by
  refine ⟨fun cs h => ⟨.ofLiteral cs, h.denotedBy, fun name => ⟨_, _, h.tokens_eq name⟩, ?_, ?_⟩,
    ofText?_text⟩
  · intro s ts hts t ht htext
    exact Source.token_of_spelled hts ht (htext ▸ h.spelled)
  · intro before after hbefore hafter
    rw [ofText?_surrounded hbefore hafter h.not_isBlank, h.ofText?_eq]

/-- Digits beyond the integers, entered between blanks. -/
theorem Number.entered_as_literal_wide :
    ∃ x, Decimal.float? (List.replicate 19 '9') = some x ∧
      ofText? (String.ofList (' ' :: (List.replicate 19 '9' ++ ['\t']))) = some (.float x) := by
  have hdigits : ∀ d ∈ List.replicate 19 '9', d.isDigit := List.all_eq_true.mp rfl
  have hnumeral : Numeral (List.replicate 19 '9') :=
    ⟨⟨'9', rfl, rfl⟩, fun d hd => .inl (hdigits d hd), by decide⟩
  have hfloat := Decimal.float?_of_digits (List.cons_ne_nil _ _) hdigits
  obtain ⟨n, hn, -, -, hentered⟩ := entered_as_literal.1 _ hnumeral
  have hwide : n = .float _ := (hn.float_iff _).mpr ⟨.inr (by decide), hfloat⟩
  have hblank {c : Char} (hc : Text.isBlank c) : ∀ d ∈ [c], Text.isBlank d :=
    List.forall_mem_singleton.mpr hc
  exact ⟨_, hfloat, hwide ▸ hentered [' '] ['\t'] (hblank rfl) (hblank rfl)⟩

end BasicScript
