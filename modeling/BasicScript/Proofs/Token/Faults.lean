import BasicScript.Proofs.Sequencing
import BasicScript.Proofs.Token.Lexemes
import BasicScript.Proofs.Token.Moving

/-! # Where the scan fails

The scan fails at the first place where no lexeme begins. Each lexeme is told by its own text and
the character behind it, so what stands in front of that place is cut into tokens whatever follows,
and what is wrong there is told by one or two characters, or else reaches to the end of the text. -/

namespace BasicScript.Scan

/-! ## What tells a lexeme -/

section

variable {α : Type} {p : α → Bool} {xs ys zs : List α}

/-- Whether a stretch goes on is told by the next element. -/
theorem takeWhile_eq_nil_of_head? (hzs : ∀ z ∈ zs.head?, z ∈ ys.head?)
    (h : ys.takeWhile p = []) : zs.takeWhile p = [] := by
  cases zs with
  | nil => rfl
  | cons z zs =>
      obtain ⟨ys, rfl⟩ := List.head?_eq_some_iff.mp (hzs z rfl)
      by_cases hz : p z <;> simp_all

/-- A stretch ends in the same place if the same element follows it, or nothing. -/
theorem takeWhile_append_congr (hzs : ∀ z ∈ zs.head?, z ∈ ys.head?)
    (h : ((xs ++ ys).takeWhile p).length = xs.length) :
    (xs ++ zs).takeWhile p = (xs ++ ys).takeWhile p := by
  rw [List.takeWhile_append] at h ⊢
  rw [List.takeWhile_append]
  split at h
  · rename_i hall
    rw [List.length_append, Nat.add_eq_left, List.length_eq_zero_iff] at h
    rw [if_pos hall, if_pos hall, h, takeWhile_eq_nil_of_head? hzs h]
  · rename_i hstop
    exact absurd h hstop

end

variable {c : Char} {xs ys zs : List Char} {l : Lexeme}

theorem number_append_of_forall (hxs : ∀ d ∈ xs, d.isDigit) (ys : List Char) :
    number (xs ++ ys) = xs ++ number ys := by
  rw [number, List.takeWhile_append_of_pos hxs, List.dropWhile_append_of_pos hxs, number]
  cases ys.dropWhile Char.isDigit with
  | nil => rfl
  | cons d r => by_cases hd : d = '.' <;> simp [hd]

theorem number_eq_nil_of_head? (hzs : ∀ z ∈ zs.head?, z ∈ ys.head?) (h : number ys = []) :
    number zs = [] := by
  cases zs with
  | nil => rfl
  | cons z zs =>
      obtain ⟨ys, rfl⟩ := List.head?_eq_some_iff.mp (hzs z rfl)
      by_cases hdigit : z.isDigit
      · have hlonger := length_takeWhile_le_number (z :: ys)
        simp [h, hdigit] at hlonger
      · by_cases hpoint : z = '.' <;> simp_all [number]

theorem number_digits_or_places (cs : List Char) :
    (∀ d ∈ number cs, d.isDigit) ∨
      ∃ ds places, number cs = ds ++ '.' :: places ∧ (∀ d ∈ ds, d.isDigit) ∧
        ∀ d ∈ places, d.isDigit := by
  have hds : ∀ d ∈ cs.takeWhile Char.isDigit, d.isDigit := fun d hd =>
    List.all_eq_true.mp List.all_takeWhile d hd
  rcases number_cases cs with hcase | ⟨places, hcase, hplaces, -⟩
  · exact .inl (hcase ▸ hds)
  · exact .inr ⟨_, places, hcase, hds, hplaces⟩

/-- A number ends in the same place if the same character follows it, or nothing. -/
theorem number_append_congr (hzs : ∀ z ∈ zs.head?, z ∈ ys.head?)
    (h : (number (xs ++ ys)).length = xs.length) : number (xs ++ zs) = number (xs ++ ys) := by
  have hxs : number (xs ++ ys) = xs :=
    (List.prefix_of_prefix_length_le (front_number _) (List.prefix_append xs ys) h.le).eq_of_length
      h
  have hshape := number_digits_or_places (xs ++ ys)
  rw [hxs] at hshape
  rcases hshape with hdigits | ⟨ds, places, rfl, hds, hplaces⟩
  · rw [number_append_of_forall hdigits, List.append_right_eq_self] at hxs
    rw [number_append_of_forall hdigits, number_append_of_forall hdigits, hxs,
      number_eq_nil_of_head? hzs hxs]
  · rw [number_append_places hds hplaces, List.append_cancel_left_eq, List.cons.injEq] at hxs
    have hstop : ys.takeWhile Char.isDigit = [] := List.append_right_eq_self.mp hxs.2
    rw [number_append_places hds hplaces, number_append_places hds hplaces, hstop,
      takeWhile_eq_nil_of_head? hzs hstop]

/-- Nothing behind a string is part of it. -/
theorem string_append_congr (h : string (xs ++ ys) = .ok l) (hl : l.more = xs.length) :
    string (xs ++ zs) = .ok l := by
  cases hs : string? [] 0 (xs ++ ys) with
  | none => simp [string, hs] at h
  | some s =>
      obtain ⟨inside, text, rest, hsplit, hquoted, rfl⟩ := quoted_of_string? hs
      rw [string, hs] at h
      obtain rfl := Except.ok.inj h
      have hlength : xs.length = (inside ++ ['"']).length := by
        rw [← hl, List.length_append]
        show 0 + inside.length + 1 = inside.length + 1
        rw [Nat.zero_add]
      have hfront : inside ++ ['"'] <+: xs ++ ys :=
        ⟨rest, by rw [hsplit, List.append_assoc, List.singleton_append]⟩
      obtain rfl : xs = inside ++ ['"'] :=
        (List.prefix_of_prefix_length_le (List.prefix_append xs ys) hfront hlength.le).eq_of_length
          hlength
      rw [List.append_assoc, List.singleton_append, string, string?_of_quoted hquoted]

theorem mark_append_congr (h : mark? c (xs ++ ys) = some l) (hl : l.more = xs.length)
    (hzs : ∀ z ∈ zs.head?, z ∈ ys.head?) : mark? c (xs ++ zs) = some l := by
  unfold mark? at h ⊢
  cases hsingle : single? c with
  | some kind =>
      rw [hsingle] at h
      exact h
  | none =>
      rw [hsingle] at h
      obtain ⟨⟨second, long, short⟩, he, rfl⟩ := Option.map_eq_some_iff.mp h
      replace hl : (Lexeme.either second long short (xs ++ ys)).more = xs.length := hl
      have hsame : (xs ++ zs).head? = some second ↔ (xs ++ ys).head? = some second := by
        rcases either_cases second long short (xs ++ ys) with ⟨hhead, hlong⟩ | ⟨hhead, hshort⟩
        · rw [hlong] at hl
          obtain ⟨d, rfl⟩ := List.length_eq_one_iff.mp hl.symm
          rfl
        · rw [hshort] at hl
          obtain rfl := List.length_eq_zero_iff.mp hl.symm
          exact iff_of_false (fun hz => hhead (hzs second hz)) hhead
      simp only [he, Option.map_some, Lexeme.either, hsame]

/-- A lexeme is told by its text and the character behind it, if there is one. -/
theorem lexeme_append_congr (h : lexeme c (xs ++ ys) = .ok l) (hl : l.more = xs.length)
    (hzs : ∀ z ∈ zs.head?, z ∈ ys.head?) : lexeme c (xs ++ zs) = .ok l := by
  cases lexeme_iff.mp h with
  | gap hc => exact lexeme_iff.mpr (.gap hc)
  | comment hc =>
      rw [lexeme_iff.mpr (.comment hc), takeWhile_append_congr hzs hl]
  | string hc hstring => exact lexeme_iff.mpr (.string hc (string_append_congr hstring hl))
  | notEqual hc hr =>
      obtain ⟨d, rfl⟩ := List.length_eq_one_iff.mp hl.symm
      exact lexeme_iff.mpr (.notEqual hc (by simpa using hr))
  | number hc =>
      have hlength : (number ((c :: xs) ++ ys)).length = (c :: xs).length := by
        have hpos := length_takeWhile_le_number ((c :: xs) ++ ys)
        rw [List.cons_append, List.takeWhile_cons_of_pos hc, List.length_cons] at hpos
        have hmore : (number ((c :: xs) ++ ys)).length - 1 = xs.length := hl
        rw [List.length_cons]
        rw [List.cons_append] at hmore ⊢
        omega
      rw [lexeme_of_isDigit hc, Lexeme.ofNumber, Lexeme.ofNumber, ← List.cons_append,
        number_append_congr hzs hlength, List.cons_append]
  | word hc =>
      have hword : isWordChar c := by simp [isWordChar, Char.isAlphanum, hc]
      have hlength : ((xs ++ ys).takeWhile isWordChar).length = xs.length := by
        have hmore : ((c :: (xs ++ ys)).takeWhile isWordChar).length - 1 = xs.length := hl
        rwa [List.takeWhile_cons_of_pos hword] at hmore
      rw [lexeme_of_isAlpha hc, Lexeme.ofWord, Lexeme.ofWord, List.takeWhile_cons_of_pos hword,
        List.takeWhile_cons_of_pos hword, takeWhile_append_congr hzs hlength]
  | mark hmark => exact lexeme_of_mark (mark_append_congr hmark hl hzs)

/-! ## What no lexeme begins with -/

/-- Whether a mark begins a text is told by the first character. -/
theorem mark?_eq_none {c : Char} {r : List Char} (h : mark? c r = none) (r' : List Char) :
    mark? c r' = none := by
  unfold mark? at h ⊢
  cases hsingle : single? c with
  | some kind => simp [hsingle] at h
  | none =>
      rw [hsingle] at h
      simp [Option.map_eq_none_iff.mp h]

/-- Why no lexeme is in front of a text: it begins with a character that begins none, with a bang
and another character than an equals sign, or with a quote that nothing closes. -/
theorem fault_of_lexeme {c : Char} {r : List Char} {f : Failure} (h : lexeme c r = .error f) :
    (f = ⟨0, .illegalCharacter c⟩ ∧ c ≠ '!' ∧ ∀ r', lexeme c r' = .error f) ∨
      (c = '!' ∧ f = ⟨1, .loneBang⟩ ∧ r.head? ≠ some '=') ∨
      (c = '"' ∧ f = ⟨r.length, .unclosedString⟩ ∧ string? [] 0 r = none) := by
  have hgap : ¬isGap c := fun hc => by simp [lexeme_iff.mpr (.gap hc)] at h
  have hcomment : c ≠ '#' := fun hc => by simp [lexeme_iff.mpr (.comment hc)] at h
  have hdigit : ¬c.isDigit := fun hc => by simp [lexeme_of_isDigit hc] at h
  have halpha : ¬c.isAlpha := fun hc => by simp [lexeme_of_isAlpha hc] at h
  by_cases hquote : c = '"'
  · subst hquote
    change string r = .error f at h
    rw [string] at h
    split at h
    · cases h
    · rename_i hnone
      cases h
      exact .inr (.inr ⟨rfl, rfl, hnone⟩)
  by_cases hbang : c = '!'
  · subst hbang
    by_cases hequal : r.head? = some '='
    · simp [lexeme_iff.mpr (.notEqual rfl hequal)] at h
    · have hlone : lexeme '!' r = .error ⟨1, .loneBang⟩ := if_neg hequal
      rw [hlone] at h
      cases h
      exact .inr (.inl ⟨rfl, rfl, hequal⟩)
  have hmark : mark? c r = none := by
    cases hmark : mark? c r with
    | none => rfl
    | some l => simp [lexeme_of_mark hmark] at h
  have hlexeme (r' : List Char) : lexeme c r' = .error ⟨0, .illegalCharacter c⟩ := by
    rw [lexeme, if_neg hgap, if_neg hcomment, if_neg hquote, if_neg hbang, if_neg hdigit,
      if_neg halpha, mark?_eq_none hmark r']
  rw [hlexeme] at h
  cases h
  exact .inl ⟨rfl, hbang, hlexeme⟩

/-- In a string, an odd number of backslashes in front of a character escapes it: the last of them
is not escaped itself. -/
def Escapes (front : List Char) : Prop :=
  (front.reverse.takeWhile (· == '\\')).length % 2 = 1

theorem escapes_cons {c : Char} (hc : c ≠ '\\') (front : List Char) :
    Escapes (c :: front) ↔ Escapes front := by
  rw [Escapes, Escapes, List.reverse_cons, List.takeWhile_append]
  split
  · rename_i hall
    simp [hc, hall]
  · rfl

/-- A pair of a backslash and what it escapes has no say in what is behind it. -/
theorem escapes_pair (c : Char) (front : List Char) :
    Escapes ('\\' :: c :: front) ↔ Escapes front := by
  by_cases hc : c = '\\'
  · subst hc
    rw [Escapes, Escapes, List.reverse_cons, List.reverse_cons, List.append_assoc,
      List.takeWhile_append]
    split
    · rename_i hall
      simp [hall]
    · rfl
  · rw [Escapes, Escapes, List.reverse_cons, List.reverse_cons, List.append_assoc,
      List.takeWhile_append]
    split
    · rename_i hall
      simp [hc, hall]
    · rfl

/-- Every quote is escaped in a string that is not closed. -/
theorem escapes_of_string?_eq_none {done : List Char} {count : Nat} {r : List Char}
    (h : string? done count r = none) :
    ∀ front rest, r = front ++ '"' :: rest → Escapes front := by
  fun_induction string? done count r with
  | case1 => simp
  | case2 => cases h
  | case3 =>
      intro front rest hsplit
      cases front <;> simp at hsplit
  | case4 done count c r ih =>
      intro front rest hsplit
      rcases front with _ | ⟨b, _ | ⟨b', front⟩⟩
      · simp at hsplit
      · obtain ⟨rfl, -⟩ := List.cons.inj hsplit
        rfl
      · simp only [List.cons_append, List.cons.injEq] at hsplit
        obtain ⟨rfl, rfl, rfl⟩ := hsplit
        exact (escapes_pair _ _).mpr (ih h front rest rfl)
  | case5 done count c r hquote hend hescape ih =>
      have hslash : c ≠ '\\' := by
        rintro rfl
        cases r with
        | nil => exact hend rfl rfl
        | cons c r => exact hescape c r rfl rfl
      intro front rest hsplit
      cases front with
      | nil =>
          obtain ⟨rfl, -⟩ := List.cons.inj hsplit
          exact absurd rfl hquote
      | cons b front =>
          obtain ⟨rfl, rfl⟩ := List.cons.inj hsplit
          exact (escapes_cons hslash _).mpr (ih h front rest rfl)

/-! ## The text in front -/

/-- The scan passes over a text, whatever follows it that begins with `c`, and if nothing follows.
-/
def Passes (front : List Char) (c : Char) : Prop :=
  ∀ rest : List Char, (∀ d ∈ rest.head?, d = c) → ∀ (p : Position) (done : List Token),
    ∃ done', run p done (front ++ rest) = run (p.advances front) done' rest

theorem run_of_lexeme {c : Char} {r : List Char} {l : Lexeme} (h : lexeme c r = .ok l)
    (p : Position) (done : List Token) :
    ∃ done', run p done (c :: r) = run (after p c r l.more) done' (r.drop l.more) := by
  rw [run, h]
  rcases l with ⟨more, _ | ⟨kind, literal⟩⟩
  · exact ⟨_, rfl⟩
  · exact ⟨_, rfl⟩

theorem Passes.nil (c : Char) : Passes [] c :=
  fun _ _ _ done => ⟨done, rfl⟩

/-- A lexeme in front of what the scan passes over. -/
theorem Passes.cons {b c : Char} {r front rest : List Char} {l : Lexeme} (hl : lexeme b r = .ok l)
    (hdrop : r.drop l.more = front ++ c :: rest) (h : Passes front c) :
    Passes (b :: (r.take l.more ++ front)) c := by
  intro rest' hrest' p done
  have hlength : l.more = (r.take l.more).length :=
    (List.length_take_of_le (lexeme_ends hl).more).symm
  have hlexeme : lexeme b (r.take l.more ++ (front ++ rest')) = .ok l := by
    rw [← List.take_append_drop l.more r, hdrop] at hl
    refine lexeme_append_congr hl hlength fun d hd => ?_
    cases front with
    | nil => rw [hrest' d hd]; rfl
    | cons => exact hd
  obtain ⟨done', hrun⟩ := run_of_lexeme hlexeme p done
  have hafter : after p b (r.take l.more ++ (front ++ rest')) l.more =
      p.advances (b :: r.take l.more) := by
    rw [after_append p b hlength.le, after, List.take_of_length_le hlength.ge]
    rfl
  have hbehind : (r.take l.more ++ (front ++ rest')).drop l.more = front ++ rest' := by
    conv => lhs; arg 1; rw [hlength]
    exact List.drop_left
  rw [hafter, hbehind] at hrun
  rw [← List.cons_append, advances_append, List.append_assoc, List.cons_append, hrun]
  exact h rest' hrest' _ _

/-- Where the scan fails, no lexeme begins, and what is in front is passed over. -/
theorem passes_of_run_error {p : Position} {done : List Token} {cs : List Char} {d : Diagnostic}
    (h : run p done cs = .error d) :
    ∃ front c r f, cs = front ++ c :: r ∧ lexeme c r = .error f ∧ Passes front c ∧
      d = f.fault.diagnostic ⟨p.advances front, after (p.advances front) c r f.more⟩ := by
  -- A lexeme, whether it is a token or not, is one more piece of the text in front.
  have further {p : Position} {b : Char} {r : List Char} {l : Lexeme} (hl : lexeme b r = .ok l)
      (ih : ∃ front c r' f, r.drop l.more = front ++ c :: r' ∧ lexeme c r' = .error f ∧
        Passes front c ∧ d = f.fault.diagnostic ⟨(after p b r l.more).advances front,
          after ((after p b r l.more).advances front) c r' f.more⟩) :
      ∃ front c r' f, b :: r = front ++ c :: r' ∧ lexeme c r' = .error f ∧ Passes front c ∧
        d = f.fault.diagnostic ⟨p.advances front, after (p.advances front) c r' f.more⟩ := by
    obtain ⟨front, c, r', f, hdrop, hf, hpasses, hd⟩ := ih
    refine ⟨b :: (r.take l.more ++ front), c, r', f, ?_, hf, hpasses.cons hl hdrop, ?_⟩
    · rw [List.cons_append, List.append_assoc, ← hdrop, List.take_append_drop]
    · rw [← List.cons_append, advances_append]
      exact hd
  fun_induction run p done cs with
  | case1 => cases h
  | case2 p done c r l hl next kind literal htoken ih => exact further hl (ih h)
  | case3 p done c r l hl next htoken ih => exact further hl (ih h)
  | case4 p done c r f hf =>
      cases h
      exact ⟨[], c, r, f, rfl, hf, .nil c, rfl⟩

/-- Text that cannot be cut into tokens has a character that begins none, or lacks one. -/
theorem kind_of_run {p : Position} {done : List Token} {cs : List Char} {d : Diagnostic}
    (h : run p done cs = .error d) :
    d.kind = .illegalCharacter ∨ d.kind = .expectedCharacter := by
  obtain ⟨front, c, r, f, -, -, -, rfl⟩ := passes_of_run_error h
  cases f.fault with
  | illegalCharacter c => exact .inl rfl
  | loneBang => exact .inr rfl
  | unclosedString => exact .inr rfl

end BasicScript.Scan

namespace BasicScript.Source

open Scan

/-! ## The failure of a source -/

/-- The diagnostic of a source is that of the failure behind `front`. What is in front can be cut
into tokens by itself, and what is wrong is wrong in any source that is the same up to there and
fails there in the same way. -/
structure FaultAt (s : Source) (d : Diagnostic) (front : List Char) (c : Char) (r : List Char)
    (f : Failure) : Prop where
  text : s.text.toList = front ++ c :: r
  kind : d.kind = f.fault.kind
  start : d.span.start.offset = front.length
  stop : d.span.stop.offset = front.length + 1 + (r.take f.more).length
  tokens_front (name : String) : ∃ ts, tokens ⟨name, String.ofList front⟩ = .ok ts
  elsewhere {other : Source} {r' : List Char} {f' : Failure}
    (htext : other.text.toList = front ++ c :: r') (hf' : lexeme c r' = .error f')
    (hfault : f'.fault = f.fault) (hcovered : r'.take f'.more = r.take f.more) :
    other.tokens = .error (d.moved 0 0 other)

theorem exists_fault {s : Source} {d : Diagnostic} (h : s.tokens = .error d) :
    ∃ front c r f, s.FaultAt d front c r f ∧ lexeme c r = .error f := by
  obtain ⟨front, c, r, f, htext, hf, hpasses, rfl⟩ := passes_of_run_error h
  refine ⟨front, c, r, f, ⟨htext, rfl, Position.offset_start_advances s front, ?_,
    fun name => ?_, ?_⟩, hf⟩
  · show (((Position.start s).advances front).advances (c :: r.take f.more)).offset = _
    rw [Position.offset_advances, Position.offset_start_advances, List.length_cons]
    omega
  · obtain ⟨done, hrun⟩ := hpasses [] (by simp) (.start ⟨name, String.ofList front⟩) []
    rw [List.append_nil, run] at hrun
    exact ⟨_, by rw [tokens, String.toList_ofList, hrun]⟩
  · intro other r' f' hother hf' hfault hcovered
    obtain ⟨done, hrun⟩ := hpasses (c :: r') (by simp) (.start other) []
    have hplace : (Position.start other).advances front =
        ((Position.start s).advances front).moved 0 0 other :=
      Position.advances_moved 0 0 other (.start s) front
    have hcover : after ((Position.start other).advances front) c r' f'.more =
        (after ((Position.start s).advances front) c r f.more).moved 0 0 other := by
      rw [hplace, after, hcovered, ← after, after_moved]
    rw [tokens, hother, hrun, run, hf']
    show Except.error (f'.fault.diagnostic ⟨_, _⟩) = _
    rw [hcover, hplace, hfault]
    rfl

theorem kind_of_tokens {s : Source} {d : Diagnostic} (h : s.tokens = .error d) :
    d.kind = .illegalCharacter ∨ d.kind = .expectedCharacter :=
  kind_of_run h

/-- The diagnostic tells of the first fault of a source, and of no more than the fault takes. -/
structure FailsFirst (s : Source) (d : Diagnostic) : Prop where
  front (name : String) :
    ∃ ts, tokens ⟨name, String.ofList (s.text.toList.take d.span.start.offset)⟩ = .ok ts
  illegal (hkind : d.kind = .illegalCharacter) :
    d.span.start.offset < s.text.toList.length ∧ d.span.stop.offset = d.span.start.offset + 1 ∧
      ∀ other : Source, other.text.toList.take (d.span.start.offset + 1) =
        s.text.toList.take (d.span.start.offset + 1) → other.tokens = .error (d.moved 0 0 other)
  bang {c : Char} (hbang : s.text.toList[d.span.start.offset]? = some '!')
    (hc : s.text.toList[d.span.start.offset + 1]? = some c) :
    c ≠ '=' ∧ ∀ other : Source, other.text.toList.take (d.span.start.offset + 2) =
      s.text.toList.take (d.span.start.offset + 2) → other.tokens = .error (d.moved 0 0 other)
  otherwise (hkind : d.kind ≠ .illegalCharacter) :
    (s.text.toList[d.span.start.offset]? = some '!' ∧
        ∃ c, s.text.toList[d.span.start.offset + 1]? = some c ∧ c ≠ '=') ∨
      (s.text.toList[d.span.start.offset]? = some '!' ∧
        s.text.toList.length = d.span.start.offset + 1) ∨
      (s.text.toList[d.span.start.offset]? = some '"' ∧
        (∀ inside rest, s.text.toList.drop (d.span.start.offset + 1) = inside ++ '"' :: rest →
          Escapes inside) ∧
        d.span.stop.offset = s.text.toList.length)

namespace FaultAt

variable {s : Source} {d : Diagnostic} {front r : List Char} {c : Char} {f : Failure}

theorem take_eq (h : s.FaultAt d front c r f) :
    s.text.toList.take d.span.start.offset = front := by
  rw [h.start, h.text, List.take_left]

theorem drop_eq (h : s.FaultAt d front c r f) :
    s.text.toList.drop (d.span.start.offset + 1) = r := by
  rw [h.start, h.text]
  simp

theorem getElem?_start (h : s.FaultAt d front c r f) :
    s.text.toList[d.span.start.offset]? = some c := by
  rw [h.start, h.text]
  simp

theorem getElem?_next (h : s.FaultAt d front c r f) :
    s.text.toList[d.span.start.offset + 1]? = r.head? := by
  rw [h.start, h.text]
  simp [List.getElem?_append_right, List.head?_eq_getElem?]

theorem length_eq (h : s.FaultAt d front c r f) :
    s.text.toList.length = d.span.start.offset + 1 + r.length := by
  rw [h.start, h.text]
  simp
  omega

/-- A source that agrees for some characters more has the same front and the same character. -/
theorem agrees (h : s.FaultAt d front c r f) {other : Source} {n : Nat}
    (hsame : other.text.toList.take (d.span.start.offset + (n + 1)) =
      s.text.toList.take (d.span.start.offset + (n + 1))) :
    ∃ r', other.text.toList = front ++ c :: r' ∧ r'.take n = r.take n := by
  rw [h.start, h.text, List.take_length_add_append, List.take_succ_cons] at hsame
  have hwhole := List.take_append_drop (front.length + (n + 1)) other.text.toList
  rw [hsame, List.append_assoc, List.cons_append] at hwhole
  refine ⟨_, hwhole.symm, ?_⟩
  rw [← hwhole, List.take_length_add_append, List.take_succ_cons, List.append_cancel_left_eq,
    List.cons.injEq] at hsame
  exact hsame.2

theorem tokens_take (h : s.FaultAt d front c r f) (name : String) :
    ∃ ts, tokens ⟨name, String.ofList (s.text.toList.take d.span.start.offset)⟩ = .ok ts :=
  h.take_eq ▸ h.tokens_front name

/-- A character that begins no token fails whatever is behind it. -/
theorem failsFirst_of_illegal (h : s.FaultAt d front c r ⟨0, .illegalCharacter c⟩) (hc : c ≠ '!')
    (hall : ∀ r', lexeme c r' = .error ⟨0, .illegalCharacter c⟩) : s.FailsFirst d := by
  refine ⟨h.tokens_take, fun _ => ⟨?_, ?_, fun other hsame => ?_⟩, fun hbang _ => ?_,
    fun hne => absurd h.kind hne⟩
  · rw [h.length_eq]
    omega
  · rw [h.stop, h.start]
    rfl
  · obtain ⟨r', htext', -⟩ := h.agrees (n := 0) hsame
    exact h.elsewhere htext' (hall r') rfl rfl
  · rw [h.getElem?_start] at hbang
    exact absurd (Option.some.inj hbang) hc

/-- A bang fails with what is behind it, unless that is an equals sign. -/
theorem failsFirst_of_bang (h : s.FaultAt d front '!' r ⟨1, .loneBang⟩)
    (hhead : r.head? ≠ some '=') : s.FailsFirst d := by
  refine ⟨h.tokens_take, fun hillegal => ?_, fun {c'} _ hnext => ?_, fun _ => ?_⟩
  · rw [h.kind] at hillegal
    cases hillegal
  · rw [h.getElem?_next] at hnext
    refine ⟨fun hequal => hhead (hequal ▸ hnext), fun other hsame => ?_⟩
    obtain ⟨r', htext', hcovered⟩ := h.agrees (n := 1) hsame
    have hhead' : r'.head? = r.head? := by
      simpa [List.head?_take] using congrArg List.head? hcovered
    rw [← hhead'] at hhead
    have hlone : lexeme '!' r' = .error ⟨1, .loneBang⟩ := if_neg hhead
    exact h.elsewhere htext' hlone rfl hcovered
  · cases r with
    | nil => exact .inr (.inl ⟨h.getElem?_start, h.length_eq⟩)
    | cons e r =>
        exact .inl ⟨h.getElem?_start, e, h.getElem?_next, fun hequal => hhead (hequal ▸ rfl)⟩

/-- A quote that nothing closes fails with all that is behind it. -/
theorem failsFirst_of_quote (h : s.FaultAt d front '"' r ⟨r.length, .unclosedString⟩)
    (hnone : string? [] 0 r = none) : s.FailsFirst d := by
  refine ⟨h.tokens_take, fun hillegal => ?_, fun hbang _ => ?_,
    fun _ => .inr (.inr ⟨h.getElem?_start, ?_, ?_⟩)⟩
  · rw [h.kind] at hillegal
    cases hillegal
  · rw [h.getElem?_start] at hbang
    cases hbang
  · rw [h.drop_eq]
    exact escapes_of_string?_eq_none hnone
  · rw [h.stop, h.length_eq, h.start, List.take_length]

end FaultAt

/-- A source that cannot be cut into tokens fails at the first fault. What is in front of it can be
cut into tokens by itself. A character that begins no token is all that its report covers and
depends on, and so are a bang and the character behind it. Else the fault is a bang at the end, or a
quote behind which every quote is escaped, up to the end. -/
theorem tokens_fail_first {s : Source} {d : Diagnostic} (h : s.tokens = .error d) :
    s.FailsFirst d := by
  obtain ⟨front, c, r, f, hat, hf⟩ := exists_fault h
  obtain ⟨rfl, hc, hall⟩ | ⟨rfl, rfl, hhead⟩ | ⟨rfl, rfl, hnone⟩ := fault_of_lexeme hf
  · exact hat.failsFirst_of_illegal hc hall
  · exact hat.failsFirst_of_bang hhead
  · exact hat.failsFirst_of_quote hnone

/-- A quote in a comment is passed over, and what is behind the point makes no difference. -/
theorem tokens_fail_first_comment :
    let s : Source := ⟨"t", "x # \"\n.5"⟩
    let other : Source := ⟨"u", "x # \"\n.\""⟩
    ∃ d, s.tokens = .error d ∧ d.span.start.offset = 6 ∧ s.FailsFirst d ∧
      other.tokens = .error (d.moved 0 0 other) := by
  intro s other
  have hfails : s.tokens = .error ((LexicalFault.illegalCharacter '.').diagnostic
      ⟨⟨6, 1, 0, s⟩, ⟨7, 1, 1, s⟩⟩) := error_of_map (f := fun _ => ()) (by decide +kernel)
  have hfirst := tokens_fail_first hfails
  exact ⟨_, hfails, rfl, hfirst, (hfirst.illegal rfl).2.2 other (by decide)⟩

end BasicScript.Source
