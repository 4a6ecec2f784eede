import BasicScript.Proofs.Token.Beginnings

/-! # Scanning line by line

No lexeme goes on behind a newline that its text ends with, so what stands in front of a newline is
cut up as it is on its own. -/

namespace BasicScript

theorem TokenKind.ofWord_ne_endOfInput (s : String) : ofWord s ≠ endOfInput := by
  unfold ofWord
  cases h : keywords.find? fun k => k.spelling? == some s with
  | none => decide
  | some k =>
      rintro rfl
      exact absurd (List.mem_of_find?_eq_some h) (by decide)

namespace Scan

section

variable {α : Type} {p : α → Bool} {a : α}

/-- What ends a stretch stands for the end of the text. -/
theorem takeWhile_append_cons (ha : p a = false) (xs ys : List α) :
    (xs ++ a :: ys).takeWhile p = xs.takeWhile p := by
  induction xs with
  | nil => simp [ha]
  | cons x xs ih => by_cases hx : p x <;> simp [hx, ih]

theorem dropWhile_append_cons (ha : p a = false) (xs ys : List α) :
    (xs ++ a :: ys).dropWhile p = xs.dropWhile p ++ a :: ys := by
  induction xs with
  | nil => simp [ha]
  | cons x xs ih => by_cases hx : p x <;> simp [hx, ih]

end

/-! ## Lexemes -/

/-- A character that no mark, word or number goes on with. -/
structure Delimits (d : Char) : Prop where
  word : isWordChar d = false
  point : d ≠ '.'
  equal : d ≠ '='
  greater : d ≠ '>'

theorem newline_delimits : Delimits '\n' :=
  ⟨by decide, by decide, by decide, by decide⟩

theorem Delimits.digit {d : Char} (hd : Delimits d) : d.isDigit = false := by
  have hword := hd.word
  simp only [isWordChar, Char.isAlphanum, Bool.or_eq_false_iff] at hword
  exact hword.1.2

/-- A lexeme of a text, which is the same when a newline and more follow the text. -/
structure Ends (lexeme : List Char → Except Failure Lexeme) (r : List Char) (l : Lexeme) :
    Prop where
  more : l.more ≤ r.length
  kind : ∀ t ∈ l.token, t.1 ≠ .endOfInput
  line : ∀ u, lexeme (r ++ '\n' :: u) = .ok l

theorem string?_append {done : List Char} {count : Nat} {cs : List Char} {s : List Char × Nat}
    (h : string? done count cs = some s) (u : List Char) :
    string? done count (cs ++ u) = some s := by
  fun_induction string? done count cs with
  | case1 => cases h
  | case2 => simpa [string?] using h
  | case3 => cases h
  | case4 done count c r ih => simpa [string?] using ih h
  | case5 done count c r hquote hend hescape ih =>
      have hslash : c ≠ '\\' := by
        rintro rfl
        cases r with
        | nil => exact hend rfl rfl
        | cons c r => exact hescape c r rfl rfl
      rw [List.cons_append, string?]
      · exact ih h
      · exact hquote
      · exact fun hc _ => hslash hc
      · exact fun _ _ hc _ => hslash hc

theorem string?_count_le {done : List Char} {count : Nat} {cs : List Char} {s : List Char × Nat}
    (h : string? done count cs = some s) : s.2 ≤ count + cs.length := by
  fun_induction string? done count cs with
  | case1 => cases h
  | case2 =>
      cases h
      simp only [List.length_cons]
      omega
  | case3 => cases h
  | case4 done count c r ih =>
      have hcount := ih h
      simp only [List.length_cons]
      omega
  | case5 done count c r hquote hend hescape ih =>
      have hcount := ih h
      simp only [List.length_cons]
      omega

/-- Nothing behind the quote that closes a string is part of it. -/
theorem string_append {r : List Char} {l : Lexeme} (h : string r = .ok l) (u : List Char) :
    string (r ++ u) = .ok l := by
  cases hs : string? [] 0 r with
  | none => simp [string, hs] at h
  | some s =>
      rw [string, hs] at h
      rw [string, string?_append hs]
      exact h

theorem string_ends {r : List Char} {l : Lexeme} (h : string r = .ok l) : Ends string r l := by
  cases hs : string? [] 0 r with
  | none => simp [string, hs] at h
  | some s =>
      have hline (u : List Char) := string_append h ('\n' :: u)
      rw [string, hs] at h
      cases h
      exact ⟨by simpa using string?_count_le hs, by simp, hline⟩

theorem number_append {d : Char} (hd : Delimits d) (cs u : List Char) :
    number (cs ++ d :: u) = number cs := by
  unfold number
  rw [takeWhile_append_cons hd.digit, dropWhile_append_cons hd.digit]
  cases cs.dropWhile Char.isDigit with
  | nil => simp [hd.point]
  | cons e r =>
      by_cases hdot : e = '.'
      · subst hdot
        simp only [List.cons_append]
        rw [takeWhile_append_cons hd.digit]
      · simp [hdot]

theorem ofNumber_append {d : Char} (hd : Delimits d) (c : Char) (r u : List Char) :
    Lexeme.ofNumber (c :: (r ++ d :: u)) = .ofNumber (c :: r) := by
  unfold Lexeme.ofNumber
  rw [← List.cons_append, number_append hd]

theorem ofWord_append {d : Char} (hd : Delimits d) (c : Char) (r u : List Char) :
    Lexeme.ofWord (c :: (r ++ d :: u)) = .ofWord (c :: r) := by
  unfold Lexeme.ofWord
  rw [← List.cons_append, takeWhile_append_cons hd.word]

/-- What the scan of numbers takes is digits, perhaps with a point and places behind them. -/
theorem number_cases (cs : List Char) :
    number cs = cs.takeWhile Char.isDigit ∨
      ∃ places, number cs = cs.takeWhile Char.isDigit ++ '.' :: places ∧
        (∀ d ∈ places, d.isDigit) ∧ '.' :: places <+: cs.dropWhile Char.isDigit := by
  unfold number
  split
  · rename_i r hdrop
    refine .inr ⟨r.takeWhile Char.isDigit, rfl, ?_, ?_⟩
    · exact fun d hd => List.all_eq_true.mp List.all_takeWhile d hd
    · rw [hdrop]
      exact (List.prefix_cons_inj '.').mpr (List.takeWhile_prefix _)
  · exact .inl rfl

theorem front_number (cs : List Char) : number cs <+: cs := by
  rcases number_cases cs with h | ⟨places, h, -, hplaces⟩
  · rw [h]
    exact List.takeWhile_prefix _
  · have happend := (List.prefix_append_right_inj (cs.takeWhile Char.isDigit)).mpr hplaces
    rw [List.takeWhile_append_dropWhile] at happend
    rw [h]
    exact happend

theorem ofNumber_ends (c : Char) (r : List Char) :
    Ends (fun r => .ok (.ofNumber (c :: r))) r (.ofNumber (c :: r)) where
  more := by
    have hlen := (front_number (c :: r)).length_le
    rw [List.length_cons] at hlen
    show (number (c :: r)).length - 1 ≤ r.length
    omega
  kind t ht := by
    unfold Lexeme.ofNumber at ht
    cases ht
    cases Number.ofLiteral (number (c :: r)) <;> simp
  line u := congrArg Except.ok (ofNumber_append newline_delimits c r u)

theorem ofWord_ends (c : Char) (r : List Char) :
    Ends (fun r => .ok (.ofWord (c :: r))) r (.ofWord (c :: r)) where
  more := by
    have hlen : ((c :: r).takeWhile isWordChar).length ≤ (c :: r).length :=
      (List.takeWhile_prefix _).length_le
    rw [List.length_cons] at hlen
    show ((c :: r).takeWhile isWordChar).length - 1 ≤ r.length
    omega
  kind t ht := by
    cases ht
    exact TokenKind.ofWord_ne_endOfInput _
  line u := congrArg Except.ok (ofWord_append newline_delimits c r u)

theorem single_ne_endOfInput {c : Char} {k : TokenKind} (h : single? c = some k) :
    k ≠ .endOfInput := by
  unfold single? at h
  split at h <;> cases h <;> decide

theorem extensible_cases {c second : Char} {long short : TokenKind}
    (h : extensible? c = some (second, long, short)) :
    (second = '=' ∨ second = '>') ∧ long ≠ .endOfInput ∧ short ≠ .endOfInput := by
  unfold extensible? at h
  split at h <;> cases h <;> decide

theorem either_cases (second : Char) (long short : TokenKind) (r : List Char) :
    r.head? = some second ∧ Lexeme.either second long short r = .mark 1 long ∨
      r.head? ≠ some second ∧ Lexeme.either second long short r = .mark 0 short := by
  unfold Lexeme.either
  split
  · exact .inl ⟨‹_›, rfl⟩
  · exact .inr ⟨‹_›, rfl⟩

/-- Whether a mark is the longer one is told by the character behind its first. -/
theorem either_append {d second : Char} (h : d ≠ second) (long short : TokenKind)
    (r u : List Char) :
    Lexeme.either second long short (r ++ d :: u) = .either second long short r := by
  cases r <;> simp [Lexeme.either, h]

theorem mark_append {c d : Char} {r : List Char} {l : Lexeme} (h : mark? c r = some l)
    (hd : Delimits d) (u : List Char) : mark? c (r ++ d :: u) = some l := by
  unfold mark? at h ⊢
  cases hsingle : single? c with
  | some kind =>
      rw [hsingle] at h
      exact h
  | none =>
      rw [hsingle] at h
      obtain ⟨⟨second, long, short⟩, he, rfl⟩ := Option.map_eq_some_iff.mp h
      have hsecond : d ≠ second := by
        obtain rfl | rfl := (extensible_cases he).1
        · exact hd.equal
        · exact hd.greater
      simp only [he, Option.map_some, either_append hsecond]

theorem mark_ends {c : Char} {r : List Char} {l : Lexeme} (h : mark? c r = some l) :
    l.more ≤ r.length ∧ ∀ t ∈ l.token, t.1 ≠ .endOfInput := by
  unfold mark? at h
  split at h
  · rename_i kind hk
    cases h
    refine ⟨Nat.zero_le _, fun t ht => ?_⟩
    cases ht
    exact single_ne_endOfInput hk
  · obtain ⟨⟨second, long, short⟩, he, rfl⟩ := Option.map_eq_some_iff.mp h
    obtain ⟨-, hlong, hshort⟩ := extensible_cases he
    obtain ⟨hhead, hlonger⟩ | ⟨-, hshorter⟩ := either_cases second long short r
    · obtain ⟨r, rfl⟩ := List.head?_eq_some_iff.mp hhead
      simp only [hlonger]
      exact ⟨Nat.le_add_left 1 r.length, by simpa [Lexeme.mark] using hlong⟩
    · simp only [hshorter]
      exact ⟨Nat.zero_le _, by simpa [Lexeme.mark] using hshort⟩

/-- A newline behind the text of a lexeme makes no difference to it. -/
theorem lexeme_ends {c : Char} {r : List Char} {l : Lexeme} (h : lexeme c r = .ok l) :
    Ends (lexeme c) r l := by
  cases lexeme_iff.mp h with
  | gap hc =>
      exact ⟨Nat.zero_le _, by simp [Lexeme.skip], fun u => lexeme_iff.mpr (.gap hc)⟩
  | comment hc =>
      refine ⟨(List.takeWhile_prefix _).length_le, by simp [Lexeme.skip], fun u => ?_⟩
      rw [lexeme_iff.mpr (.comment hc), takeWhile_append_cons (by decide)]
  | string hc hl =>
      obtain ⟨hmore, hkind, hline⟩ := string_ends hl
      exact ⟨hmore, hkind, fun u => lexeme_iff.mpr (.string hc (hline u))⟩
  | notEqual hc hr =>
      obtain ⟨r, rfl⟩ := List.head?_eq_some_iff.mp hr
      exact ⟨by simp [Lexeme.mark], by simp [Lexeme.mark],
        fun u => lexeme_iff.mpr (.notEqual hc rfl)⟩
  | number hc =>
      obtain ⟨hmore, hkind, hline⟩ := ofNumber_ends c r
      exact ⟨hmore, hkind, fun u => (lexeme_of_isDigit hc _).trans (hline u)⟩
  | word hc =>
      obtain ⟨hmore, hkind, hline⟩ := ofWord_ends c r
      exact ⟨hmore, hkind, fun u => (lexeme_of_isAlpha hc _).trans (hline u)⟩
  | mark hl =>
      obtain ⟨hmore, hkind⟩ := mark_ends hl
      exact ⟨hmore, hkind, fun u => lexeme_iff.mpr (.mark (mark_append hl newline_delimits u))⟩

/-- A token that its text comes to is the same when a character follows that no mark, word or
number goes on with. -/
theorem lexeme_delimited {c d : Char} {r : List Char} {l : Lexeme} (h : lexeme c r = .ok l)
    (hl : l.token ≠ none) (hd : Delimits d) (u : List Char) : lexeme c (r ++ d :: u) = .ok l := by
  cases lexeme_iff.mp h with
  | gap _ => exact absurd rfl hl
  | comment _ => exact absurd rfl hl
  | string hc hstring => exact lexeme_iff.mpr (.string hc (string_append hstring _))
  | notEqual hc hr =>
      obtain ⟨r, rfl⟩ := List.head?_eq_some_iff.mp hr
      exact lexeme_iff.mpr (.notEqual hc rfl)
  | number hc => rw [lexeme_of_isDigit hc, ofNumber_append hd]
  | word hc => rw [lexeme_of_isAlpha hc, ofWord_append hd]
  | mark hmark => exact lexeme_of_mark (mark_append hmark hd u)

/-! ## Whole texts -/

theorem newline_lexeme (u : List Char) : lexeme '\n' u = .ok (.mark 0 .newline) :=
  rfl

theorem advances_append (p : Position) (cs ds : List Char) :
    p.advances (cs ++ ds) = (p.advances cs).advances ds :=
  List.foldl_append

theorem after_advances (p : Position) (c : Char) (r : List Char) (more : Nat) :
    (after p c r more).advances (r.drop more) = p.advances (c :: r) := by
  rw [after, ← advances_append, List.take_append_drop]
  rfl

theorem after_append (p : Position) (c : Char) {r : List Char} {more : Nat} (h : more ≤ r.length)
    (u : List Char) : after p c (r ++ u) more = after p c r more := by
  rw [after, List.take_append_of_le_length h, after]

/-- Behind the newline that follows a text the scan goes on with what the text is cut into. -/
theorem run_line {p : Position} {done ts : List Token} {cs : List Char}
    (h : run p done cs = .ok ts) (hdone : ∀ t ∈ done, t.kind ≠ .endOfInput) :
    ∃ taken, ts = (⟨.endOfInput, none, .single (p.advances cs)⟩ :: taken).reverse ∧
      (∀ t ∈ taken, t.kind ≠ .endOfInput) ∧
      ∀ u, run p done (cs ++ '\n' :: u) = run ((p.advances cs).advance '\n')
        (⟨.newline, none, ⟨p.advances cs, (p.advances cs).advance '\n'⟩⟩ :: taken) u := by
  fun_induction run p done cs with
  | case1 p done =>
      cases h
      refine ⟨done, rfl, hdone, fun u => ?_⟩
      rw [List.nil_append, run, newline_lexeme]
      rfl
  | case2 p done c r l hl next kind literal htoken ih =>
      obtain ⟨hmore, hkind, hline⟩ := lexeme_ends hl
      have hdone' : ∀ t ∈ (⟨kind, literal, ⟨p, next⟩⟩ : Token) :: done, t.kind ≠ .endOfInput :=
        List.forall_mem_cons.mpr ⟨hkind (kind, literal) htoken, hdone⟩
      obtain ⟨taken, hts, htaken, hrun⟩ := ih h hdone'
      rw [after_advances] at hts hrun
      refine ⟨taken, hts, htaken, fun u => ?_⟩
      rw [List.cons_append, run, hline u]
      simp only [htoken, after_append p c hmore, List.drop_append_of_le_length hmore]
      exact hrun u
  | case3 p done c r l hl next htoken ih =>
      obtain ⟨hmore, -, hline⟩ := lexeme_ends hl
      obtain ⟨taken, hts, htaken, hrun⟩ := ih h hdone
      rw [after_advances] at hts hrun
      refine ⟨taken, hts, htaken, fun u => ?_⟩
      rw [List.cons_append, run, hline u]
      simp only [htoken, after_append p c hmore, List.drop_append_of_le_length hmore]
      exact hrun u
  | case4 => cases h

end Scan

end BasicScript
