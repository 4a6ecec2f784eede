import BasicScript.Proofs.Data.Unfolding
import BasicScript.Proofs.Grammar.RoundTrip
import BasicScript.Proofs.Token.Moving
import BasicScript.Proofs.Token.Writing

/-! # Data as source text

The quoted form of plain data spells one expression, the literal of these data. A source that is
nothing but this form is a program of that one line. -/

namespace BasicScript

/-- The digits of an integer, without its sign, fit again, unless it is the least one. -/
theorem Number.natAbs_lt {n : Int64} (hn : n ≠ Int64.minValue) :
    n.toInt.natAbs < 0x8000000000000000 := by
  have hleast : n.toInt ≠ -2 ^ 63 := by
    rwa [ne_eq, ← Int64.toInt_minValue, Int64.toInt_inj]
  have hle := n.le_toInt
  have hlt := n.toInt_lt
  omega

namespace Unfolding

/-- Integers that are spelled by a sign and digits, texts in which nothing has to be escaped, and
lists of such data. The digits of the least integer are those of no integer. -/
inductive Plain : Unfolding → Prop
  | number {n : Int64} (hn : n ≠ Int64.minValue) : Plain (.number (.int n))
  | text {t : String} (ht : ∀ c ∈ t.toList, c ≠ '"' ∧ c ≠ '\\') : Plain (.text t)
  | list {us : List Unfolding} (hus : ∀ u ∈ us, Plain u) : Plain (.list us)

/-- An integer is spelled by its digits, with a minus in front if it is negative. -/
def signed (n : Int64) : Node :=
  let magnitude : Node := .number (.int (.ofInt n.toInt.natAbs)) default
  if n.toInt < 0 then .unary .negate magnitude default else magnitude

mutual

/-- The expression that plain data are spelled by. -/
def literal : Unfolding → Node
  | number (.int n) => signed n
  | text t => .text t default
  | list us => .list (literals us) default
  | _ => default

def literals : List Unfolding → List Node
  | [] => []
  | u :: us => literal u :: literals us

end

@[simp]
theorem literal_number (n : Int64) : (number (.int n)).literal = signed n :=
  rfl

@[simp]
theorem literal_text (t : String) : (text t).literal = .text t default :=
  rfl

@[simp]
theorem literal_list (us : List Unfolding) :
    (list us).literal = .list (us.map literal) default := by
  have literals_eq_map (us : List Unfolding) : literals us = us.map literal := by
    induction us with
    | nil => rfl
    | cons u us ih => exact congrArg (u.literal :: ·) ih
  rw [← literals_eq_map]
  rfl

theorem signed_of_nonneg {n : Int64} (hn : 0 ≤ n.toInt) :
    signed n = .number (.int (.ofInt n.toInt.natAbs)) default :=
  if_neg (Int.not_lt.mpr hn)

theorem signed_of_neg {n : Int64} (hn : n.toInt < 0) :
    signed n = .unary .negate (.number (.int (.ofInt n.toInt.natAbs)) default) default :=
  if_pos hn

/-- A literal never needs parentheses. -/
theorem fitted_literal (u : Unfolding) (ss : List Symbol) : Node.fitted 1 u.literal ss = ss := by
  have htight : 6 ≤ u.literal.tightness := by
    unfold literal
    split
    · rename_i n
      rcases Int.lt_or_le n.toInt 0 with hn | hn
      · rw [signed_of_neg hn]
        exact Nat.le_refl 6
      · rw [signed_of_nonneg hn]
        exact Nat.le_succ 6
    all_goals exact Nat.le_succ 6
  exact if_neg (by omega)

theorem Plain.fits_literal {u : Unfolding} (h : u.Plain) {role : Node.Role}
    (hrole : role ≠ .block) : u.literal.fits role = true := by
  have hplace : (role != .block) = true := by simpa using hrole
  induction h generalizing role with
  | @number n =>
      rw [literal_number, signed]
      split <;> simp [Node.fits, hplace]
  | text => simp [Node.fits, hplace]
  | list hus ih =>
      rw [literal_list, Node.fits, if_neg hrole, Node.fitsAll_iff]
      intro x hx
      obtain ⟨u, hu, rfl⟩ := List.mem_map.mp hx
      exact ih u hu (by decide) rfl

end Unfolding

/-! ## Cutting the quoted form into tokens -/

namespace Scan

/-- In front of `rest`, the text `cs` is cut into tokens that are `ss`, wherever it stands. -/
def Cuts (cs : List Char) (ss : List Symbol) (rest : List Char) : Prop :=
  ∀ p done, ∃ (q : Position) (ts : List Token),
    run p done (cs ++ rest) = run q (ts.reverse ++ done) rest ∧
      ts.map Token.symbol = ss ∧ ∀ t ∈ ts, t.kind ≠ .endOfInput

namespace Cuts

variable {cs ds rest : List Char} {ss us : List Symbol}

theorem nil (rest : List Char) : Cuts [] [] rest :=
  fun p _ => ⟨p, [], rfl, rfl, List.forall_mem_nil _⟩

theorem append (h : Cuts cs ss (ds ++ rest)) (h' : Cuts ds us rest) :
    Cuts (cs ++ ds) (ss ++ us) rest := by
  intro p done
  obtain ⟨q, ts, hrun, hts, hkind⟩ := h p done
  obtain ⟨q', ts', hrun', hts', hkind'⟩ := h' q (ts.reverse ++ done)
  refine ⟨q', ts ++ ts', ?_, by rw [List.map_append, hts, hts'], ?_⟩
  · rw [List.append_assoc, hrun, hrun', List.reverse_append, List.append_assoc]
  · exact List.forall_mem_append.mpr ⟨hkind, hkind'⟩

theorem written (w : Writing) (hrest : ∀ d ∈ rest.head?, Delimits d) :
    Cuts w.spelling [w.symbol] rest :=
  fun p done => ⟨_, [⟨w.symbol.kind, w.symbol.literal, ⟨p, p.advances w.spelling⟩⟩],
    run_spelled w.spelled hrest p done, rfl,
    List.forall_mem_singleton.mpr w.spelled.kind_ne_endOfInput⟩

/-- A mark of one character, where no longer one begins. -/
theorem mark {c : Char} {k : TokenKind} (h : lexeme c rest = .ok (.mark 0 k))
    (hk : k ≠ .endOfInput) : Cuts [c] [.mark k] rest := by
  refine fun p done => ⟨p.advance c, [⟨k, none, ⟨p, p.advance c⟩⟩], ?_, rfl,
    List.forall_mem_singleton.mpr hk⟩
  rw [List.singleton_append, run, h]
  rfl

theorem blank (rest : List Char) : Cuts [' '] [] rest := by
  refine fun p done => ⟨p.advance ' ', [], ?_, rfl, List.forall_mem_nil _⟩
  rw [List.singleton_append, run]
  rfl

/-- A minus in front of digits is no arrow. -/
theorem minus (n : Nat) (rest : List Char) :
    Cuts ['-'] [.mark .minus] ((toString n).toList ++ rest) := by
  have hne : (toString n).toList ≠ [] := by simp [Nat.toString_eq_repr]
  obtain ⟨d, r, hdigits, hd⟩ := exists_cons_of_digits hne (Decimal.padded_isDigit 0 n) rest
  have harrow : d ≠ '>' := by
    rintro rfl
    cases hd
  refine mark ?_ (by decide)
  rw [hdigits]
  simp [lexeme, isGap, mark?, single?, extensible?, Lexeme.either, harrow]

/-- Digits, with a minus in front of those of a negative number. -/
theorem signed {n : Int64} (hn : n ≠ Int64.minValue) (L : Layout)
    (hrest : ∀ d ∈ rest.head?, Delimits d) :
    Cuts (toString n.toInt).toList ((Unfolding.signed n).symbols L) rest := by
  have hdigits : Cuts (toString n.toInt.natAbs).toList
      [.number (.int (.ofInt n.toInt.natAbs))] rest :=
    written (.int 0 _ (Number.natAbs_lt hn)) hrest
  rcases Int.lt_or_le n.toInt 0 with hneg | hpos
  · rw [Unfolding.signed_of_neg hneg, Decimal.toString_of_neg hneg, ← List.singleton_append]
    exact append (minus _ rest) hdigits
  · rw [Unfolding.signed_of_nonneg hpos, Decimal.toString_of_nonneg hpos]
    exact hdigits

theorem text {t : String} (ht : ∀ c ∈ t.toList, c ≠ '"' ∧ c ≠ '\\')
    (hrest : ∀ d ∈ rest.head?, Delimits d) :
    Cuts ((Unfolding.text t).written .quoted).toList [.text t] rest := by
  have hspelling : (Writing.string (t.toList.map (·, true))).spelling =
      ((Unfolding.text t).written .quoted).toList := by
    have hplain : ∀ c ∈ t.toList, Quoted.character c true = [c] := fun c hc => by
      simp [Quoted.character, ht c hc]
    simp [Writing.spelling, List.flatMap_map, List.flatMap_congr hplain]
  have hsymbol : (Writing.string (t.toList.map (·, true))).symbol = .text t := by
    have hfst : Prod.fst ∘ (fun c : Char => (c, true)) = id := rfl
    rw [Writing.symbol, List.map_map, hfst, List.map_id, String.ofList_toList]
  rw [← hspelling, ← hsymbol]
  exact written _ hrest

theorem items {us : List Unfolding} (L : Layout) (rest : List Char)
    (h : ∀ u ∈ us, ∀ rest : List Char, (∀ d ∈ rest.head?, Delimits d) →
      Cuts (u.written .quoted).toList (u.literal.symbols L) rest) :
    Cuts (List.intercalate [',', ' '] (us.map fun u => (u.written .quoted).toList))
      (Node.itemSymbols L (us.map Unfolding.literal)) (']' :: rest) := by
  have hbracket : Delimits ']' := ⟨by decide, by decide, by decide, by decide⟩
  have hcomma : Delimits ',' := ⟨by decide, by decide, by decide, by decide⟩
  induction us with
  | nil => exact nil _
  | cons u us ih =>
      obtain ⟨hu, hus⟩ := List.forall_mem_cons.mp h
      cases us with
      | nil =>
          have hlast := hu (']' :: rest) (by simpa using hbracket)
          simpa [Node.itemSymbols, Unfolding.fitted_literal] using hlast
      | cons u' us =>
          have hsep : Cuts [',', ' '] [.mark .comma]
              (List.intercalate [',', ' '] ((u' :: us).map fun u => (u.written .quoted).toList) ++
                ']' :: rest) := append (mark rfl (by decide)) (blank _)
          have hcuts := append (hu _ (by simpa using hcomma)) (append hsep (ih hus))
          simpa [Node.itemSymbols, Unfolding.fitted_literal] using hcuts

end Cuts

end Scan

/-- What is read from bare symbols is read from tokens that are these symbols. -/
theorem Node.ofTokens_of_reads {ts : List Token} {x : Node}
    (h : Grammar.Reads Grammar.program (Token.symbols ts) x []) :
    ∃ y, ofTokens ts = .ok y ∧ x.Alike y := by
  obtain ⟨N, hN⟩ := h
  have hlead : (Cursor.ofSymbols (Token.symbols ts)).Leads [] (.ofTokens ts) := by
    rw [Cursor.Leads, symbols_ofSymbols, List.append_nil]
    rfl
  obtain ⟨y, c, hy, hxy, -⟩ := Grammar.program_follows hlead _ _
    (hN _ (Nat.le_max_right (Grammar.fuelFor ts) N))
  exact ⟨y, (ofTokens_eq_ok_iff_of_le (Nat.le_max_left _ _)).mpr ⟨c, hy⟩, hxy⟩

namespace Unfolding.Plain

variable {u : Unfolding}

/-- The quoted form of plain data is cut into the tokens of their literal. -/
theorem cuts_written (h : u.Plain) (L : Layout) (rest : List Char)
    (hrest : ∀ d ∈ rest.head?, Scan.Delimits d) :
    Scan.Cuts (u.written .quoted).toList (u.literal.symbols L) rest := by
  induction h generalizing rest with
  | number hn => exact .signed hn L hrest
  | text ht => exact .text ht hrest
  | @list us hus ih =>
      have hwritten : ((Unfolding.list us).written .quoted).toList =
          ['['] ++ (List.intercalate [',', ' '] (us.map fun u => (u.written .quoted).toList) ++
            [']']) := by
        simp [String.toList_intercalate, Function.comp_def]
      rw [hwritten, literal_list]
      exact .append (.mark rfl (by decide)) (.append (.items L rest ih) (.mark rfl (by decide)))

/-- A source that is the quoted form of plain data is the program of one line, which is their
literal. -/
theorem ofSource_written (h : u.Plain) (name : String) :
    ∃ y, Node.ofSource ⟨name, u.written .quoted⟩ = .ok y ∧
      y.Alike (.list [u.literal] default) := by
  let L : Layout := ⟨fun _ => false, fun _ => 0, fun _ => 0⟩
  obtain ⟨q, ts, hrun, hts, hkind⟩ :=
    h.cuts_written L [] (by simp) (.start ⟨name, u.written .quoted⟩) []
  have htokens : Source.tokens ⟨name, u.written .quoted⟩ =
      .ok (ts ++ [⟨.endOfInput, none, .single q⟩]) := by
    rw [List.append_nil] at hrun
    rw [Source.tokens, hrun, Scan.run]
    simp
  have hsymbols : Token.symbols (ts ++ [⟨.endOfInput, none, .single q⟩]) =
      (Node.list [u.literal] default).blockSymbols L 0 := by
    have hline : (Node.list [u.literal] default).blockSymbols L 0 = u.literal.symbols L :=
      List.append_nil _
    rw [Token.symbols_append hkind, hts, hline]
    exact List.append_nil _
  have hfits : (Node.list [u.literal] default).fits .block = true := by
    simp [Node.fits, Node.fitsAll, h.fits_literal]
  obtain ⟨y, hy, hxy⟩ := Node.ofTokens_of_reads (hsymbols ▸ Grammar.program_reads hfits)
  refine ⟨y, ?_, ?_⟩
  · rw [Node.ofSource, htokens]
    exact hy
  · exact hxy.symm.trans (Node.bare_bare _)

end Unfolding.Plain

end BasicScript
