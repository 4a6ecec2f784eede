import BasicScript.Proofs.Grammar.Cutting

/-! # Constructs on their own

What a level of the grammar reads up to the last token, the looser levels read as the same thing,
and it makes up a program of its own. -/

namespace BasicScript.Grammar

variable {α : Type} {n m k : Nat} {c c₀ c₁ c₂ c' : Cursor} {x y left right base callee : Node}
  {level : Level}

/-- What is read with some fuel is read with more. -/
theorem Cut.same {r r' : Reader α} {a : α} (h : Cut 0 0 r r' c) (hr : r c = .ok a c') :
    r' c = .ok a c' := by
  simpa [Cursor.cut_zero] using (h a c' hr).2 (Nat.zero_le _)

/-! ## Where loops end -/

theorem callLoop_of_kind (h : c.peek.kind ≠ .leftParen) :
    callLoop (n + 1) callee c = .ok callee c := by
  unfold callLoop
  rw [accept_bind, if_neg h]
  rfl

theorem powerLoop_of_kind (h : c.peek.kind ≠ .caret) : powerLoop (n + 1) base c = .ok base c := by
  unfold powerLoop
  rw [accept_bind, if_neg h]
  rfl

theorem chainLoop_of_kind (h : level.operator? c.peek.kind = none) :
    chainLoop (n + 1) level left c = .ok left c := by
  unfold chainLoop
  rw [peekKind_bind]
  simp only [h]
  rfl

theorem Level.operator?_endOfInput (level : Level) : level.operator? .endOfInput = none := by
  cases level <;> rfl

/-! ## First tokens -/

/-- The tokens that an atom starts with. -/
def startsAtom : TokenKind → Bool
  | .int | .float | .string | .identifier | .leftParen | .leftBracket | .ifWord | .forWord
  | .whileWord | .fnWord => true
  | _ => false

theorem startsAtom_of_atom (h : atom n c = .ok x c') : startsAtom c.peek.kind := by
  cases n with
  | zero => cases h
  | succ n =>
      unfold atom at h
      rw [peek_bind] at h
      cases hk : c.peek.kind <;> first | rfl | (simp only [hk] at h; cases h)

/-- A name that a colon follows is all that is read, if it is not read as a declaration. -/
def StopsAtColon (c c' : Cursor) : Prop :=
  c.peek.kind = .identifier → c.advance.peek.kind = .colon → c' = c.advance

theorem stopsAtColon_of_atom (h : atom n c = .ok x c') : StopsAtColon c c' := by
  intro hk _
  cases n with
  | zero => cases h
  | succ n =>
      unfold atom at h
      rw [peek_bind] at h
      simp only [hk] at h
      cases h
      rfl

theorem stopsAtColon_of_call (h : call n c = .ok x c') : StopsAtColon c c' := by
  intro hk hcolon
  cases n with
  | zero => cases h
  | succ n =>
      unfold call at h
      obtain ⟨callee, c₁, ha, h⟩ := ok_of_bind h
      obtain rfl := stopsAtColon_of_atom ha hk hcolon
      have h := ((cutting 0 n).callLoop (Nat.le_succ n) callee _).same h
      rw [callLoop_of_kind (by simp [hcolon])] at h
      cases h
      rfl

theorem startsAtom_of_call (h : call n c = .ok x c') : startsAtom c.peek.kind := by
  cases n with
  | zero => cases h
  | succ n =>
      unfold call at h
      obtain ⟨callee, c₁, ha, h⟩ := ok_of_bind h
      exact startsAtom_of_atom ha

theorem stopsAtColon_of_factor (h : factor n c = .ok x c') : StopsAtColon c c' := by
  intro hk hcolon
  cases n with
  | zero => cases h
  | succ n =>
      unfold factor at h
      rw [peekKind_bind, if_neg (by simp [hk])] at h
      obtain ⟨base, c₁, hcall, h⟩ := ok_of_bind h
      obtain rfl := stopsAtColon_of_call hcall hk hcolon
      have h := ((cutting 0 n).powerLoop (Nat.le_succ n) base _).same h
      rw [powerLoop_of_kind (by simp [hcolon])] at h
      cases h
      rfl

theorem starts_of_factor (h : factor n c = .ok x c') :
    startsAtom c.peek.kind ∨ c.peek.kind = .minus := by
  cases n with
  | zero => cases h
  | succ n =>
      unfold factor at h
      rw [peekKind_bind] at h
      split at h
      · rename_i hk
        exact .inr hk
      · obtain ⟨base, c₁, hcall, h⟩ := ok_of_bind h
        exact .inl (startsAtom_of_call hcall)

/-- How the operands of a level start. -/
structure Starts (level : Level) (c c' : Cursor) : Prop where
  colon : StopsAtColon c c'
  kind : startsAtom c.peek.kind ∨ c.peek.kind = .minus ∨ level = .logic ∧ c.peek.kind = .not

theorem Starts.ne_not {c c' : Cursor} (h : Starts level c c') (hlevel : level = .comparison) :
    c.peek.kind ≠ .not := by
  intro hk
  rcases h.kind with h | h | h
  · simp [hk, startsAtom] at h
  · simp [hk] at h
  · simp [hlevel] at h

theorem chainLoop_of_colon (hcolon : c.peek.kind = .colon)
    (h : chainLoop n level left c = .ok x c') : c' = c := by
  have h := ((cutting 0 n).chainLoop (Nat.le_succ n) level left _).same h
  have hnone : level.operator? c.peek.kind = none := by rw [hcolon]; cases level <;> rfl
  rw [chainLoop_of_kind hnone] at h
  cases h
  rfl

/-- A chain starts as its operands do, or with `not`. -/
theorem starts_of_chain
    (ih : ∀ {n c x c'}, operand n level c = .ok x c' → Starts level c c')
    (h : chain n level c = .ok x c') :
    Starts level c c' ∨ level = .comparison ∧ c.peek.kind = .not := by
  cases n with
  | zero => cases h
  | succ n =>
      unfold chain at h
      rw [peekKind_bind] at h
      split at h
      · rename_i hk
        exact .inr hk
      · obtain ⟨left, c₁, hleft, h⟩ := ok_of_bind h
        obtain ⟨hcolon, hkind⟩ := ih hleft
        refine .inl ⟨fun hk hk' => ?_, hkind⟩
        obtain rfl := hcolon hk hk'
        exact chainLoop_of_colon hk' h

theorem starts_of_operand (h : operand n level c = .ok x c') : Starts level c c' := by
  have product {n c x c'} (h : operand n .product c = .ok x c') : Starts .product c c' := by
    cases n with
    | zero => cases h
    | succ n =>
        have h : factor n c = .ok x c' := h
        exact ⟨stopsAtColon_of_factor h, (starts_of_factor h).imp_right .inl⟩
  -- the operands of a level are the chains of the next
  have looser {level tighter : Level} (ht : level.tighter = some tighter)
      (ih : ∀ {n c x c'}, operand n tighter c = .ok x c' → Starts tighter c c') {n c x c'}
      (h : operand n level c = .ok x c') : Starts level c c' := by
    cases n with
    | zero => cases h
    | succ n =>
        unfold operand at h
        simp only [ht] at h
        have hlogic : tighter ≠ .logic := by cases level <;> cases ht <;> decide
        rcases starts_of_chain ih h with ⟨hcolon, hkind⟩ | ⟨rfl, hk⟩
        · exact ⟨hcolon, hkind.imp_right (Or.imp_right fun h => absurd h.1 hlogic)⟩
        · have hlevel : level = .logic := by cases level <;> cases ht; rfl
          exact ⟨fun hk' => absurd (hk.symm.trans hk') (by decide), .inr (.inr ⟨hlevel, hk⟩)⟩
  cases level with
  | product => exact product h
  | sum => exact looser rfl product h
  | comparison => exact looser rfl (looser rfl product) h
  | logic => exact looser rfl (looser rfl (looser rfl product)) h

theorem kind_of_chain (h : chain n level c = .ok x c') :
    startsExpression c.peek.kind ∧ tag? c.peek.kind = none := by
  have hkind : startsAtom c.peek.kind ∨ c.peek.kind = .minus ∨ c.peek.kind = .not := by
    rcases starts_of_chain starts_of_operand h with hstarts | ⟨-, hk⟩
    · exact hstarts.kind.imp_right (Or.imp_right And.right)
    · exact .inr (.inr hk)
  cases hk : c.peek.kind <;> simp [hk, startsAtom, startsExpression, tag?] at hkind ⊢

theorem stopsAtColon_of_chain (h : chain n level c = .ok x c') : StopsAtColon c c' := by
  rcases starts_of_chain starts_of_operand h with hstarts | ⟨-, hnot⟩
  · exact hstarts.colon
  · exact fun hk => absurd (hnot.symm.trans hk) (by decide)

theorem startsExpression_of_expression (h : expression n c = .ok x c') :
    startsExpression c.peek.kind := by
  cases n with
  | zero => cases h
  | succ n =>
      unfold expression at h
      rw [peekKind_bind] at h
      cases htag : tag? c.peek.kind with
      | some tag => cases hk : c.peek.kind <;> rw [hk] at htag <;> cases htag <;> rfl
      | none =>
          simp only [htag] at h
          rw [get_bind] at h
          split at h
          · rename_i hname
            rw [hname.1]
            rfl
          · exact (kind_of_chain h).1

/-- No statement starts with a newline or a token that ends a block. -/
theorem kind_of_statement (h : statement n c = .ok x c') :
    c.peek.kind ≠ .newline ∧ endsBlock c.peek.kind = false := by
  cases n with
  | zero => cases h
  | succ n =>
      unfold statement at h
      rw [peekKind_bind] at h
      cases hk : c.peek.kind <;> simp only [hk] at h <;> first
        | exact ⟨by decide, rfl⟩
        | (have hstarts := startsExpression_of_expression h
           rw [hk] at hstarts
           cases hstarts)

/-! ## Looser levels -/

/-- All that is left is read as `x`. -/
def Alone (r : Nat → Reader Node) (c : Cursor) (x : Node) : Prop :=
  ∃ n c', r n c = .ok x c' ∧ c'.rest = []

namespace Alone

theorem call (h : Alone atom c x) : Alone call c x := by
  obtain ⟨n, c', h, hc'⟩ := h
  have hend := Cursor.kind_of_rest_nil hc'
  refine ⟨n + 2, c', ?_, hc'⟩
  unfold Grammar.call
  rw [bind_of_ok (((cutting 0 n).atom (Nat.le_succ n) c).same h)]
  exact callLoop_of_kind (by simp [hend])

theorem factor (h : Alone Grammar.call c x) : Alone factor c x := by
  obtain ⟨n, c', h, hc'⟩ := h
  have hend := Cursor.kind_of_rest_nil hc'
  have hk : c.peek.kind ≠ .minus := by
    intro hk
    have hatom := startsAtom_of_call h
    simp [hk, startsAtom] at hatom
  refine ⟨n + 2, c', ?_, hc'⟩
  unfold Grammar.factor
  rw [peekKind_bind, if_neg hk, bind_of_ok (((cutting 0 n).call (Nat.le_succ n) c).same h)]
  exact powerLoop_of_kind (by simp [hend])

theorem operand_of_factor (h : Alone Grammar.factor c x) : Alone (operand · .product) c x := by
  obtain ⟨n, c', h, hc'⟩ := h
  exact ⟨n + 1, c', h, hc'⟩

theorem chain (h : Alone (operand · level) c x) : Alone (chain · level) c x := by
  obtain ⟨n, c', h, hc'⟩ := h
  have hend := Cursor.kind_of_rest_nil hc'
  have hk : ¬(level = .comparison ∧ c.peek.kind = .not) :=
    fun hk => (starts_of_operand h).ne_not hk.1 hk.2
  refine ⟨n + 2, c', ?_, hc'⟩
  show Grammar.chain (n + 2) level c = _
  unfold Grammar.chain
  rw [peekKind_bind, if_neg hk,
    bind_of_ok (((cutting 0 n).operand (Nat.le_succ n) level c).same h)]
  exact chainLoop_of_kind (by rw [hend, level.operator?_endOfInput])

theorem operand_of_chain {tighter : Level} (ht : level.tighter = some tighter)
    (h : Alone (Grammar.chain · tighter) c x) : Alone (operand · level) c x := by
  obtain ⟨n, c', h, hc'⟩ := h
  refine ⟨n + 1, c', ?_, hc'⟩
  show operand (n + 1) level c = _
  unfold operand
  simp only [ht]
  exact h

/-- From any level up to the loosest. -/
theorem logic (h : Alone (Grammar.chain · level) c x) : Alone (Grammar.chain · .logic) c x := by
  have comparison (h : Alone (Grammar.chain · .comparison) c x) :
      Alone (Grammar.chain · .logic) c x := (operand_of_chain rfl h).chain
  have sum (h : Alone (Grammar.chain · .sum) c x) : Alone (Grammar.chain · .logic) c x :=
    comparison (operand_of_chain rfl h).chain
  cases level with
  | logic => exact h
  | comparison => exact comparison h
  | sum => exact sum h
  | product => exact sum (operand_of_chain rfl h).chain

theorem expression (h : Alone (Grammar.chain · level) c x) : Alone expression c x := by
  obtain ⟨n, c', h, hc'⟩ := h.logic
  have hname : ¬(c.peek.kind = .identifier ∧ c.peekSecond.kind = .colon) := by
    rintro ⟨hk, hcolon⟩
    rw [Cursor.peekSecond_eq (Cursor.rest_ne_nil (by simp [hk]))] at hcolon
    have hend := Cursor.kind_of_rest_nil hc'
    rw [stopsAtColon_of_chain h hk hcolon, hcolon] at hend
    cases hend
  refine ⟨n + 1, c', ?_, hc'⟩
  unfold Grammar.expression
  rw [peekKind_bind]
  simp only [(kind_of_chain h).2]
  rw [get_bind, if_neg hname]
  exact h

theorem statement (h : Alone Grammar.expression c x) : Alone statement c x := by
  obtain ⟨n, c', h, hc'⟩ := h
  have hstarts := startsExpression_of_expression h
  refine ⟨n + 1, c', ?_, hc'⟩
  unfold Grammar.statement
  rw [peekKind_bind]
  cases hk : c.peek.kind <;> first
    | exact h
    | (rw [hk] at hstarts
       cases hstarts)

/-- A statement is the one line of a program. -/
theorem line (h : Alone Grammar.statement c x) :
    ∃ n c', statementsLoop n [] c = .ok [x] c' ∧ c'.rest = [] := by
  obtain ⟨n, c', h, hc'⟩ := h
  obtain ⟨hnewline, hends⟩ := kind_of_statement h
  have hend := Cursor.kind_of_rest_nil hc'
  refine ⟨n + 1, c', ?_, hc'⟩
  unfold statementsLoop
  rw [skipNewlines_bind, Cursor.behindNewlines_of_kind_ne hnewline, peekKind_bind, hends,
    if_neg Bool.false_ne_true, bind_of_ok h, peekKind_bind, if_neg (by simp [hend])]
  rfl

end Alone

/-! ## Loops that are gone through in part -/

/-- Cut off anywhere behind `c`, `r` reads from `c₀` what `s` reads from `c`. -/
def Resumes (r s : Nat → Reader α) (c₀ c : Cursor) : Prop :=
  ∀ k ≤ c.rest.length, ∀ m a c', s m (c.cut k) = .ok a c' → ∃ n, r n (c₀.cut k) = .ok a c'

/-- Where nothing follows, what is read so far stands alone. -/
theorem Resumes.alone {r s : Nat → Reader Node} (h : Resumes r s c₀ c)
    (hs : ∀ c : Cursor, c.rest = [] → s 1 c = .ok x c) : Alone r (c₀.cut c.rest.length) x := by
  have hnil : (c.cut c.rest.length).rest = [] := Cursor.rest_cut_of_le (Nat.le_refl _)
  obtain ⟨n, hn⟩ := h _ (Nat.le_refl _) 1 x _ (hs _ hnil)
  exact ⟨n, _, hn, hnil⟩

theorem callLoop_at_end (hc : c.rest = []) : callLoop 1 callee c = .ok callee c :=
  callLoop_of_kind (by simp [Cursor.kind_of_rest_nil hc])

theorem powerLoop_at_end (hc : c.rest = []) : powerLoop 1 base c = .ok base c :=
  powerLoop_of_kind (by simp [Cursor.kind_of_rest_nil hc])

theorem chainLoop_at_end (hc : c.rest = []) : chainLoop 1 level left c = .ok left c :=
  chainLoop_of_kind (by rw [Cursor.kind_of_rest_nil hc, level.operator?_endOfInput])

theorem resumes_of_atom (h : atom n c₀ = .ok callee c) :
    Resumes call (callLoop · callee) c₀ c := by
  intro k hk m a c' hm
  refine ⟨max n m + 1, ?_⟩
  unfold call
  rw [bind_of_ok (((cutting k n).atom (Nat.le_max_left n m) c₀ _ _ h).2 hk)]
  exact ((cutting 0 m).callLoop (Nat.le_max_right n m) callee _).same hm

theorem resumes_of_call (h : call n c₀ = .ok base c) :
    Resumes factor (powerLoop · base) c₀ c := by
  intro k hk m a c' hm
  have hread := ((cutting k n).call (Nat.le_max_left n m) c₀ _ _ h).2 hk
  have hatom := startsAtom_of_call hread
  refine ⟨max n m + 1, ?_⟩
  unfold factor
  rw [peekKind_bind, if_neg (fun hminus => by simp [hminus, startsAtom] at hatom),
    bind_of_ok hread]
  exact ((cutting 0 m).powerLoop (Nat.le_max_right n m) base _).same hm

theorem resumes_of_operand (h : operand n level c₀ = .ok left c) :
    Resumes (chain · level) (chainLoop · level left) c₀ c := by
  intro k hk m a c' hm
  have hread := ((cutting k n).operand (Nat.le_max_left n m) level c₀ _ _ h).2 hk
  refine ⟨max n m + 1, ?_⟩
  show chain (max n m + 1) level _ = _
  unfold chain
  rw [peekKind_bind, if_neg (fun hnot => (starts_of_operand hread).ne_not hnot.1 hnot.2),
    bind_of_ok hread]
  exact ((cutting 0 m).chainLoop (Nat.le_max_right n m) level left _).same hm

theorem Resumes.call_step {args : List Node} (h : Resumes call (callLoop · callee) c₀ c)
    (hopen : c.peek.kind = .leftParen) (hargs : items n .rightParen c.advance = .ok args c₁)
    (hclose : c₁.peek.kind = .rightParen) :
    Resumes call (callLoop · (.call callee args (callee.span.through c₁.peek.span))) c₀
      c₁.advance := by
  intro k hk m a c' hm
  have hone := Cursor.Reaches.advance_of_kind (c := c) (by simp [hopen])
  have htwo := Cursor.Reaches.advance_of_kind (c := c₁) (by simp [hclose])
  obtain ⟨hreach, hcut⟩ := (cutting k n).items (Nat.le_max_left n m) .rightParen c.advance _ _ hargs
  have hlen := hone.length_le
  have hlen₁ := hreach.length_le
  have hlen₂ := htwo.length_le
  refine h k (by omega) (max n m + 1) a c' ?_
  show callLoop (max n m + 1) callee _ = _
  unfold callLoop
  rw [accept_bind, Cursor.peek_cut (by omega), if_pos hopen, if_pos rfl,
    Cursor.advance_cut (by omega), bind_of_ok (hcut (by omega)), expect_bind,
    Cursor.peek_cut (by omega), if_pos hclose, Cursor.advance_cut (by omega)]
  exact ((cutting 0 m).callLoop (Nat.le_max_right n m) _ _).same hm

theorem Resumes.power_step (h : Resumes factor (powerLoop · base) c₀ c)
    (hcaret : c.peek.kind = .caret) (hexponent : factor n c.advance = .ok x c₁) :
    Resumes factor (powerLoop · (binaryNode .power base x)) c₀ c₁ := by
  intro k hk m a c' hm
  have hone := Cursor.Reaches.advance_of_kind (c := c) (by simp [hcaret])
  obtain ⟨hreach, hcut⟩ := (cutting k n).factor (Nat.le_max_left n m) c.advance _ _ hexponent
  have hlen := hone.length_le
  have hlen₁ := hreach.length_le
  refine h k (by omega) (max n m + 1) a c' ?_
  show powerLoop (max n m + 1) base _ = _
  unfold powerLoop
  rw [accept_bind, Cursor.peek_cut (by omega), if_pos hcaret, if_pos rfl,
    Cursor.advance_cut (by omega), bind_of_ok (hcut hk)]
  exact ((cutting 0 m).powerLoop (Nat.le_max_right n m) _ _).same hm

theorem Resumes.chain_step {op : BinaryOp} (h : Resumes (chain · level) (chainLoop · level left) c₀ c)
    (hop : level.operator? c.peek.kind = some op) (hright : operand n level c.advance = .ok right c₁) :
    Resumes (chain · level) (chainLoop · level (binaryNode op left right)) c₀ c₁ := by
  intro k hk m a c' hm
  have hone := Cursor.Reaches.advance_of_kind (c := c) (fun hend => by
    rw [hend, level.operator?_endOfInput] at hop
    cases hop)
  obtain ⟨hreach, hcut⟩ := (cutting k n).operand (Nat.le_max_left n m) level c.advance _ _ hright
  have hlen := hone.length_le
  have hlen₁ := hreach.length_le
  refine h k (by omega) (max n m + 1) a c' ?_
  show chainLoop (max n m + 1) level left _ = _
  unfold chainLoop
  rw [peekKind_bind, Cursor.peek_cut (by omega)]
  simp only [hop]
  rw [next_bind, Cursor.advance_cut (by omega), bind_of_ok (hcut hk)]
  exact ((cutting 0 m).chainLoop (Nat.le_max_right n m) level _ _).same hm

end BasicScript.Grammar
