import BasicScript.Proofs.Grammar.Spelling

/-! # The forms of nodes

What the symbols of a node spell, when those of its parts spell them. -/

namespace BasicScript

open BasicScript.Symbol (kindOf)

namespace Grammar

variable {ss ss' part : List Symbol} {t : Nat} {v : Node}

/-! ## Atoms and operators -/

theorem opens_of_atom {s : Symbol} (hs : s.kind = .int ∨ s.kind = .float ∨ s.kind = .string ∨
      s.kind = .identifier ∧ kindOf ss ≠ .colon ∨ s.kind = .leftParen ∨ s.kind = .leftBracket) :
    Opens 7 (s :: ss) := by
  constructor <;> intros <;>
    rcases hs with hs | hs | hs | ⟨hs, hss⟩ | hs | hs <;> simp_all [startsExpression, tag?]

theorem spells_number (n : Number) : Spells 7 [.number n] (.number n default) := by
  refine .of_callee (fun ss w ss' hloop => call_of_atom (.succ ?_) hloop) fun ss hss => ?_
  · unfold atom
    cases n <;> exact .peek_bind (.next_bind (.pure _ _))
  · cases n
    · exact opens_of_atom (.inl rfl)
    · exact opens_of_atom (.inr (.inl rfl))

theorem spells_text (a : String) : Spells 7 [.text a] (.text a default) := by
  refine .of_callee (fun ss w ss' hloop => call_of_atom (.succ ?_) hloop) fun ss hss => ?_
  · unfold atom
    exact .peek_bind (.next_bind (.pure _ _))
  · exact opens_of_atom (.inr (.inr (.inl rfl)))

theorem spells_ident (x : String) : Spells 7 [.name x] (.ident x default) := by
  refine .of_callee (fun ss w ss' hloop => call_of_atom (.succ ?_) hloop) fun ss hss => ?_
  · unfold atom
    exact .peek_bind (.next_bind (.pure _ _))
  · exact opens_of_atom (.inr (.inr (.inr (.inl ⟨rfl, hss⟩))))

/-- Whatever stands in parentheses is an atom. -/
theorem spells_enclose (h : Spells t part v) : Spells 7 (Symbol.enclose part) v := by
  refine .of_callee (fun ss w ss' hloop => call_of_atom (.succ ?_) hloop) fun ss hss => ?_
  · unfold atom
    rw [Symbol.enclose, List.cons_append, List.append_assoc]
    exact .peek_bind (.next_bind (.bind (h.expression _ rfl) (.expect_bind rfl (.pure _ _))))
  · exact opens_of_atom (.inr (.inr (.inr (.inr (.inl rfl)))))

/-- A part spells itself in a place that asks for no more than parentheses give. -/
theorem spells_fitted {x : Node} {slot : Nat} (h : Spells x.tightness part v) (hslot : slot ≤ 7) :
    Spells slot (x.fitted slot part) v := by
  unfold Node.fitted
  split
  · exact (spells_enclose h).mono hslot
  · exact h.mono (by omega)

theorem spells_chain {level : Level} {op : BinaryOp} {left right : List Symbol} {l r : Node}
    (hop : level.operator? op.symbol.kind = some op) (hl : Spells level.slot left l)
    (hr : Spells level.operandSlot right r) :
    Spells level.slot (left ++ op.symbol :: right) (binaryNode op l r) := by
  have hstrength : strength op.symbol.kind < level.operandSlot := by
    cases op <;> cases level <;> first | decide | cases hop
  refine .of_chain level (fun ss w ss' hss hloop => ?_) fun ss hss => ?_
  · rw [List.append_assoc, List.cons_append]
    refine hl.chain level (Nat.le_refl _) _ w ss' hstrength ?_
    exact chainLoop_step hop (hr.operand level (Nat.le_refl _) ss hss) hloop
  · rw [List.append_assoc, List.cons_append]
    exact hl.opens _ (ne_colon (Nat.lt_of_lt_of_le hstrength (by cases level <;> decide)))

/-- All operators but the power make chains. -/
theorem exists_level {op : BinaryOp} (h : op ≠ .power) :
    ∃ level : Level, level.operator? op.symbol.kind = some op ∧ op.tightness = level.slot ∧
      op.leftSlot = level.slot ∧ op.rightSlot = level.operandSlot := by
  cases op with
  | power => exact absurd rfl h
  | and => exact ⟨.logic, rfl, rfl, rfl, rfl⟩
  | or => exact ⟨.logic, rfl, rfl, rfl, rfl⟩
  | add => exact ⟨.sum, rfl, rfl, rfl, rfl⟩
  | subtract => exact ⟨.sum, rfl, rfl, rfl, rfl⟩
  | multiply => exact ⟨.product, rfl, rfl, rfl, rfl⟩
  | divide => exact ⟨.product, rfl, rfl, rfl, rfl⟩
  | _ => exact ⟨.comparison, rfl, rfl, rfl, rfl⟩

theorem spells_power {base exponent : List Symbol} {b e : Node} (hb : Spells 7 base b)
    (he : Spells 6 exponent e) :
    Spells 6 (base ++ .mark .caret :: exponent) (binaryNode .power b e) := by
  have hopens (ss : List Symbol) : Opens 7 (base ++ .mark .caret :: (exponent ++ ss)) :=
    hb.opens _ (show TokenKind.caret ≠ .colon by decide)
  refine .of_factor (fun ss hss => ?_) (by decide) (fun ss hss => ?_) fun h => absurd h (by decide)
  · rw [List.append_assoc, List.cons_append]
    refine factor_of_call ((hopens ss).no_minus (Nat.le_refl _))
      (hb.callee (Nat.le_refl _) _ b _ (callLoop_stop (show 6 < 7 by decide))) ?_
    exact powerLoop_step (he.factor (Nat.le_refl _) ss hss) (powerLoop_stop hss)
  · rw [List.append_assoc, List.cons_append]
    exact (hopens ss).mono (by decide)

theorem spells_negate (h : Spells 6 part v) :
    Spells 6 (.mark .minus :: part) (.unary .negate v (Span.through default v.span)) := by
  refine .of_factor (fun ss hss => .succ ?_) (by decide) (fun ss hss => ?_)
    fun h => absurd h (by decide)
  · unfold factor
    exact .peekKind_bind (.next_bind (.bind (h.factor (Nat.le_refl _) ss hss) (.pure _ _)))
  · constructor <;> simp [Symbol.mark, startsExpression, tag?]

theorem spells_not (h : Spells 2 part v) :
    Spells 2 (.word .not :: part) (.unary .not v (Span.through default v.span)) := by
  refine .of_operand_logic (fun ss hss => operand_of_chain rfl (.succ ?_)) fun ss hss => ?_
  · obtain ⟨N, hoperand⟩ := h.operand .logic (Nat.le_refl _) ss hss
    have hchain : Reads (chain · .comparison) (part ++ ss) v ss :=
      ⟨N, fun n hn => hoperand (n + 1) (by omega)⟩
    unfold chain
    exact .peekKind_bind (.next_bind (.bind hchain (.pure _ _)))
  · constructor <;> simp [Symbol.word, startsExpression, tag?]

/-! ## Items -/

variable {L : Layout}

/-- An expression in a place that allows all but declarations and constructs. -/
abbrev SpellsItem (L : Layout) (x : Node) : Prop :=
  Spells 1 (x.fitted 1 (x.symbols L)) x.bare

theorem SpellsItem.reads {x : Node} (h : SpellsItem L x) (ss : List Symbol)
    (hss : strength (kindOf ss) < 1) :
    Reads expression (x.fitted 1 (x.symbols L) ++ ss) x.bare ss :=
  h.expression_of_pos (Nat.le_refl _) ss hss

theorem itemsLoop_reads (x : Node) (xs done : List Node) (h : ∀ y ∈ x :: xs, SpellsItem L y)
    (hss : kindOf ss = .rightParen ∨ kindOf ss = .rightBracket) :
    Reads (itemsLoop · done) (Node.itemSymbols L (x :: xs) ++ ss)
      (done.reverse ++ (x :: xs).map Node.bare) ss := by
  have hx := h x (List.mem_cons_self ..)
  induction xs generalizing x done with
  | nil =>
      refine .succ ?_
      unfold itemsLoop
      have hstop : strength (kindOf ss) < 1 ∧ kindOf ss ≠ .comma := by
        rcases hss with hss | hss <;> rw [hss] <;> decide
      have hitems : Node.itemSymbols L [x] ++ ss = x.fitted 1 (x.symbols L) ++ ss := by
        simp [Node.itemSymbols]
      rw [hitems, List.map_singleton, ← List.reverse_cons]
      exact .bind (hx.reads ss hstop.1) (.refuse_bind hstop.2 (.pure _ _))
  | cons y ys ih =>
      refine .succ ?_
      unfold itemsLoop
      have hitems : Node.itemSymbols L (x :: y :: ys) ++ ss =
          x.fitted 1 (x.symbols L) ++ .mark .comma :: (Node.itemSymbols L (y :: ys) ++ ss) := by
        simp [Node.itemSymbols]
      have hmap : done.reverse ++ (x :: y :: ys).map Node.bare =
          (x.bare :: done).reverse ++ (y :: ys).map Node.bare := by simp
      rw [hitems, hmap]
      exact .bind (hx.reads _ (show strength .comma < 1 by decide)) (.accept_bind rfl
        (ih y _ (fun z hz => h z (List.mem_cons_of_mem _ hz)) (h y (by simp))))

theorem items_reads {xs : List Node} {close : TokenKind} (h : ∀ y ∈ xs, SpellsItem L y)
    (hclose : close = .rightParen ∨ close = .rightBracket) (hss : kindOf ss = close) :
    Reads (items · close) (Node.itemSymbols L xs ++ ss) (xs.map Node.bare) ss := by
  refine .succ ?_
  unfold items
  refine .peekKind_bind ?_
  cases xs with
  | nil =>
      rw [Node.itemSymbols, List.nil_append]
      simp only [if_pos hss]
      exact .pure _ _
  | cons x xs =>
      have hstarts : startsExpression (kindOf (Node.itemSymbols L (x :: xs) ++ ss)) = true := by
        have hx := h x (List.mem_cons_self ..)
        rw [Node.itemSymbols, List.append_assoc]
        refine (hx.opens _ ?_).starts
        cases xs with
        | nil => rcases hclose with rfl | rfl <;> simp [hss]
        | cons y ys => simp [Symbol.mark]
      have hne : kindOf (Node.itemSymbols L (x :: xs) ++ ss) ≠ close := by
        intro hk
        rw [hk] at hstarts
        rcases hclose with rfl | rfl <;> cases hstarts
      simp only [if_neg hne]
      exact itemsLoop_reads x xs [] h (hss ▸ hclose)

theorem spells_list {xs : List Node} (h : ∀ y ∈ xs, SpellsItem L y) :
    Spells 7 (.mark .leftBracket :: (Node.itemSymbols L xs ++ [.mark .rightBracket]))
      (.list (xs.map Node.bare) default) := by
  refine .of_callee (fun ss w ss' hloop => call_of_atom (.succ ?_) hloop) fun ss hss => ?_
  · unfold atom
    rw [List.cons_append, List.append_assoc]
    exact .peek_bind (.next_bind (.bind (items_reads h (.inr rfl) rfl)
      (.expect_bind rfl (.pure _ _))))
  · exact opens_of_atom (.inr (.inr (.inr (.inr (.inr rfl)))))

theorem spells_call {xs : List Node} (hf : Spells 7 part v) (hspan : v.span = default)
    (h : ∀ y ∈ xs, SpellsItem L y) :
    Spells 7 (part ++ .mark .leftParen :: (Node.itemSymbols L xs ++ [.mark .rightParen]))
      (.call v (xs.map Node.bare) default) := by
  refine .of_callee (fun ss w ss' hloop => ?_) fun ss hss => ?_
  · rw [List.append_assoc, List.cons_append, List.append_assoc]
    refine hf.callee (Nat.le_refl _) _ w ss' (.succ ?_)
    unfold callLoop
    refine .accept_bind rfl (.bind (items_reads h (.inl rfl) rfl) (.expect_bind rfl ?_))
    rw [hspan]
    exact hloop
  · rw [List.append_assoc, List.cons_append]
    exact hf.opens _ (show TokenKind.leftParen ≠ .colon by decide)

end Grammar

end BasicScript
