import BasicScript.Proofs.Grammar.Reads

/-! # Precedence

How the levels of the grammar read on: an operator is part of what is read only if it binds tighter
than the place asks for. -/

namespace BasicScript

open BasicScript.Symbol (kindOf)

namespace Grammar

/-! ## Strength of what follows -/

/-- How tight a token binds what stands in front of it; a colon binds a name tightest of all. -/
def strength : TokenKind → Nat
  | .and | .or => 1
  | .equal | .notEqual | .less | .greater | .atMost | .atLeast => 3
  | .plus | .minus => 4
  | .star | .slash => 5
  | .caret => 6
  | .leftParen => 7
  | .colon => 8
  | _ => 0

/-- The tightness of a chain of a level. -/
def Level.slot : Level → Nat
  | logic => 1
  | comparison => 3
  | sum => 4
  | product => 5

/-- The tightness that a level asks of its operands. -/
def Level.operandSlot : Level → Nat
  | logic => 2
  | comparison => 4
  | sum => 5
  | product => 6

theorem Level.operator?_eq_none (level : Level) {k : TokenKind} (h : strength k < level.slot) :
    level.operator? k = none := by
  cases level <;> cases k <;> first | rfl | simp [strength, Level.slot] at h

theorem Level.operandSlot_le_slot {level tighter : Level} (h : level.tighter = some tighter) :
    level.operandSlot ≤ tighter.slot := by
  cases level <;> cases h <;> decide

theorem Level.slot_lt_operandSlot (level : Level) : level.slot < level.operandSlot := by
  cases level <;> decide

theorem Level.operandSlot_le (level : Level) : level.operandSlot ≤ 6 := by
  cases level <;> decide

theorem ne_colon {k : TokenKind} (h : strength k < 8) : k ≠ .colon := by
  rintro rfl
  exact absurd h (by decide)

/-! ## Loops -/

section

variable {ss ss' ss'' : List Symbol} {v w : Node} {level : Level}

theorem callLoop_stop (h : strength (kindOf ss) < 7) : Reads (callLoop · v) ss v ss := by
  refine .succ ?_
  unfold callLoop
  refine .refuse_bind (fun hk => ?_) (.pure v ss)
  rw [hk] at h
  exact absurd h (by decide)

theorem powerLoop_stop (h : strength (kindOf ss) < 6) : Reads (powerLoop · v) ss v ss := by
  refine .succ ?_
  unfold powerLoop
  refine .refuse_bind (fun hk => ?_) (.pure v ss)
  rw [hk] at h
  exact absurd h (by decide)

theorem chainLoop_stop (h : strength (kindOf ss) < level.slot) :
    Reads (chainLoop · level v) ss v ss := by
  refine .succ ?_
  unfold chainLoop
  refine .peekKind_bind ?_
  simp only [level.operator?_eq_none h]
  exact .pure v ss

theorem powerLoop_step {x : Node} (h : Reads factor ss w ss')
    (hloop : Reads (powerLoop · (binaryNode .power v w)) ss' x ss'') :
    Reads (powerLoop · v) (.mark .caret :: ss) x ss'' := by
  refine .succ ?_
  unfold powerLoop
  exact .accept_bind rfl (.bind h hloop)

theorem chainLoop_step {op : BinaryOp} {s : Symbol} {x : Node}
    (hop : level.operator? s.kind = some op) (h : Reads (operand · level) ss w ss')
    (hloop : Reads (chainLoop · level (binaryNode op v w)) ss' x ss'') :
    Reads (chainLoop · level v) (s :: ss) x ss'' := by
  refine .succ ?_
  unfold chainLoop
  refine .peekKind_bind ?_
  simp only [Symbol.kindOf_cons, hop]
  exact .next_bind (.bind h hloop)

/-! ## From level to level -/

theorem call_of_atom (h : Reads atom ss v ss') (hloop : Reads (callLoop · v) ss' w ss'') :
    Reads call ss w ss'' := by
  refine .succ ?_
  unfold call
  exact .bind h hloop

theorem factor_of_call (hk : kindOf ss ≠ .minus) (h : Reads call ss v ss')
    (hloop : Reads (powerLoop · v) ss' w ss'') : Reads factor ss w ss'' := by
  refine .succ ?_
  unfold factor
  refine .peekKind_bind ?_
  simp only [if_neg hk]
  exact .bind h hloop

theorem operand_of_factor (h : Reads factor ss v ss') : Reads (operand · .product) ss v ss' :=
  .succ h

theorem operand_of_chain {tighter : Level} (ht : level.tighter = some tighter)
    (h : Reads (chain · tighter) ss v ss') : Reads (operand · level) ss v ss' := by
  refine .succ ?_
  unfold operand
  simp only [ht]
  exact h

theorem chain_of_operand (hk : level = .comparison → kindOf ss ≠ .not)
    (h : Reads (operand · level) ss v ss') (hloop : Reads (chainLoop · level v) ss' w ss'') :
    Reads (chain · level) ss w ss'' := by
  refine .succ ?_
  unfold chain
  refine .peekKind_bind ?_
  simp only [if_neg fun h : level = .comparison ∧ kindOf ss = .not => hk h.1 h.2]
  exact .bind h hloop

theorem expression_of_chain (htag : tag? (kindOf ss) = none)
    (hname : ¬(kindOf ss = .identifier ∧ kindOf ss.tail = .colon))
    (h : Reads (chain · .logic) ss v ss') : Reads expression ss v ss' := by
  refine .succ ?_
  unfold expression
  refine .peekKind_bind ?_
  simp only [htag]
  refine .get_bind ?_
  simp only [Cursor.kind_second_ofSymbols, if_neg hname]
  exact h

theorem statement_of_expression (hk : startsExpression (kindOf ss) = true)
    (h : Reads expression ss v ss') : Reads statement ss v ss' := by
  refine .succ ?_
  unfold statement
  refine .peekKind_bind ?_
  split
  · rename_i hk'
    simp [hk', startsExpression] at hk
  · rename_i hk'
    simp [hk', startsExpression] at hk
  · rename_i hk'
    simp [hk', startsExpression] at hk
  · exact h

end

end Grammar

end BasicScript
