import BasicScript.Proofs.Grammar.Prompt

/-! # Completing

Which tokens complete a program from the middle: a number where an expression is missing, and a
closing mark or keyword where one is; whatever may be repeated or left out ends there. -/

namespace BasicScript.Grammar

variable {ι : Type}

/-- The tokens that an expression is completed in front of. -/
def closers : List TokenKind :=
  [.rightParen, .rightBracket, .thenWord, .toWord, .endWord, .endOfInput]

/-- The tokens that a block is completed in front of. -/
def blockEnds : List TokenKind :=
  [.endWord, .endOfInput]

/-- The number that stands in for an expression. -/
def standIn : Token :=
  ⟨.int, some (.number (.int 0)), default⟩

theorem callLoop_satisfiable (e : ι → Node) :
    Satisfiable closers closers (fun i m => callLoop m (e i)) := by
  refine .succ ?_
  unfold callLoop
  exact .refuse_bind .pure (by decide)

theorem powerLoop_satisfiable (e : ι → Node) :
    Satisfiable closers closers (fun i m => powerLoop m (e i)) := by
  refine .succ ?_
  unfold powerLoop
  exact .refuse_bind .pure (by decide)

theorem operator?_closers (level : Level) : ∀ k ∈ closers, level.operator? k = none := by
  cases level <;> decide

theorem chainLoop_satisfiable (level : Level) (e : ι → Node) :
    Satisfiable closers closers (fun i m => chainLoop m level (e i)) := by
  refine .succ ?_
  unfold chainLoop
  refine .look (.pure (e := fun i _ => e i)) fun i m c hc => ?_
  rw [peekKind_bind, operator?_closers level _ hc]

theorem atom_satisfiable {T : List TokenKind} :
    Satisfiable [.int] T (fun (_ : ι) m => atom m) := by
  refine .succ ⟨[standIn], 0, by simp [standIn], fun _ _ => List.mem_singleton_self _,
    fun _ m _ c t us hc _ => ?_⟩
  refine ⟨.number (.int 0) default, c.advance, ?_, Cursor.tokens_advance hc (by decide)⟩
  unfold atom
  simp only [peek_bind, Cursor.peek_of_tokens hc]
  rfl

theorem call_satisfiable : Satisfiable [.int] closers (fun (_ : ι) m => call m) := by
  refine .succ ?_
  unfold call
  exact .bind atom_satisfiable (callLoop_satisfiable _) (List.Subset.refl closers)

theorem factor_satisfiable : Satisfiable [.int] closers (fun (_ : ι) m => factor m) := by
  refine .succ ?_
  unfold factor
  refine .peekKind_bind ?_
  simp only [reduceCtorEq, if_false]
  exact .bind call_satisfiable (powerLoop_satisfiable _) (List.Subset.refl closers)

theorem chain_satisfiable_of {level : Level}
    (h : Satisfiable [.int] closers (fun (_ : ι) m => operand m level)) :
    Satisfiable [.int] closers (fun (_ : ι) m => chain m level) := by
  refine .succ ?_
  unfold chain
  refine .peekKind_bind ?_
  simp only [reduceCtorEq, and_false, if_false]
  exact .bind h (chainLoop_satisfiable level _) (List.Subset.refl closers)

theorem operand_satisfiable (level : Level) :
    Satisfiable [.int] closers (fun (_ : ι) m => operand m level) := by
  have product : Satisfiable [.int] closers (fun (_ : ι) m => operand m .product) := by
    refine .succ ?_
    unfold operand
    exact factor_satisfiable
  have looser (level : Level) {tighter : Level} (ht : level.tighter = some tighter)
      (h : Satisfiable [.int] closers (fun (_ : ι) m => operand m tighter)) :
      Satisfiable [.int] closers (fun (_ : ι) m => operand m level) := by
    refine .succ ?_
    unfold operand
    rw [ht]
    exact chain_satisfiable_of h
  have sum := looser .sum rfl product
  have comparison := looser .comparison rfl sum
  cases level with
  | logic => exact looser .logic rfl comparison
  | comparison => exact comparison
  | sum => exact sum
  | product => exact product

theorem chain_satisfiable (level : Level) :
    Satisfiable [.int] closers (fun (_ : ι) m => chain m level) :=
  chain_satisfiable_of (operand_satisfiable level)

theorem expression_satisfiable : Satisfiable [.int] closers (fun (_ : ι) m => expression m) := by
  refine .succ ?_
  unfold expression
  refine (chain_satisfiable .logic).look fun i m c hc => ?_
  have hk := List.mem_singleton.mp hc
  rw [peekKind_bind, hk]
  simp only [tag?, get_bind]
  rw [if_neg (by simp)]

theorem statement_satisfiable : Satisfiable [.int] closers (fun (_ : ι) m => statement m) := by
  refine .succ ?_
  unfold statement
  exact .peekKind_bind expression_satisfiable

theorem items_satisfiable (close : TokenKind) :
    Satisfiable [close] [close] (fun (_ : ι) m => items m close) := by
  refine .succ ?_
  unfold items
  refine .peekKind_bind ?_
  simp only [if_true]
  exact .pure

theorem itemsLoop_satisfiable (e : ι → List Node) :
    Satisfiable [.int] closers (fun i m => itemsLoop m (e i)) := by
  refine .succ ?_
  unfold itemsLoop
  exact .bind expression_satisfiable (.refuse_bind .pure (by decide)) (List.Subset.refl closers)

theorem moreArms_satisfiable (e : ι → List (Arm Node)) :
    Satisfiable closers closers (fun i m => moreArms m (e i)) := by
  refine .succ ?_
  unfold moreArms
  exact .refuse_bind (.refuse_bind .pure (by decide)) (by decide)

theorem branch_satisfiable : Satisfiable [.int] closers (fun (_ : ι) m => branch m) := by
  refine .succ ?_
  unfold branch
  exact .refuse_bind (.bind statement_satisfiable .pure (List.Subset.refl closers)) (by decide)

theorem armsLoop_satisfiable (e : ι → List (Arm Node)) :
    Satisfiable [.int] closers (fun i m => armsLoop m (e i)) := by
  refine .succ ?_
  unfold armsLoop
  exact .bind expression_satisfiable (.bind (.expect (by decide)) (.refuse_bind
    (.bind statement_satisfiable (moreArms_satisfiable _) (List.Subset.refl closers)) (by decide))
    (List.Subset.refl _)) (by decide)

theorem statementsLoop_satisfiable (e : ι → List Node) :
    Satisfiable blockEnds blockEnds (fun i m => statementsLoop m (e i)) := by
  refine .succ ?_
  unfold statementsLoop
  refine .bind (.skipNewlines (by decide)) (.look (.pure (e := fun p _ => (e p.1).reverse))
    fun i m c hc => ?_) (List.Subset.refl blockEnds)
  have hends : ∀ k ∈ blockEnds, endsBlock k = true := by decide
  rw [peekKind_bind, if_pos (hends _ hc)]

theorem statements_satisfiable :
    Satisfiable blockEnds blockEnds (fun (_ : ι) m => statements m) := by
  refine .succ ?_
  unfold statements
  exact .bind .peek (.bind (statementsLoop_satisfiable _) .pure (List.Subset.refl _))
    (List.Subset.refl blockEnds)

theorem paramsLoop_satisfiable (e : ι → List String) :
    Satisfiable [.rightParen] [.rightParen] (fun i m => paramsLoop (e i) m) := by
  refine .succ ?_
  unfold paramsLoop
  exact .refuse_bind .pure (by decide)

theorem params_satisfiable {T : List TokenKind} :
    Satisfiable [.rightParen] T (fun (_ : ι) m => params m) := by
  unfold params
  refine .peekKind_bind ?_
  simp only [reduceCtorEq, if_false]
  exact .bind (.expect (by decide)) .pure (List.Subset.refl T)

end BasicScript.Grammar
