import BasicScript.Proofs.Grammar.Constructs

/-! # Statements and blocks

Lines and the blocks they make up, and the constructs that carry these out. What a construct
carries out is a block up to its `END`, or one statement that what follows cannot be taken for a
part of. -/

namespace BasicScript

open BasicScript.Symbol (kindOf)

namespace Grammar

variable {ss ss' part : List Symbol} {v : Node} {L : Layout}

/-! ## Statements -/

/-- The tokens that no statement goes on with, and none begins with. -/
def quits (k : TokenKind) : Bool :=
  strength k == 0 && !startsExpression k

theorem quits_of_closes {k : TokenKind} (h : closes k = true) : quits k = true := by
  cases k <;> first | rfl | simp [closes] at h

theorem strength_of_quits {k : TokenKind} (h : quits k = true) : strength k < 1 := by
  simp only [quits, Bool.and_eq_true, beq_iff_eq] at h
  omega

/-- The tokens a statement can start with. -/
def startsStatement : TokenKind → Bool
  | .returnWord | .continueWord | .breakWord => true
  | k => startsExpression k

theorem startsStatement_of_startsExpression {k : TokenKind} (h : startsExpression k = true) :
    startsStatement k = true := by
  cases k <;> first | rfl | simp [startsExpression] at h

theorem not_endsBlock_of_startsStatement {k : TokenKind} (h : startsStatement k = true) :
    ¬endsBlock k = true := by
  cases k <;> first | decide | simp [startsStatement, startsExpression] at h

/-- Symbols that spell a statement before any token that stops it. -/
structure SpellsStatement (stops : TokenKind → Bool) (part : List Symbol) (v : Node) : Prop where
  starts : ∀ ss, kindOf ss ≠ .colon → startsStatement (kindOf (part ++ ss)) = true
  statement : ∀ ss, stops (kindOf ss) = true → Reads statement (part ++ ss) v ss

theorem SpellsStatement.of_quits (h : SpellsStatement quits part v) :
    SpellsStatement closes part v where
  starts := h.starts
  statement ss hss := h.statement ss (quits_of_closes hss)

theorem spells_expression {t : Nat} (h : Spells t part v) : SpellsStatement closes part v where
  starts ss hss := startsStatement_of_startsExpression (h.opens ss hss).starts
  statement ss hss := by
    have hcolon : kindOf ss ≠ .colon := ne_colon (by rw [strength_of_closes hss]; decide)
    exact statement_of_expression (h.opens ss hcolon).starts (h.expression ss hss)

theorem spells_item {x : Node} (h : SpellsItem L x) :
    SpellsStatement quits (x.fitted 1 (x.symbols L)) x.bare where
  starts ss hss := startsStatement_of_startsExpression (h.opens ss hss).starts
  statement ss hss := by
    have hpos := strength_of_quits hss
    exact statement_of_expression (h.opens ss (ne_colon (by omega))).starts (h.reads ss hpos)

theorem spells_continue : SpellsStatement quits [.word .continueWord] (.continueLoop default) where
  starts _ _ := rfl
  statement ss _ := by
    refine .succ ?_
    unfold statement
    exact .peekKind_bind (.next_bind (.pure _ _))

theorem spells_break : SpellsStatement quits [.word .breakWord] (.breakLoop default) where
  starts _ _ := rfl
  statement ss _ := by
    refine .succ ?_
    unfold statement
    exact .peekKind_bind (.next_bind (.pure _ _))

theorem spells_return : SpellsStatement quits [.word .returnWord] (.returnWith none default) where
  starts _ _ := rfl
  statement ss hss := by
    refine .succ ?_
    unfold statement
    rw [List.cons_append, List.nil_append]
    refine .peekKind_bind (.next_bind (.peekKind_bind ?_))
    have hstarts : ¬startsExpression (kindOf ss) = true := by
      simp only [quits, Bool.and_eq_true, Bool.not_eq_true'] at hss
      simp [hss.2]
    simp only [if_neg hstarts]
    exact .pure _ _

theorem spells_return_item {x : Node} (h : SpellsItem L x) :
    SpellsStatement quits (.word .returnWord :: x.fitted 1 (x.symbols L))
      (.returnWith (some x.bare) default) where
  starts _ _ := rfl
  statement ss hss := by
    refine .succ ?_
    unfold statement
    rw [List.cons_append]
    refine .peekKind_bind (.next_bind (.peekKind_bind ?_))
    have hcolon := ne_colon (Nat.lt_trans (strength_of_quits hss) (by decide))
    have hstarts := (h.opens ss hcolon).starts
    simp only [if_pos hstarts]
    refine .bind (h.reads ss (strength_of_quits hss)) ?_
    rw [← Node.through_bare_span x]
    exact .pure _ _

/-! ## Declarations -/

theorem spells_declaration {x : Node} (tag : Tag) (a : String) (h : SpellsItem L x) :
    Spells 0 ([.word tag.kind, .name a] ++ .mark .assign :: x.fitted 1 (x.symbols L))
      (.declaration tag a x.bare default) := by
  refine .of_expression (fun ss => ?_) fun ss hss => .succ ?_
  · cases tag <;> rfl
  · have htag : tag? tag.kind = some tag := by cases tag <;> rfl
    unfold expression
    refine .peekKind_bind ?_
    rw [List.append_assoc, List.cons_append]
    simp only [List.cons_append, Symbol.kindOf_cons, Symbol.word, htag]
    refine .succ ?_
    unfold declaration
    refine .next_bind (.expect_bind rfl (.expect_bind rfl (.bind (h.reads ss ?_) ?_)))
    · rw [strength_of_closes hss]
      decide
    · rw [← Node.through_bare_span x]
      exact .pure _ _

theorem spells_annotated {x : Node} (tag : Tag) (a : String) (h : SpellsItem L x) :
    Spells 0 ([.name a, .mark .colon, .word tag.kind] ++ .mark .assign ::
      x.fitted 1 (x.symbols L)) (.declaration tag a x.bare default) := by
  refine .of_expression (fun ss => rfl) fun ss hss => .succ ?_
  have htag : tag? (Symbol.word tag.kind).token.kind = some tag := by cases tag <;> rfl
  unfold expression
  refine .peekKind_bind (.get_bind (.succ ?_))
  unfold annotated
  refine .next_bind (.next_bind (.next_bind ?_))
  simp only [htag]
  refine .expect_bind rfl (.bind (h.reads ss ?_) ?_)
  · rw [strength_of_closes hss]
    decide
  · rw [← Node.through_bare_span x]
    exact .pure _ _

/-! ## Blocks -/

/-- The symbols of a block spell it up to its end; a newline has to stand before an `ELIF` or an
`ELSE`, which the last line could take for its own. -/
def SpellsBlock (L : Layout) (x : Node) : Prop :=
  ∀ more ss, endsBlock (kindOf ss) = true → (more = 0 → closes (kindOf ss) = true) →
    Reads statements (x.blockSymbols L more ++ ss) x.bare ss

theorem newlines_append_newlines (m n : Nat) (ss : List Symbol) :
    Symbol.newlines m ++ (Symbol.newlines n ++ ss) = Symbol.newlines (m + n) ++ ss := by
  rw [Symbol.newlines, Symbol.newlines, Symbol.newlines, ← List.append_assoc,
    List.replicate_append_replicate]

/-- Newlines in front, then the lines up to the end of the block. -/
theorem statementsLoop_reads {xs : List Node} (behind : Nat)
    (h : ∀ x ∈ xs, SpellsStatement closes (x.symbols L) x.bare)
    (hend : endsBlock (kindOf ss) = true) (hclose : behind = 0 → closes (kindOf ss) = true)
    (before : Nat) (done : List Node) :
    Reads (statementsLoop · done) (Symbol.newlines before ++ (Node.lineSymbols L behind xs ++ ss))
      (done.reverse ++ xs.map Node.bare) ss := by
  have hnewline : kindOf ss ≠ .newline := by
    intro hk
    rw [hk] at hend
    cases hend
  have stop (n : Nat) (done : List Node) :
      Reads (statementsLoop · done) (Symbol.newlines n ++ ss) done.reverse ss := by
    refine .succ ?_
    unfold statementsLoop
    refine .skipNewlines_bind n hnewline (.peekKind_bind ?_)
    simp only [if_pos hend]
    exact .pure _ _
  induction xs generalizing before done with
  | nil =>
      rw [Node.lineSymbols, newlines_append_newlines, List.map_nil, List.append_nil]
      exact stop _ done
  | cons x xs ih =>
      have hx := h x (List.mem_cons_self ..)
      have hdone : done.reverse ++ (x :: xs).map Node.bare =
          (x.bare :: done).reverse ++ xs.map Node.bare := by simp
      -- what stands behind the line, and how the loop goes on there
      obtain ⟨rest, hrest, hk, hloop⟩ : ∃ rest,
          Node.lineSymbols L behind (x :: xs) ++ ss =
            Symbol.newlines (L.before x) ++ (x.symbols L ++ rest) ∧
          closes (kindOf rest) = true ∧
          Reads (fun n => peekKind >>= fun k => if k = .newline then
            statementsLoop n (x.bare :: done) else pure (x.bare :: done).reverse) rest
            (done.reverse ++ (x :: xs).map Node.bare) ss := by
        cases xs with
        | nil =>
            refine ⟨Symbol.newlines behind ++ ss, by simp [Node.lineSymbols], ?_, ?_⟩
            · cases behind with
              | zero => exact hclose rfl
              | succ n => rfl
            · refine .peekKind_bind ?_
              rw [hdone, List.map_nil, List.append_nil]
              cases behind with
              | zero =>
                  rw [Symbol.newlines, List.replicate_zero, List.nil_append]
                  simp only [if_neg hnewline]
                  exact .pure _ _
              | succ n => exact stop _ _
        | cons y ys =>
            refine ⟨Symbol.newlines 1 ++ (Node.lineSymbols L behind (y :: ys) ++ ss),
              by simp [Node.lineSymbols, Symbol.newlines], rfl, .peekKind_bind ?_⟩
            rw [hdone]
            exact ih (fun z hz => h z (List.mem_cons_of_mem _ hz)) 1 _
      have hcolon : kindOf rest ≠ .colon := ne_colon (by rw [strength_of_closes hk]; decide)
      have hstarts := hx.starts rest hcolon
      have hline : kindOf (x.symbols L ++ rest) ≠ .newline ∧
          ¬endsBlock (kindOf (x.symbols L ++ rest)) = true := by
        constructor <;> intro hk
        · rw [hk] at hstarts
          cases hstarts
        · exact not_endsBlock_of_startsStatement hstarts hk
      rw [hrest, newlines_append_newlines]
      refine .succ ?_
      unfold statementsLoop
      refine .skipNewlines_bind _ hline.1 (.peekKind_bind ?_)
      simp only [if_neg hline.2]
      exact .bind (hx.statement rest hk) hloop

theorem statementsSpan_bare (xs : List Node) :
    statementsSpan default (xs.map Node.bare) = default := by
  unfold statementsSpan
  split
  · rename_i first last hfirst hlast
    obtain ⟨x, -, rfl⟩ := List.mem_map.mp (List.mem_of_head? hfirst)
    obtain ⟨y, -, rfl⟩ := List.mem_map.mp (List.mem_of_getLast? hlast)
    rw [Node.bare_span, Node.bare_span]
    rfl
  · rfl

theorem spells_block {xs : List Node} (s : Span)
    (h : ∀ x ∈ xs, SpellsStatement closes (x.symbols L) x.bare) : SpellsBlock L (.list xs s) := by
  intro more ss hend hclose
  refine .succ ?_
  unfold statements
  have hloop := statementsLoop_reads (L.behind xs + more) h hend
    (fun hzero => hclose (by omega)) 0 []
  refine .peek_bind (.bind hloop ?_)
  have hspan : statementsSpan (default : Span).start ([].reverse ++ xs.map Node.bare) = default :=
    statementsSpan_bare xs
  rw [Cursor.span_ofSymbols, hspan, Node.bare_list]
  exact .pure _ _

/-! ## What constructs carry out -/

/-- The symbols of a block, or of a statement on the same line, spell it. -/
structure SpellsBranch (L : Layout) (b : Branch Node) : Prop where
  block : b.block = true → SpellsBlock L b.body
  statement : b.block = false →
    SpellsStatement quits (b.body.fitted 1 (b.body.symbols L)) b.body.bare

/-- No newline stands in front of a statement. -/
theorem SpellsStatement.kindOf_ne_newline {stops : TokenKind → Bool}
    (h : SpellsStatement stops part v) (hss : quits (kindOf ss) = true) :
    kindOf (part ++ ss) ≠ .newline := by
  intro hk
  have hstarts := h.starts ss (ne_colon (Nat.lt_trans (strength_of_quits hss) (by decide)))
  rw [hk] at hstarts
  cases hstarts

theorem branch_reads {b : Branch Node} (h : SpellsBranch L b) (hss : closes (kindOf ss) = true) :
    Reads branch (Node.branchSymbols L b ++ ss) (Node.bareBranch b) ss := by
  obtain ⟨body, block⟩ := b
  refine .succ ?_
  unfold branch
  cases block with
  | true =>
      have hbranch : Node.branchSymbols L ⟨body, true⟩ ++ ss =
          .mark .newline :: (body.blockSymbols L 0 ++ .word .endWord :: ss) := by
        simp [Node.branchSymbols]
      rw [hbranch]
      exact .accept_bind rfl (.bind (h.block rfl 0 _ rfl fun _ => rfl)
        (.expect_bind rfl (.pure _ _)))
  | false =>
      have hbranch : Node.branchSymbols L ⟨body, false⟩ = body.fitted 1 (body.symbols L) := by
        simp [Node.branchSymbols]
      have hstatement := h.statement rfl
      rw [hbranch]
      exact .refuse_bind (hstatement.kindOf_ne_newline (quits_of_closes hss))
        (.bind (hstatement.statement ss (quits_of_closes hss)) (.pure _ _))

theorem spells_while {c : Node} {b : Branch Node} (hc : SpellsItem L c) (hb : SpellsBranch L b) :
    Spells 0 (.word .whileWord :: (c.fitted 1 (c.symbols L) ++ .word .thenWord ::
      Node.branchSymbols L b)) (.whileLoop c.bare (Node.bareBranch b) default) := by
  refine .of_construct (.inr (.inr (.inl rfl))) fun ss hss => .succ ?_
  unfold atom
  refine .peek_bind (.succ ?_)
  unfold whileLoop
  rw [List.cons_append, List.append_assoc, List.cons_append]
  exact .next_bind (.bind (hc.reads _ Nat.zero_lt_one) (.expect_bind rfl
    (.bind (branch_reads hb hss) (.spanFrom_bind (.pure _ _)))))

theorem spells_for {first last : Node} {step : Option Node} {b : Branch Node} (a : String)
    (hfirst : SpellsItem L first) (hlast : SpellsItem L last)
    (hstep : ∀ x ∈ step, SpellsItem L x) (hb : SpellsBranch L b) :
    Spells 0 (.word .forWord :: .name a :: .mark .assign :: (first.fitted 1 (first.symbols L) ++
      .word .toWord :: (last.fitted 1 (last.symbols L) ++ Node.stepSymbols L step ++
      .word .thenWord :: Node.branchSymbols L b)))
      (.forLoop a first.bare last.bare (Node.bareOption step) (Node.bareBranch b) default) := by
  refine .of_construct (.inr (.inl rfl)) fun ss hss => .succ ?_
  unfold atom
  refine .peek_bind (.succ ?_)
  unfold forLoop
  simp only [List.cons_append, List.append_assoc]
  refine .next_bind (.expect_bind rfl (.expect_bind rfl (.bind (hfirst.reads _ Nat.zero_lt_one)
    (.expect_bind rfl ?_))))
  cases step with
  | none =>
      have hthen : TokenKind.thenWord ≠ .stepWord := by decide
      exact .bind (hlast.reads _ Nat.zero_lt_one) (.bind (.refuse_bind hthen (.pure _ _))
        (.expect_bind rfl (.bind (branch_reads hb hss) (.spanFrom_bind (.pure _ _)))))
  | some x =>
      have hx := hstep x rfl
      simp only [Node.stepSymbols, List.cons_append]
      exact .bind (hlast.reads _ Nat.zero_lt_one) (.bind (.accept_bind rfl
        (.bind (hx.reads _ Nat.zero_lt_one) (.pure _ _))) (.expect_bind rfl
        (.bind (branch_reads hb hss) (.spanFrom_bind (.pure _ _)))))

/-! ## Functions -/

theorem paramsLoop_reads (xs done : List String) (hss : kindOf ss ≠ .comma) :
    Reads (fun n => paramsLoop done n) (xs.flatMap (fun y => [.mark .comma, .name y]) ++ ss)
      (done.reverse ++ xs) ss := by
  induction xs generalizing done with
  | nil =>
      refine .succ ?_
      unfold paramsLoop
      rw [List.flatMap_nil, List.nil_append, List.append_nil]
      exact .refuse_bind hss (.pure _ _)
  | cons x xs ih =>
      refine .succ ?_
      unfold paramsLoop
      have hdone : done.reverse ++ x :: xs = (x :: done).reverse ++ xs := by simp
      rw [List.flatMap_cons, List.append_assoc, hdone]
      exact .accept_bind rfl (.expect_bind rfl (ih (x :: done)))

theorem params_reads (xs : List String) :
    Reads params (Node.paramSymbols xs ++ .mark .rightParen :: ss) xs ss := by
  unfold params
  refine .peekKind_bind ?_
  cases xs with
  | nil =>
      rw [Node.paramSymbols, List.nil_append]
      exact .expect_bind rfl (.pure _ _)
  | cons x xs =>
      rw [Node.paramSymbols, List.cons_append]
      have hparen : TokenKind.rightParen ≠ .comma := by decide
      exact .next_bind (.bind (paramsLoop_reads xs [x] hparen) (.expect_bind rfl (.pure _ _)))

section

variable {name : Option String} {params : List String} {body : Node}

/-- A function up to its body; `rest` is the arrow or the newline, and what follows. -/
theorem function_reads {rest : List Symbol} {x : Node}
    (h : Reads (fun n => do
      if ← accept .arrow then
        let body ← expression n
        return .function name params body true (Span.through default body.span)
      else
        let _ ← expect .newline .functionBody
        let body ← statements n
        let _ ← expect .endWord .endWord
        return .function name params body false (← spanFrom default)) rest x ss) :
    Reads atom (.word .fnWord :: (name.toList.map .name ++ .mark .leftParen ::
      (Node.paramSymbols params ++ .mark .rightParen :: rest))) x ss := by
  refine .succ ?_
  unfold atom
  refine .peek_bind (.succ ?_)
  unfold function
  have hname : Reads (fun _ => do
      if (← peekKind) = .identifier then return some (← next).textOrEmpty else return none)
      (name.toList.map .name ++ .mark .leftParen :: (Node.paramSymbols params ++
        .mark .rightParen :: rest)) name
      (.mark .leftParen :: (Node.paramSymbols params ++ .mark .rightParen :: rest)) := by
    cases name with
    | none => exact .peekKind_bind (.pure _ _)
    | some a => exact .peekKind_bind (.next_bind (.pure _ _))
  exact .next_bind (.bind hname (.expect_bind rfl (.bind (params_reads params) h)))

theorem spells_function_arrow (h : SpellsItem L body) :
    Spells 0 (.word .fnWord :: (name.toList.map .name ++ .mark .leftParen ::
      (Node.paramSymbols params ++ .mark .rightParen :: .mark .arrow ::
      body.fitted 1 (body.symbols L)))) (.function name params body.bare true default) := by
  refine .of_construct (.inr (.inr (.inr rfl))) fun ss hss => ?_
  simp only [List.cons_append, List.append_assoc]
  refine function_reads (.accept_bind rfl (.bind (h.reads ss ?_) ?_))
  · rw [strength_of_closes hss]
    decide
  · rw [Node.through_bare_span]
    exact .pure _ _

theorem spells_function_block (h : SpellsBlock L body) :
    Spells 0 (.word .fnWord :: (name.toList.map .name ++ .mark .leftParen ::
      (Node.paramSymbols params ++ .mark .rightParen :: .mark .newline ::
      (body.blockSymbols L 0 ++ [.word .endWord]))))
      (.function name params body.bare false default) := by
  refine .of_construct (.inr (.inr (.inr rfl))) fun ss hss => ?_
  simp only [List.cons_append, List.append_assoc, List.nil_append]
  have hnewline : TokenKind.newline ≠ .arrow := by decide
  exact function_reads (.refuse_bind hnewline (.expect_bind rfl
    (.bind (h 0 _ rfl fun _ => rfl) (.expect_bind rfl (.spanFrom_bind (.pure _ _))))))

end

/-! ## Arms -/

section

variable {c : Node} {b : Branch Node} {res : List (Arm Node) × Option (Branch Node)}
  (done : List (Arm Node))

theorem moreArms_stop (hss : closes (kindOf ss) = true) :
    Reads (moreArms · done) ss (done.reverse, none) ss := by
  have hne : kindOf ss ≠ .elifWord ∧ kindOf ss ≠ .elseWord := by
    constructor <;> intro hk <;> rw [hk] at hss <;> cases hss
  refine .succ ?_
  unfold moreArms
  exact .refuse_bind hne.1 (.refuse_bind hne.2 (.pure _ _))

theorem moreArms_else (hb : SpellsBranch L b) (hss : closes (kindOf ss) = true) :
    Reads (moreArms · done) (.word .elseWord :: (Node.branchSymbols L b ++ ss))
      (done.reverse, some (Node.bareBranch b)) ss := by
  have hne : TokenKind.elseWord ≠ .elifWord := by decide
  refine .succ ?_
  unfold moreArms
  exact .refuse_bind hne (.accept_bind rfl (.bind (branch_reads hb hss) (.pure _ _)))

theorem moreArms_elif (h : Reads (armsLoop · done) ss res ss') :
    Reads (moreArms · done) (.word .elifWord :: ss) res ss' := by
  refine .succ ?_
  unfold moreArms
  exact .accept_bind rfl h

/-- An arm that another or an `ELSE` follows. -/
theorem armsLoop_more (hc : SpellsItem L c) (hb : SpellsBranch L b)
    (hk : kindOf ss = .elifWord ∨ kindOf ss = .elseWord)
    (h : Reads (moreArms · (Node.bareArm ⟨c, b⟩ :: done)) ss res ss') :
    Reads (armsLoop · done) (c.fitted 1 (c.symbols L) ++ .word .thenWord ::
      (Node.bodySymbols L 1 b ++ ss)) res ss' := by
  obtain ⟨body, block⟩ := b
  refine .succ ?_
  unfold armsLoop
  refine .bind (hc.reads _ Nat.zero_lt_one) (.expect_bind rfl ?_)
  cases block with
  | true =>
      have hend : kindOf ss ≠ .endWord := by rcases hk with hk | hk <;> rw [hk] <;> decide
      have hblock := hb.block rfl 1 ss (by rcases hk with hk | hk <;> rw [hk] <;> rfl) nofun
      refine .accept_bind rfl (.bind hblock (.refuse_bind hend (.peekKind_bind ?_)))
      rcases hk with hk | hk
      · simp only [hk]
        exact h
      · simp only [hk]
        exact h
  | false =>
      have hstatement := hb.statement rfl
      have hquits : quits (kindOf ss) = true := by rcases hk with hk | hk <;> rw [hk] <;> rfl
      exact .refuse_bind (hstatement.kindOf_ne_newline hquits)
        (.bind (hstatement.statement ss hquits) h)

/-- The last arm of an `IF` without an `ELSE`. -/
theorem armsLoop_end (hc : SpellsItem L c) (hb : SpellsBranch L b)
    (hss : closes (kindOf ss) = true) :
    Reads (armsLoop · done) (c.fitted 1 (c.symbols L) ++ .word .thenWord ::
      (Node.bodySymbols L 0 b ++ (Node.endingSymbols none b.block ++ ss)))
      ((Node.bareArm ⟨c, b⟩ :: done).reverse, none) ss := by
  obtain ⟨body, block⟩ := b
  refine .succ ?_
  unfold armsLoop
  refine .bind (hc.reads _ Nat.zero_lt_one) (.expect_bind rfl ?_)
  cases block with
  | true => exact .accept_bind rfl (.bind (hb.block rfl 0 _ rfl fun _ => rfl)
      (.accept_bind rfl (.pure _ _)))
  | false =>
      have hstatement := hb.statement rfl
      have hquits := quits_of_closes hss
      exact .refuse_bind (hstatement.kindOf_ne_newline hquits)
        (.bind (hstatement.statement ss hquits) (moreArms_stop _ hss))

end

/-- The symbols of an arm spell its condition and what it carries out. -/
structure SpellsArm (L : Layout) (a : Arm Node) : Prop where
  condition : SpellsItem L a.condition
  branch : SpellsBranch L a.branch

theorem armsLoop_reads {otherwise : Option (Branch Node)} (a : Arm Node) (as done : List (Arm Node))
    (h : ∀ a' ∈ a :: as, SpellsArm L a') (helse : ∀ b ∈ otherwise, SpellsBranch L b)
    (hss : closes (kindOf ss) = true) :
    Reads (armsLoop · done)
      (Node.armSymbols L (Node.elseSymbols L otherwise) (a :: as) ++ ss)
      (done.reverse ++ (a :: as).map Node.bareArm, Node.bareElse otherwise) ss := by
  obtain ⟨hc, hb⟩ := h a (List.mem_cons_self ..)
  induction as generalizing a done with
  | nil =>
      obtain ⟨c, b⟩ := a
      have hdone : done.reverse ++ [⟨c, b⟩].map Node.bareArm =
          (Node.bareArm ⟨c, b⟩ :: done).reverse := by simp
      rw [hdone]
      cases otherwise with
      | none =>
          have hsymbols := armsLoop_end done hc hb hss
          simpa [Node.armSymbols, Node.elseSymbols] using hsymbols
      | some e =>
          have hsymbols := armsLoop_more done hc hb (.inr rfl)
            (moreArms_else (Node.bareArm ⟨c, b⟩ :: done) (helse e rfl) hss)
          simpa [Node.armSymbols, Node.elseSymbols, Node.endingSymbols] using hsymbols
  | cons a' as ih =>
      obtain ⟨c, b⟩ := a
      have hdone : done.reverse ++ (⟨c, b⟩ :: a' :: as).map Node.bareArm =
          (Node.bareArm ⟨c, b⟩ :: done).reverse ++ (a' :: as).map Node.bareArm := by simp
      have h' : ∀ x ∈ a' :: as, SpellsArm L x := fun x hx => h x (List.mem_cons_of_mem _ hx)
      have hrest := ih a' (Node.bareArm ⟨c, b⟩ :: done) h' (h' a' (List.mem_cons_self ..)).1
        (h' a' (List.mem_cons_self ..)).2
      have hsymbols := armsLoop_more done hc hb (.inl rfl) (moreArms_elif _ hrest)
      rw [hdone, Node.armSymbols]
      simpa using hsymbols

theorem spells_choice {otherwise : Option (Branch Node)} {as : List (Arm Node)} (hne : as ≠ [])
    (h : ∀ a ∈ as, SpellsArm L a) (helse : ∀ b ∈ otherwise, SpellsBranch L b) :
    Spells 0 (.word .ifWord :: Node.armSymbols L (Node.elseSymbols L otherwise) as)
      (.choice (as.map Node.bareArm) (Node.bareElse otherwise) default) := by
  obtain ⟨a, as, rfl⟩ := List.exists_cons_of_ne_nil hne
  refine .of_construct (.inl rfl) fun ss hss => .succ ?_
  unfold atom
  refine .peek_bind (.succ ?_)
  unfold choice
  exact .next_bind (.bind (armsLoop_reads a as [] h helse hss) (.spanFrom_bind (.pure _ _)))

end Grammar

end BasicScript
