import BasicScript.Proofs.Grammar.Completing
import BasicScript.Proofs.Grammar.Parsing
import BasicScript.Proofs.Token.Faults

/-! # The first error

Every function of the grammar reads one token ahead, with one exception: a name in front of an
expression may be followed by a colon. There it helps that no expression fails at a name or at the
token behind it. So a program fails at the first token that cannot stand there, and what stands in
front of that can be completed by ending all that has been begun. -/

namespace BasicScript

namespace Grammar

instance : Inhabited (Branch Node) := ⟨⟨default, false⟩⟩

/-- The sign and the value of a declaration. -/
def valued (tag : Tag) (name : String) (start : Span) (n : Nat) : Reader Node := do
  let _ ← expect .assign .assignSign
  let value ← expression n
  return .declaration tag name value (start.through value.span)

/-- What an annotated declaration has behind the name and the colon. -/
def tagged (name : Token) (n : Nat) : Reader Node := do
  let word ← next
  match tag? word.kind with
  | none => failAt .typeTag word.span
  | some tag => valued tag name.textOrEmpty name.span n

theorem annotated_eq (n : Nat) : annotated (n + 1) = (do
    let name ← next
    let _ ← next
    tagged name n) := by
  unfold annotated
  rfl

theorem ne_end_of_tag {k : TokenKind} {tag : Tag} (h : tag? k = some tag) : k ≠ .endOfInput := by
  rintro rfl
  cases h

/-- How many tokens an expression reads before it may fail. -/
def lead (c : Cursor) : Nat :=
  if c.peek.kind = .identifier then 2 else 0

/-- How each function of the grammar reads, with fuel `n`. What the loops have read before makes no
difference. -/
structure Prompts (n : Nat) : Prop where
  statements : ∀ {ι : Type} c,
    Steady 0 blockEnds blockEnds (statements n) (fun (_ : ι) m => statements m) n c
  statementsLoop : ∀ {ι : Type} done (e : ι → List Node) c,
    Steady 0 blockEnds blockEnds (statementsLoop n done) (fun i m => statementsLoop m (e i)) n c
  statement : ∀ {ι : Type} c,
    Steady 0 [.int] closers (statement n) (fun (_ : ι) m => statement m) n c
  expression : ∀ {ι : Type} c,
    Steady 0 [.int] closers (expression n) (fun (_ : ι) m => expression m) n c
  declaration : ∀ {ι : Type} {tag c}, tag? c.peek.kind = some tag →
    Prompt 0 [] closers (declaration n tag) (fun (_ : ι) m => declaration m tag) n c
  annotated : ∀ {ι : Type} {c}, c.peek.kind = .identifier → c.peekSecond.kind = .colon →
    Prompt 2 [] closers (annotated n) (fun (_ : ι) m => annotated m) n c
  chain : ∀ {ι : Type} level c,
    Steady (lead c) [.int] closers (chain n level) (fun (_ : ι) m => chain m level) n c
  chainLoop : ∀ {ι : Type} level left (e : ι → Node) c,
    Steady 1 closers closers (chainLoop n level left) (fun i m => chainLoop m level (e i)) n c
  operand : ∀ {ι : Type} level c,
    Steady (lead c) [.int] closers (operand n level) (fun (_ : ι) m => operand m level) n c
  factor : ∀ {ι : Type} c,
    Steady (lead c) [.int] closers (factor n) (fun (_ : ι) m => factor m) n c
  powerLoop : ∀ {ι : Type} base (e : ι → Node) c,
    Steady 1 closers closers (powerLoop n base) (fun i m => powerLoop m (e i)) n c
  call : ∀ {ι : Type} c, Steady (lead c) [.int] closers (call n) (fun (_ : ι) m => call m) n c
  callLoop : ∀ {ι : Type} callee (e : ι → Node) c,
    Steady 1 closers closers (callLoop n callee) (fun i m => callLoop m (e i)) n c
  items : ∀ {ι : Type} {close} c, close = .rightParen ∨ close = .rightBracket →
    Steady 0 [close] [close] (items n close) (fun (_ : ι) m => items m close) n c
  itemsLoop : ∀ {ι : Type} done (e : ι → List Node) c,
    Steady 0 [.int] closers (itemsLoop n done) (fun i m => itemsLoop m (e i)) n c
  atom : ∀ {ι : Type} c, Steady (lead c) [.int] closers (atom n) (fun (_ : ι) m => atom m) n c
  choice : ∀ {ι : Type} {c}, c.peek.kind = .ifWord →
    Prompt 0 [] closers (choice n) (fun (_ : ι) m => choice m) n c
  armsLoop : ∀ {ι : Type} done (e : ι → List (Arm Node)) c,
    Steady 0 [.int] closers (armsLoop n done) (fun i m => armsLoop m (e i)) n c
  moreArms : ∀ {ι : Type} done (e : ι → List (Arm Node)) c,
    Steady 0 closers closers (moreArms n done) (fun i m => moreArms m (e i)) n c
  branch : ∀ {ι : Type} c, Steady 0 [.int] closers (branch n) (fun (_ : ι) m => branch m) n c
  forLoop : ∀ {ι : Type} {c}, c.peek.kind = .forWord →
    Prompt 0 [] closers (forLoop n) (fun (_ : ι) m => forLoop m) n c
  whileLoop : ∀ {ι : Type} {c}, c.peek.kind = .whileWord →
    Prompt 0 [] closers (whileLoop n) (fun (_ : ι) m => whileLoop m) n c
  function : ∀ {ι : Type} {c}, c.peek.kind = .fnWord →
    Prompt 0 [] closers (function n) (fun (_ : ι) m => function m) n c

theorem prompts_zero : Prompts 0 where
  statements _ := ⟨.throw, statements_satisfiable⟩
  statementsLoop _ e _ := ⟨.throw, statementsLoop_satisfiable e⟩
  statement _ := ⟨.throw, statement_satisfiable⟩
  expression _ := ⟨.throw, expression_satisfiable⟩
  declaration _ := .throw
  annotated _ _ := .throw
  chain level _ := ⟨.throw, chain_satisfiable level⟩
  chainLoop level _ e _ := ⟨.throw, chainLoop_satisfiable level e⟩
  operand level _ := ⟨.throw, operand_satisfiable level⟩
  factor _ := ⟨.throw, factor_satisfiable⟩
  powerLoop _ e _ := ⟨.throw, powerLoop_satisfiable e⟩
  call _ := ⟨.throw, call_satisfiable⟩
  callLoop _ e _ := ⟨.throw, callLoop_satisfiable e⟩
  items _ _ := ⟨.throw, items_satisfiable _⟩
  itemsLoop _ e _ := ⟨.throw, itemsLoop_satisfiable e⟩
  atom _ := ⟨.throw, atom_satisfiable⟩
  choice _ := .throw
  armsLoop _ e _ := ⟨.throw, armsLoop_satisfiable e⟩
  moreArms _ e _ := ⟨.throw, moreArms_satisfiable e⟩
  branch _ := ⟨.throw, branch_satisfiable⟩
  forLoop _ := .throw
  whileLoop _ := .throw
  function _ := .throw

/-! ## Parameters -/

theorem paramsLoop_prompt {ι : Type} {n : Nat} (done : List String) (e : ι → List String)
    (c : Cursor) :
    Prompt 0 [.rightParen] [.rightParen] (paramsLoop done n) (fun i m => paramsLoop (e i) m)
      n c := by
  induction n generalizing ι done c with
  | zero => exact .throw
  | succ n ih =>
      refine .succ ?_
      unfold paramsLoop
      exact Steady.toPrompt (.accept_bind (Nat.zero_le 1) (by decide) (by decide) (by decide)
        (fun c => .expect_bind (by decide) fun _ c => ⟨ih _ _ c, paramsLoop_satisfiable _⟩) .pure)

theorem params_steady {ι : Type} {n : Nat} (c : Cursor) :
    Steady 0 [.rightParen] [.newline] (params n) (fun (_ : ι) m => params m) n c := by
  refine ⟨?_, params_satisfiable⟩
  unfold params
  refine .widen (.peekKind_bind_busy ?_)
  split
  · rename_i hk
    exact .next_bind (by simp [hk]) fun first c =>
      .bind ⟨paramsLoop_prompt _ _ c, paramsLoop_satisfiable _⟩
        (fun _ c => .expect_bind (by decide) fun _ c => .pure) (List.Subset.refl _)
  · exact Prompt.busy (Steady.toPrompt (.expect_bind (by decide) fun _ c => .pure)) (by decide)

/-! ## Operands and their operators -/

/-- What may be completed by a number is not empty. -/
theorem Prompt.of_int {ι α : Type} {n d : Nat} {c : Cursor} {r : Reader α} {s : ι → Nat → Reader α}
    (h : Steady d [.int] closers r s n c) : Prompt d [] closers r s n c :=
  h.toPrompt.busy (by decide)

/-- An operand and its operators: no loop fails at the first token behind the operand. -/
theorem lead_bind {ι α β : Type} [Nonempty α] {n : Nat} {c : Cursor} {r : Reader α}
    {s : ι → Nat → Reader α} {f : α → Reader β} {g : ι → Nat → α → Reader β}
    (h : Steady (lead c) [.int] closers r s n c)
    (hf : ∀ a c', Steady 1 closers closers (f a) (fun (p : ι × α) m => g p.1 m p.2) n c') :
    Prompt (lead c) [] closers (r >>= f) (fun i m => s i m >>= g i m) n c := by
  refine .of_int (h.bind_of_le hf (List.Subset.refl closers) (Nat.le_refl _) fun p hp => ?_)
  have hlead : lead c ≤ 2 := by
    unfold lead
    split <;> simp
  have hpos : p ≠ [] := fun hnil => absurd (hp hnil) (by decide)
  have hlen := List.length_pos_iff.mpr hpos
  omega

theorem lead_eq_zero {c : Cursor} (h : c.peek.kind ≠ .identifier) : lead c = 0 :=
  if_neg h

section

variable {ι : Type} {n : Nat} (ih : Prompts n)

include ih

theorem chain_prompt (level : Level) (c : Cursor) :
    Prompt (lead c) [] closers (chain (n + 1) level) (fun (_ : ι) m => chain m level)
      (n + 1) c := by
  refine .succ ?_
  unfold chain
  refine .peekKind_bind_busy ?_
  split
  · rename_i hk
    rw [lead_eq_zero (by simp [hk.2])]
    exact .next_bind (by simp [hk.2]) fun _ c => .bind ((ih.chain _ c).mono (Nat.zero_le _))
      (fun _ c => .pure) (List.Subset.refl closers)
  · exact lead_bind (ih.operand level c) fun left c => ih.chainLoop level left _ c

theorem chainLoop_prompt (level : Level) (left : Node) (e : ι → Node) (c : Cursor) :
    Prompt 1 closers closers (chainLoop (n + 1) level left) (fun i m => chainLoop m level (e i))
      (n + 1) c := by
  refine .succ ?_
  unfold chainLoop
  cases hop : level.operator? c.peek.kind with
  | none =>
      have hleft : Prompt 1 closers closers (pure left) (fun i (_ : Nat) => pure (e i)) n c :=
        Steady.pure.toPrompt
      refine Prompt.peekKind_bind (by simpa only [hop] using hleft) fun _ =>
        ⟨List.Subset.refl closers, fun k hk i m => ?_⟩
      rw [hop, operator?_closers level k hk]
  | some op =>
      refine .widen (.peekKind_bind_busy ?_)
      rw [hop]
      have hne : c.peek.kind ≠ .endOfInput := by
        intro hk
        rw [hk, operator?_closers level _ (by decide)] at hop
        cases hop
      exact .next_bind_succ hne fun _ c => .bind ((ih.operand level c).mono (Nat.zero_le _))
        (fun right c => (ih.chainLoop level _ _ c).mono (Nat.zero_le 1)) (List.Subset.refl closers)

theorem operand_prompt (level : Level) (c : Cursor) :
    Prompt (lead c) [] closers (operand (n + 1) level) (fun (_ : ι) m => operand m level)
      (n + 1) c := by
  refine .succ ?_
  unfold operand
  split
  · exact .of_int (ih.chain _ c)
  · exact .of_int (ih.factor c)

theorem factor_prompt (c : Cursor) :
    Prompt (lead c) [] closers (factor (n + 1)) (fun (_ : ι) m => factor m) (n + 1) c := by
  refine .succ ?_
  unfold factor
  refine .peekKind_bind_busy ?_
  split
  · rename_i hk
    rw [lead_eq_zero (by simp [hk])]
    exact .next_bind (by simp [hk]) fun _ c => .bind ((ih.factor c).mono (Nat.zero_le _))
      (fun _ c => .pure) (List.Subset.refl closers)
  · exact lead_bind (ih.call c) fun base c => ih.powerLoop base _ c

theorem powerLoop_prompt (base : Node) (e : ι → Node) (c : Cursor) :
    Prompt 1 closers closers (powerLoop (n + 1) base) (fun i m => powerLoop m (e i)) (n + 1) c := by
  refine .succ ?_
  unfold powerLoop
  exact Steady.toPrompt (.accept_bind (Nat.le_refl 1) (by decide) (by decide) (by decide)
    (fun c => .bind ((ih.factor c).mono (Nat.zero_le _))
      (fun _ c => (ih.powerLoop _ _ c).mono (Nat.zero_le 1)) (List.Subset.refl closers))
    .pure)

theorem call_prompt (c : Cursor) :
    Prompt (lead c) [] closers (call (n + 1)) (fun (_ : ι) m => call m) (n + 1) c := by
  refine .succ ?_
  unfold call
  exact lead_bind (ih.atom c) fun callee c => ih.callLoop callee _ c

theorem callLoop_prompt (callee : Node) (e : ι → Node) (c : Cursor) :
    Prompt 1 closers closers (callLoop (n + 1) callee) (fun i m => callLoop m (e i)) (n + 1) c := by
  refine .succ ?_
  unfold callLoop
  exact Steady.toPrompt (.accept_bind (Nat.le_refl 1) (by decide) (by decide) (by decide)
    (fun c => .bind (ih.items c (.inl rfl)) (fun _ c => .expect_bind (by decide)
      fun _ c => (ih.callLoop _ _ c).mono (Nat.zero_le 1)) (List.Subset.refl _))
    .pure)

theorem items_prompt {close : TokenKind} (h : close = .rightParen ∨ close = .rightBracket)
    (c : Cursor) :
    Prompt 0 [close] [close] (items (n + 1) close) (fun (_ : ι) m => items m close) (n + 1) c := by
  refine .succ ?_
  unfold items
  refine Steady.toPrompt (.peekKind_ite (by simp) .pure fun _ => ?_)
  have hloop := (ih.itemsLoop [] (fun (_ : ι) => []) c).toPrompt
  rcases h with rfl | rfl
  · exact Prompt.busy (hloop.narrow (by decide)) (by decide)
  · exact Prompt.busy (hloop.narrow (by decide)) (by decide)

theorem itemsLoop_prompt (done : List Node) (e : ι → List Node) (c : Cursor) :
    Prompt 0 [] closers (itemsLoop (n + 1) done) (fun i m => itemsLoop m (e i)) (n + 1) c := by
  refine .succ ?_
  unfold itemsLoop
  exact .of_int (.bind (ih.expression c) (fun _ c => .accept_bind (Nat.zero_le 1) (by decide)
    (by decide) (by decide) (fun c => ih.itemsLoop _ _ c) .pure) (List.Subset.refl closers))

theorem atom_prompt (c : Cursor) :
    Prompt (lead c) [] closers (atom (n + 1)) (fun (_ : ι) m => atom m) (n + 1) c := by
  refine .succ ?_
  unfold atom
  refine .peek_bind (by decide) ?_
  split
  case h_4 hk =>
    have hlead : lead c = 1 + 1 := if_pos hk
    rw [hlead]
    exact .next_bind_succ (by simp [hk]) fun _ c => .pure
  case h_11 hother _ _ _ _ _ _ =>
    rw [lead_eq_zero hother]
    exact .fail
  all_goals
    rename_i hk
    rw [lead_eq_zero (by simp [hk])]
  case h_1 | h_2 =>
    split
    · exact .next_bind (by simp [hk]) fun _ c => .pure
    · exact .reject rfl fun _ _ _ _ => rfl
  case h_3 => exact .next_bind (by simp [hk]) fun _ c => .pure
  case h_5 =>
    exact .next_bind (by simp [hk]) fun _ c => .bind (ih.expression c)
      (fun _ c => .expect_bind (by decide) fun _ c => .pure) (by decide)
  case h_6 =>
    exact .next_bind (by simp [hk]) fun _ c => .bind (ih.items c (.inr rfl))
      (fun _ c => .expect_bind (by decide) fun _ c => .pure) (by decide)
  case h_7 => exact ih.choice hk
  case h_8 => exact ih.forLoop hk
  case h_9 => exact ih.whileLoop hk
  case h_10 => exact ih.function hk

/-! ## Declarations -/

theorem valued_steady (tag : Tag) (name : String) (start : Span) (e : ι → String)
    (e' : ι → Span) (c : Cursor) :
    Steady 0 [.assign] closers (valued tag name start n) (fun i m => valued tag (e i) (e' i) m)
      n c := by
  unfold valued
  exact .expect_bind (by decide) fun _ c => .bind (ih.expression c) (fun _ c => .pure)
    (List.Subset.refl closers)

theorem declaration_prompt {tag : Tag} {c : Cursor} (h : tag? c.peek.kind = some tag) :
    Prompt 0 [] closers (declaration (n + 1) tag) (fun (_ : ι) m => declaration m tag)
      (n + 1) c := by
  refine .succ ?_
  unfold declaration
  exact .next_bind (ne_end_of_tag h) fun _ c => .expect_bind (by decide) fun _ c =>
    valued_steady ih _ _ _ _ _ c

theorem tagged_prompt (name : Token) (e : ι → Token) (c : Cursor) :
    Prompt 0 [] closers (tagged name n) (fun i m => tagged (e i) m) n c := by
  unfold tagged
  cases htag : tag? c.peek.kind with
  | none =>
      refine .reject (f := .typeTag) ?_ fun i m c₂ h₂ => ?_
      · rw [next_bind, htag, next_bind]
      · rw [next_bind, h₂, htag, next_bind]
  | some tag =>
      have hnext : Prompt 0 [] closers
          (next >>= fun _ => valued tag name.textOrEmpty name.span n)
          (fun i m => next >>= fun _ => valued tag (e i).textOrEmpty (e i).span m) n c :=
        .next_bind (ne_end_of_tag htag) fun _ c => valued_steady ih _ _ _ _ _ c
      refine hnext.look ?_ (fun i m c₂ h₂ => ?_) fun h =>
        absurd h (by decide)
      · rw [next_bind, htag, next_bind]
      · rw [next_bind, h₂, htag, next_bind]

theorem tagged_satisfiable (e : ι → Token) :
    Satisfiable [.num] closers (fun i m => tagged (e i) m) := by
  have hnext : Satisfiable [.num] closers
      (fun i m => next >>= fun _ => valued .num (e i).textOrEmpty (e i).span m) :=
    .bind (.next (by decide)) (valued_steady ih .num "" default _ _ (.ofTokens [])).satisfiable
      (List.Subset.refl _)
  refine hnext.look fun i m c hc => ?_
  unfold tagged
  rw [next_bind, List.mem_singleton.mp hc, next_bind]
  rfl

theorem annotated_prompt {c : Cursor} (h : c.peek.kind = .identifier)
    (h₂ : c.peekSecond.kind = .colon) :
    Prompt 2 [] closers (annotated (n + 1)) (fun (_ : ι) m => annotated m) (n + 1) c := by
  have hcolon : c.advance.peek.kind = .colon := by
    rw [← Cursor.peekSecond_eq (c.rest_ne_nil (by simp [h])), h₂]
  refine .succ ?_
  simp only [annotated_eq]
  exact .next_bind_at (by simp [h]) (.widen (.next_bind_at (by simp [hcolon])
    (.widen (tagged_prompt ih _ _ _)) (tagged_satisfiable ih _)))
    (.bind (.next (k := .colon) (by decide)) (tagged_satisfiable ih _) (List.Subset.refl _))

theorem expression_prompt (c : Cursor) :
    Prompt 0 [] closers (expression (n + 1)) (fun (_ : ι) m => expression m) (n + 1) c := by
  refine .succ ?_
  unfold expression
  refine .peekKind_bind_busy ?_
  split
  · rename_i tag htag
    exact ih.declaration htag
  have hchain := Prompt.of_int (ih.chain (ι := ι) .logic c)
  by_cases hk : c.peek.kind = .identifier
  -- the decision is by the second token, and neither way fails before the third
  · refine .mono ?_ (Nat.zero_le 2)
    by_cases hcolon : c.peekSecond.kind = .colon
    · refine (ih.annotated hk hcolon).look_second (by decide) ?_ (fun i m c₂ h h₂ => ?_)
        (.inl annotated_advances_both)
      · rw [get_bind, if_pos ⟨hk, hcolon⟩]
      · rw [get_bind, if_pos ⟨hk, h₂.trans hcolon⟩]
    · have hlead : lead c = 2 := if_pos hk
      rw [hlead] at hchain
      refine hchain.look_second (by decide) ?_ (fun i m c₂ h h₂ => ?_) (.inr fun i m c₂ h h₂ => ?_)
      · rw [get_bind, if_neg fun h => hcolon h.2]
      · rw [get_bind, if_neg fun h => hcolon (h₂ ▸ h.2)]
      · rw [get_bind, if_neg fun h => ?_]
        rw [h.2] at h₂
        exact absurd h₂ (by decide)
  · refine (hchain.mono (Nat.zero_le _)).look ?_ (fun i m c₂ h => ?_) fun h => absurd h (by decide)
    · rw [get_bind, if_neg fun h => hk h.1]
    · rw [get_bind, if_neg fun h => hk h.1]

/-! ## Statements and blocks -/

theorem statement_prompt (c : Cursor) :
    Prompt 0 [] closers (statement (n + 1)) (fun (_ : ι) m => statement m) (n + 1) c := by
  refine .succ ?_
  unfold statement
  refine .peekKind_bind_busy ?_
  split
  · rename_i hk
    exact .next_bind (by simp [hk]) fun _ c => .peekKind_ite_not (by decide)
      (fun _ => .of_int (.bind (ih.expression c) (fun _ c => .pure) (List.Subset.refl closers)))
      .pure
  · rename_i hk
    exact .next_bind (by simp [hk]) fun _ c => .pure
  · rename_i hk
    exact .next_bind (by simp [hk]) fun _ c => .pure
  · exact .of_int (ih.expression c)

theorem statements_prompt (c : Cursor) :
    Prompt 0 blockEnds blockEnds (statements (n + 1)) (fun (_ : ι) m => statements m)
      (n + 1) c := by
  refine .succ ?_
  unfold statements
  exact Steady.toPrompt (.bind .peek (fun first c => .bind (ih.statementsLoop [] _ c)
    (fun lines c => .pure) (List.Subset.refl _)) (List.Subset.refl _))

theorem statementsLoop_prompt (done : List Node) (e : ι → List Node) (c : Cursor) :
    Prompt 0 blockEnds blockEnds (statementsLoop (n + 1) done)
      (fun i m => statementsLoop m (e i)) (n + 1) c := by
  refine .succ ?_
  unfold statementsLoop
  refine Steady.toPrompt (.bind (.skipNewlines (by decide)) (fun _ c => .peekKind_ite (by decide)
    .pure fun _ => Prompt.busy (Steady.toPrompt (.bind (ih.statement c) (fun line c =>
      .peekKind_ite_not (by decide) (fun hk => ?_) .pure) (by decide))) (by decide))
    (List.Subset.refl _))
  -- behind a newline there may be no more lines, but the newline is read
  exact (ih.statementsLoop _ _ c).toPrompt.busy_of_advances
    (statementsLoop_advances_of_newline _ hk)

theorem branch_prompt (c : Cursor) :
    Prompt 0 [] closers (branch (n + 1)) (fun (_ : ι) m => branch m) (n + 1) c := by
  refine .succ ?_
  unfold branch
  exact .of_int (.accept_bind (Nat.zero_le 1) (by decide) (by decide) (by decide)
    (fun c => .bind (ih.statements c) (fun _ c => .expect_bind (by decide) fun _ c => .pure)
      (by decide))
    (.bind (ih.statement c) (fun _ c => .pure) (List.Subset.refl closers)))

/-! ## Constructs -/

theorem moreArms_prompt (done : List (Arm Node)) (e : ι → List (Arm Node)) (c : Cursor) :
    Prompt 0 closers closers (moreArms (n + 1) done) (fun i m => moreArms m (e i)) (n + 1) c := by
  refine .succ ?_
  unfold moreArms
  exact Steady.toPrompt (.accept_bind (Nat.zero_le 1) (by decide) (by decide) (by decide)
    (fun c => ih.armsLoop _ _ c) (.accept_bind (Nat.zero_le 1) (by decide) (by decide) (by decide)
      (fun c => .bind (ih.branch c) (fun _ c => .pure) (List.Subset.refl closers)) .pure))

theorem armsLoop_prompt (done : List (Arm Node)) (e : ι → List (Arm Node)) (c : Cursor) :
    Prompt 0 [] closers (armsLoop (n + 1) done) (fun i m => armsLoop m (e i)) (n + 1) c := by
  refine .succ ?_
  unfold armsLoop
  refine .of_int (.bind (ih.expression c) (fun condition c => .expect_bind (by decide) fun _ c =>
    .accept_bind (Nat.zero_le 1) (by decide) (by decide) (by decide) (fun c =>
      .bind (ih.statements c) (fun body c => ?_) (?_ : [.endWord] ⊆ blockEnds))
    (.bind (ih.statement c) (fun body c => ih.moreArms _ _ c) (List.Subset.refl closers)))
    (by decide))
  -- an `ELIF` or `ELSE` may stand behind the block, but an `END` is what completes it
  · refine ⟨.accept_bind (fun hk => ?_) (?_ : Prompt 0 [] closers _ _ n c)
      fun h => absurd h (by decide), .take_bind (by decide) .pure⟩
    · exact .next_bind (by simp [hk]) fun _ c => .pure
    · refine .peekKind_bind_busy ?_
      split
      · rename_i hk
        exact (ih.moreArms _ _ c).toPrompt.busy_of_advances
          (moreArms_advances_of_kind _ (.inl hk))
      · rename_i hk
        exact (ih.moreArms _ _ c).toPrompt.busy_of_advances
          (moreArms_advances_of_kind _ (.inr hk))
      · exact .fail
  · decide

theorem choice_prompt {c : Cursor} (h : c.peek.kind = .ifWord) :
    Prompt 0 [] closers (choice (n + 1)) (fun (_ : ι) m => choice m) (n + 1) c := by
  refine .succ ?_
  unfold choice
  exact .next_bind (by simp [h]) fun _ c => .bind (ih.armsLoop [] _ c) (fun _ c =>
    .bind .spanFrom (fun _ c => .pure) (List.Subset.refl closers)) (List.Subset.refl closers)

theorem whileLoop_prompt {c : Cursor} (h : c.peek.kind = .whileWord) :
    Prompt 0 [] closers (whileLoop (n + 1)) (fun (_ : ι) m => whileLoop m) (n + 1) c := by
  refine .succ ?_
  unfold whileLoop
  exact .next_bind (by simp [h]) fun _ c => .bind (ih.expression c) (fun _ c =>
    .expect_bind (by decide) fun _ c => .bind (ih.branch c) (fun _ c =>
    .bind .spanFrom (fun _ c => .pure) (List.Subset.refl closers)) (List.Subset.refl closers))
    (by decide)

theorem forLoop_prompt {c : Cursor} (h : c.peek.kind = .forWord) :
    Prompt 0 [] closers (forLoop (n + 1)) (fun (_ : ι) m => forLoop m) (n + 1) c := by
  refine .succ ?_
  unfold forLoop
  exact .next_bind (by simp [h]) fun _ c => .expect_bind (by decide) fun _ c =>
    .expect_bind (by decide) fun _ c => .bind (ih.expression c) (fun _ c =>
    .expect_bind (by decide) fun _ c => .bind (ih.expression c) (fun _ c =>
    .bind (.accept_bind (Nat.zero_le 1) (by decide) (by decide) (by decide)
        (fun c => .bind (ih.expression c) (fun _ c => .pure) (List.Subset.refl closers)) .pure)
      (fun _ c => .expect_bind (by decide) fun _ c => .bind (ih.branch c) (fun _ c =>
        .bind .spanFrom (fun _ c => .pure) (List.Subset.refl closers)) (List.Subset.refl closers))
      (by decide)) (List.Subset.refl closers)) (by decide)

theorem function_prompt {c : Cursor} (h : c.peek.kind = .fnWord) :
    Prompt 0 [] closers (function (n + 1)) (fun (_ : ι) m => function m) (n + 1) c := by
  refine .succ ?_
  unfold function
  exact .next_bind (by simp [h]) fun keyword c =>
    .bind (.peekKind_ite_not (by decide)
        (fun hk => .next_bind (by simp [hk]) fun _ c => .pure) .pure)
      (fun name c => .expect_bind (by decide) fun _ c => .bind (params_steady c)
        (fun params c => .accept_bind (Nat.zero_le 1) (by decide) (by decide) (by decide)
          (fun c => .bind (ih.expression c) (fun _ c => .pure) (List.Subset.refl closers))
          (.expect_bind (by decide) fun _ c => .bind (ih.statements c)
            (fun body c => .expect_bind (by decide) fun _ c =>
              .bind .spanFrom (fun _ c => .pure) (List.Subset.refl closers)) (by decide)))
        (List.Subset.refl _)) (List.Subset.refl _)

end

/-! ## Programs -/

theorem prompts (n : Nat) : Prompts n := by
  induction n with
  | zero => exact prompts_zero
  | succ n ih =>
      exact {
        statements := fun c => ⟨statements_prompt ih c, statements_satisfiable⟩
        statementsLoop := fun done e c =>
          ⟨statementsLoop_prompt ih done e c, statementsLoop_satisfiable e⟩
        statement := fun c => ⟨.widen (statement_prompt ih c), statement_satisfiable⟩
        expression := fun c => ⟨.widen (expression_prompt ih c), expression_satisfiable⟩
        declaration := fun h => declaration_prompt ih h
        annotated := fun h h₂ => annotated_prompt ih h h₂
        chain := fun level c => ⟨.widen (chain_prompt ih level c), chain_satisfiable level⟩
        chainLoop := fun level left e c =>
          ⟨chainLoop_prompt ih level left e c, chainLoop_satisfiable level e⟩
        operand := fun level c => ⟨.widen (operand_prompt ih level c), operand_satisfiable level⟩
        factor := fun c => ⟨.widen (factor_prompt ih c), factor_satisfiable⟩
        powerLoop := fun base e c => ⟨powerLoop_prompt ih base e c, powerLoop_satisfiable e⟩
        call := fun c => ⟨.widen (call_prompt ih c), call_satisfiable⟩
        callLoop := fun callee e c => ⟨callLoop_prompt ih callee e c, callLoop_satisfiable e⟩
        items := fun c h => ⟨items_prompt ih h c, items_satisfiable _⟩
        itemsLoop := fun done e c =>
          ⟨.widen (itemsLoop_prompt ih done e c), itemsLoop_satisfiable e⟩
        atom := fun c => ⟨.widen (atom_prompt ih c), atom_satisfiable⟩
        choice := fun h => choice_prompt ih h
        armsLoop := fun done e c => ⟨.widen (armsLoop_prompt ih done e c), armsLoop_satisfiable e⟩
        moreArms := fun done e c => ⟨moreArms_prompt ih done e c, moreArms_satisfiable e⟩
        branch := fun c => ⟨.widen (branch_prompt ih c), branch_satisfiable⟩
        forLoop := fun h => forLoop_prompt ih h
        whileLoop := fun h => whileLoop_prompt ih h
        function := fun h => function_prompt ih h }

theorem program_steady (n : Nat) (c : Cursor) :
    Steady 0 blockEnds [.endOfInput] (program n) (fun (_ : Unit) m => program m) n c := by
  unfold program
  exact .bind ((prompts n).statements c) (fun lines c => .peekKind_ite (by decide) .pure
    fun _ => .fail) (by decide)

end Grammar

namespace Cursor

variable {front us : List Token} {t : Token}

theorem tokens_ofTokens (hfront : ∀ u ∈ front, u.kind ≠ .endOfInput) (ht : t.kind = .endOfInput) :
    (ofTokens (front ++ t :: us)).tokens = front ++ [t] := by
  have hnone : front.find? (·.kind = .endOfInput) = none := by simpa using hfront
  have hfinish : finishOf (front ++ t :: us) = t := by
    rw [finishOf, List.find?_append, hnone]
    simp [ht]
  calc
    (ofTokens (front ++ t :: us)).rest ++ [finishOf (front ++ t :: us)]
    _ = front ++ [t] := by rw [rest_ofTokens hfront ht, hfinish]

/-- Tokens in front of the end of input are read whatever stands behind them. -/
theorem exists_tokens_ofTokens (hfront : ∀ u ∈ front, u.kind ≠ .endOfInput) (t : Token)
    (us : List Token) : ∃ vs, (ofTokens (front ++ t :: us)).tokens = front ++ t :: vs := by
  by_cases ht : t.kind = .endOfInput
  · exact ⟨[], tokens_ofTokens hfront ht⟩
  · refine ⟨us.takeWhile (·.kind != .endOfInput) ++ [finishOf (front ++ t :: us)], ?_⟩
    rw [tokens, ofTokens, List.takeWhile_append_of_pos (by simpa using hfront),
      List.takeWhile_cons_of_pos (by simpa using ht), List.append_assoc, List.cons_append]

end Cursor

namespace Node

open Grammar

/-- A token list that is no program is told of at a first fault. -/
theorem exists_firstFault {ts : List Token} {d : Diagnostic} (h : ofTokens ts = .error d) :
    ∃ front t, FirstFault 0 (fuelFor ts) [.endOfInput] d (fun (_ : Unit) m => program m)
      (.ofTokens ts) front t := by
  obtain ⟨c, hc⟩ := ofTokens_eq_error_iff.mp h
  exact (program_steady (fuelFor ts) (.ofTokens ts)).refuses d c hc

/-- Whatever keeps a token list from being a program is a fault in its syntax. -/
theorem kind_of_ofTokens {ts : List Token} {d : Diagnostic} (h : ofTokens ts = .error d) :
    d.kind = .invalidSyntax := by
  obtain ⟨front, t, hfirst⟩ := exists_firstFault h
  exact hfirst.kind

/-- What is told of a program that cannot be read comes without a traceback. -/
theorem untraced_of_ofSource {source : Source} {d : Diagnostic}
    (h : ofSource source = .error d) : d.kind.traced = false := by
  rcases ofSource_eq_error.mp h with h | ⟨ts, -, h⟩
  · rcases Source.kind_of_tokens h with hkind | hkind <;> rw [hkind] <;> rfl
  · rw [kind_of_ofTokens h]
    rfl

/-- What a token list that is no program is faulted at is its first token that no program can have
there: the tokens in front of it can be completed to a program, and whatever follows it, the fault
is the same. -/
theorem ofTokens_error_is_first {ts : List Token} {e : Token} {d : Diagnostic}
    (hts : ∀ t ∈ ts, t.kind ≠ .endOfInput) (he : e.kind = .endOfInput)
    (h : ofTokens (ts ++ [e]) = .error d) :
    ∃ front t rest, ts ++ [e] = front ++ t :: rest ∧ d.span = t.span ∧
      (∃ w x, (∀ u ∈ w, u.kind ≠ .endOfInput) ∧ ofTokens (front ++ w ++ [e]) = .ok x) ∧
      ∀ us, ofTokens (front ++ t :: us) = .error d := by
  have hsteady := program_steady (fuelFor (ts ++ [e])) (.ofTokens (ts ++ [e]))
  obtain ⟨c, hc⟩ := ofTokens_eq_error_iff.mp h
  obtain ⟨front, t, hfirst⟩ := hsteady.refuses d c hc
  obtain ⟨rest, hsplit⟩ := hfirst.stands
  rw [Cursor.tokens_ofTokens hts he] at hsplit
  have hfront : ∀ u ∈ front, u.kind ≠ .endOfInput := by
    have hsub := congrArg List.dropLast hsplit
    rw [List.dropLast_concat, List.dropLast_append_of_ne_nil (List.cons_ne_nil t rest)] at hsub
    exact fun u hu => hts u (hsub ▸ List.mem_append_left _ hu)
  refine ⟨front, t, rest, hsplit, hfirst.span, ?_, fun us => ?_⟩
  · have hcompletable : Completable [.endOfInput] (fun (_ : Unit) m => program m) front := by
      by_cases hnil : front = []
      · exact hnil ▸ hsteady.satisfiable.completable
      · exact hfirst.completable hnil
    obtain ⟨w, N, hw, htakes⟩ := hcompletable
    have hall := List.forall_mem_append.mpr ⟨hfront, hw⟩
    obtain ⟨x, c', hx, -⟩ := htakes () (max N (fuelFor (front ++ w ++ [e]))) (Nat.le_max_left _ _)
      (.ofTokens (front ++ w ++ [e])) e [] (Cursor.tokens_ofTokens hall he) (by simp [he])
    exact ⟨w, x, hw, (ofTokens_eq_ok_iff_of_le (Nat.le_max_right _ _)).mpr ⟨c', hx⟩⟩
  · obtain ⟨vs, hvs⟩ := Cursor.exists_tokens_ofTokens hfront t us
    exact (ofTokens_eq_error_iff_of_le (Nat.le_max_right (fuelFor (ts ++ [e])) _)).mpr
      (hfirst.finds () _ (Nat.le_max_left _ _) _ vs hvs)

/-- `f(1 2` with places in one line: the fault is at the `2`. -/
theorem ofTokens_error_is_first_call :
    let place (i : Nat) : Span := .single ⟨i, 0, i, default⟩
    let ts : List Token := [⟨.identifier, some (.text "f"), place 0⟩, ⟨.leftParen, none, place 1⟩,
      ⟨.int, some (.number (.int 1)), place 2⟩, ⟨.int, some (.number (.int 2)), place 4⟩]
    let e : Token := ⟨.endOfInput, none, place 5⟩
    let d := GrammarFault.callEnd.diagnostic (place 4)
    (∀ t ∈ ts, t.kind ≠ .endOfInput) ∧ e.kind = .endOfInput ∧ ofTokens (ts ++ [e]) = .error d ∧
    ∃ front t rest, ts ++ [e] = front ++ t :: rest ∧ d.span = t.span ∧
      (∃ w x, (∀ u ∈ w, u.kind ≠ .endOfInput) ∧ ofTokens (front ++ w ++ [e]) = .ok x) ∧
      ∀ us, ofTokens (front ++ t :: us) = .error d := by
  intro place ts e d
  have hts : ∀ t ∈ ts, t.kind ≠ .endOfInput := by decide
  have h : ofTokens (ts ++ [e]) = .error d := rfl
  exact ⟨hts, rfl, h, ofTokens_error_is_first hts rfl h⟩

end Node

end BasicScript
