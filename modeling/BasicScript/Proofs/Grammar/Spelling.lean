import BasicScript.Proofs.Grammar.Precedence

/-! # What symbols spell

What has to be known of the symbols of an expression, to read them in any place that is no tighter
than they are: how they are read as an operand, as a chain that may go on, as a callee. -/

namespace BasicScript

open BasicScript.Symbol (kindOf)

namespace Grammar

/-- The tokens that end an expression whatever it is. -/
def closes : TokenKind → Bool
  | .rightParen | .newline | .endWord | .endOfInput => true
  | _ => false

theorem strength_of_closes {k : TokenKind} (h : closes k = true) : strength k = 0 := by
  cases k <;> first | rfl | simp [closes] at h

/-- What the first symbols tell before an expression of a tightness is read. -/
structure Opens (t : Nat) (ss : List Symbol) : Prop where
  starts : startsExpression (kindOf ss) = true
  untagged : 1 ≤ t → tag? (kindOf ss) = none
  unnamed : 1 ≤ t → ¬(kindOf ss = .identifier ∧ kindOf ss.tail = .colon)
  no_not : 3 ≤ t → kindOf ss ≠ .not
  no_minus : 7 ≤ t → kindOf ss ≠ .minus

theorem Opens.mono {t u : Nat} {ss : List Symbol} (h : Opens t ss) (hu : u ≤ t) : Opens u ss where
  starts := h.starts
  untagged hu' := h.untagged (by omega)
  unnamed hu' := h.unnamed (by omega)
  no_not hu' := h.no_not (by omega)
  no_minus hu' := h.no_minus (by omega)

section

variable (part : List Symbol) (v : Node)

/-- Read as a callee, and then as the calls that follow. -/
def ReadsAsCallee : Prop :=
  ∀ ss w ss', Reads (callLoop · v) ss w ss' → Reads call (part ++ ss) w ss'

def ReadsAsFactor : Prop :=
  ∀ ss, strength (kindOf ss) < 6 → Reads factor (part ++ ss) v ss

def ReadsAsOperand (level : Level) : Prop :=
  ∀ ss, strength (kindOf ss) < level.operandSlot → Reads (operand · level) (part ++ ss) v ss

/-- Read as the front of a chain, and then as the operands that follow. -/
def ReadsAsChain (level : Level) : Prop :=
  ∀ ss w ss', strength (kindOf ss) < level.operandSlot → Reads (chainLoop · level v) ss w ss' →
    Reads (chain · level) (part ++ ss) w ss'

/-- Symbols that spell a tree of a tightness. -/
structure Spells (t : Nat) (part : List Symbol) (v : Node) : Prop where
  opens : ∀ ss, kindOf ss ≠ .colon → Opens t (part ++ ss)
  expression : ∀ ss, closes (kindOf ss) = true → Reads expression (part ++ ss) v ss
  chain : ∀ level, level.slot ≤ t → ReadsAsChain part v level
  operand : ∀ level, level.operandSlot ≤ t → ReadsAsOperand part v level
  factor : 6 ≤ t → ReadsAsFactor part v
  callee : 7 ≤ t → ReadsAsCallee part v

end

variable {t u : Nat} {part : List Symbol} {v : Node} {level tighter : Level}

theorem Spells.mono (h : Spells t part v) (hu : u ≤ t) : Spells u part v where
  opens ss hss := (h.opens ss hss).mono hu
  expression := h.expression
  chain level hl := h.chain level (Nat.le_trans hl hu)
  operand level hl := h.operand level (Nat.le_trans hl hu)
  factor h6 := h.factor (by omega)
  callee h7 := h.callee (by omega)

/-! ## Looser and looser -/

theorem ReadsAsCallee.factor (h : ReadsAsCallee part v)
    (hopens : ∀ ss, kindOf ss ≠ .colon → Opens 7 (part ++ ss)) : ReadsAsFactor part v := by
  intro ss hss
  have hminus := (hopens ss (ne_colon (by omega))).no_minus (by omega)
  exact factor_of_call hminus (h ss v ss (callLoop_stop (by omega))) (powerLoop_stop hss)

theorem ReadsAsOperand.chain (h : ReadsAsOperand part v level)
    (hopens : ∀ ss, kindOf ss ≠ .colon → level = .comparison → kindOf (part ++ ss) ≠ .not) :
    ReadsAsChain part v level := by
  intro ss w ss' hss hloop
  have hle := level.operandSlot_le
  exact chain_of_operand (hopens ss (ne_colon (by omega))) (h ss hss) hloop

theorem ReadsAsChain.operand (h : ReadsAsChain part v tighter)
    (ht : level.tighter = some tighter) : ReadsAsOperand part v level := by
  intro ss hss
  have hle := Level.operandSlot_le_slot ht
  have hlt := tighter.slot_lt_operandSlot
  exact operand_of_chain ht (h ss v ss (by omega) (chainLoop_stop (by omega)))

/-- A chain of a level is a chain of any looser one. -/
theorem ReadsAsChain.looser (h : ReadsAsChain part v level)
    (hopens : ∀ ss, kindOf ss ≠ .colon → Opens level.slot (part ++ ss)) (other : Level)
    (hle : other.slot ≤ level.slot) : ReadsAsChain part v other := by
  have step (l l' : Level) (ht : l.tighter = some l') (hl : l'.slot ≤ level.slot)
      (h : ReadsAsChain part v l') : ReadsAsChain part v l := by
    refine (h.operand ht).chain fun ss hss hc => (hopens ss hss).no_not ?_
    subst hc
    cases ht
    exact Nat.le_trans (by decide : 3 ≤ Level.sum.slot) hl
  have sum (hl : 5 ≤ level.slot) := step .sum .product rfl hl
  have comparison (hl : 4 ≤ level.slot) := step .comparison .sum rfl hl
  have logic (hl : 3 ≤ level.slot) := step .logic .comparison rfl hl
  cases level <;> cases other <;> first
    | exact h
    | exact absurd hle (by decide)
    | exact logic (by decide) h
    | exact comparison (by decide) h
    | exact sum (by decide) h
    | exact logic (by decide) (comparison (by decide) h)
    | exact comparison (by decide) (sum (by decide) h)
    | exact logic (by decide) (comparison (by decide) (sum (by decide) h))

theorem ReadsAsChain.expression (h : ReadsAsChain part v .logic)
    (hopens : ∀ ss, kindOf ss ≠ .colon → Opens 1 (part ++ ss)) (ss : List Symbol)
    (hss : strength (kindOf ss) < 1) : Reads expression (part ++ ss) v ss := by
  have ho := hopens ss (ne_colon (by omega))
  exact expression_of_chain (ho.untagged (Nat.le_refl _)) (ho.unnamed (Nat.le_refl _))
    (h ss v ss (Nat.lt_trans hss (by decide)) (chainLoop_stop hss))

namespace Spells

/-- An expression that stands in parentheses or in a place that asks for any tightness may be
followed by whatever is no operator. -/
theorem expression_of_pos (h : Spells t part v) (ht : 1 ≤ t) (ss : List Symbol)
    (hss : strength (kindOf ss) < 1) : Reads Grammar.expression (part ++ ss) v ss :=
  (h.chain .logic ht).expression (fun ss hss => (h.opens ss hss).mono ht) ss hss

theorem of_chain (level : Level) (h : ReadsAsChain part v level)
    (hopens : ∀ ss, kindOf ss ≠ .colon → Opens level.slot (part ++ ss)) :
    Spells level.slot part v where
  opens := hopens
  expression ss hss := by
    have hpos : 1 ≤ level.slot := by cases level <;> decide
    exact (h.looser hopens .logic hpos).expression (fun ss hss => (hopens ss hss).mono hpos) ss
      (by rw [strength_of_closes hss]; decide)
  chain := h.looser hopens
  operand other hle := by
    cases ht : other.tighter with
    | none =>
        cases other <;> cases ht
        cases level <;> exact absurd hle (by decide)
    | some tighter =>
        refine (h.looser hopens tighter ?_).operand ht
        cases other <;> cases ht <;> cases level <;> first | decide | exact absurd hle (by decide)
  factor h6 := by cases level <;> exact absurd h6 (by decide)
  callee h7 := by cases level <;> exact absurd h7 (by decide)

/-- What is read as a factor spells an operand of every level. -/
theorem of_factor (h : ReadsAsFactor part v) (ht : 5 ≤ t)
    (hopens : ∀ ss, kindOf ss ≠ .colon → Opens t (part ++ ss))
    (hcallee : 7 ≤ t → ReadsAsCallee part v) : Spells t part v := by
  have hproduct : ReadsAsOperand part v .product := fun ss hss => operand_of_factor (h ss hss)
  have hchain : Spells 5 part v := of_chain .product
    (hproduct.chain fun _ _ hl => by cases hl) fun ss hss => (hopens ss hss).mono ht
  have hslot (level : Level) : level.slot ≤ 5 := by cases level <;> decide
  exact {
    opens := hopens
    expression := hchain.expression
    chain := fun level _ => hchain.chain level (hslot level)
    operand := fun level _ => by
      cases level with
      | product => exact hproduct
      | logic => exact hchain.operand .logic (by decide)
      | comparison => exact hchain.operand .comparison (by decide)
      | sum => exact hchain.operand .sum (by decide)
    factor := fun _ => h
    callee := hcallee }

theorem of_callee (h : ReadsAsCallee part v)
    (hopens : ∀ ss, kindOf ss ≠ .colon → Opens 7 (part ++ ss)) : Spells 7 part v :=
  of_factor (h.factor hopens) (by decide) hopens fun _ => h

/-- What is read as an operand of `and` and `or`, `not` with its operand, is read as a chain of
these. -/
theorem of_operand_logic (h : ReadsAsOperand part v .logic)
    (hopens : ∀ ss, kindOf ss ≠ .colon → Opens 2 (part ++ ss)) : Spells 2 part v := by
  have hlogic := h.chain fun _ _ hl => by cases hl
  exact {
    opens := hopens
    expression := fun ss hss => hlogic.expression (fun ss hss => (hopens ss hss).mono (by decide))
      ss (by rw [strength_of_closes hss]; decide)
    chain := fun level hle => by
      cases level with
      | logic => exact hlogic
      | _ => exact absurd hle (by decide)
    operand := fun level hle => by
      cases level with
      | logic => exact h
      | _ => exact absurd hle (by decide)
    factor := fun h6 => absurd h6 (by decide)
    callee := fun h7 => absurd h7 (by decide) }

/-- What is read as an expression before a token that ends it has no tightness at all. -/
theorem of_expression (hstarts : ∀ ss, startsExpression (kindOf (part ++ ss)) = true)
    (h : ∀ ss, closes (kindOf ss) = true → Reads Grammar.expression (part ++ ss) v ss) :
    Spells 0 part v where
  opens ss _ := ⟨hstarts ss, fun h => absurd h (by decide), fun h => absurd h (by decide),
    fun h => absurd h (by decide), fun h => absurd h (by decide)⟩
  expression := h
  chain level hle := by cases level <;> exact absurd hle (by decide)
  operand level hle := by cases level <;> exact absurd hle (by decide)
  factor h6 := absurd h6 (by decide)
  callee h7 := absurd h7 (by decide)

/-- A construct with a keyword in front is an atom, and it goes on as far as it can. -/
theorem of_construct {s : Symbol} (hs : s.kind = .ifWord ∨ s.kind = .forWord ∨
      s.kind = .whileWord ∨ s.kind = .fnWord)
    (h : ∀ ss, closes (kindOf ss) = true → Reads atom (s :: part ++ ss) v ss) :
    Spells 0 (s :: part) v := by
  have htag : tag? s.kind = none := by rcases hs with hs | hs | hs | hs <;> rw [hs] <;> rfl
  refine of_expression (fun ss => ?_) fun ss hss => ?_
  · rcases hs with hs | hs | hs | hs <;> simp [hs, startsExpression]
  · have hstop := strength_of_closes hss
    have hcallee : Reads call (s :: part ++ ss) v ss :=
      call_of_atom (h ss hss) (callLoop_stop (by omega))
    have hfactor : Reads Grammar.factor (s :: part ++ ss) v ss := by
      refine factor_of_call (fun hk => ?_) hcallee (powerLoop_stop (by omega))
      rcases hs with hs | hs | hs | hs <;> simp [hs] at hk
    have hchain (level : Level) (h : Reads (Grammar.operand · level) (s :: part ++ ss) v ss) :
        Reads (Grammar.chain · level) (s :: part ++ ss) v ss := by
      refine chain_of_operand (fun _ hk => ?_) h (chainLoop_stop ?_)
      · rcases hs with hs | hs | hs | hs <;> simp [hs] at hk
      · rw [hstop]
        cases level <;> decide
    have hlogic := hchain .logic <| operand_of_chain rfl <| hchain .comparison <|
      operand_of_chain rfl <| hchain .sum <| operand_of_chain rfl <| hchain .product <|
      operand_of_factor hfactor
    refine expression_of_chain htag (fun hk => ?_) hlogic
    rcases hs with hs | hs | hs | hs <;> simp [hs] at hk

end Spells

end Grammar

end BasicScript
