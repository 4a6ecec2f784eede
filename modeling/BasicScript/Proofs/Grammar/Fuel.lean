import BasicScript.Proofs.Grammar.Progress

/-! # The fuel of reading

With as much fuel as the tokens left ask for, reading does not run out of it and does not depend on
how much more there is. A token gives fuel for twenty calls, and the longest chain of calls that
consumes nothing is shorter than that. -/

namespace BasicScript.Grammar

variable {α β : Type} {c : Cursor}

/-- Two readers do the same at `c`, and do not run out of fuel. -/
def Same (r r' : Reader α) (c : Cursor) : Prop :=
  r c = r' c ∧ ∀ c', r c ≠ .error .fuel c'

namespace Same

theorem pure (a : α) : Same (pure a) (pure a) c :=
  ⟨rfl, fun _ h => by cases h⟩

theorem fail (f : GrammarFault) : Same (fail f : Reader α) (fail f) c :=
  ⟨rfl, fun _ h => by cases h⟩

theorem failAt (f : GrammarFault) (s : Span) : Same (failAt f s : Reader α) (failAt f s) c :=
  ⟨rfl, fun _ h => by cases h⟩

/-- What follows a step starts where the step ends. -/
theorem bind {d : Nat} {r r' : Reader α} {f f' : α → Reader β} (h : Same r r' c)
    (hd : Advances d r c)
    (hf : ∀ a c', c'.rest.length + d ≤ c.rest.length → Same (f a) (f' a) c') :
    Same (r >>= f) (r' >>= f') c := by
  cases hr : r c with
  | ok a c' =>
      have hr' : r' c = .ok a c' := by rw [← h.1, hr]
      obtain ⟨heq, hfuel⟩ := hf a c' (hd a c' hr).length_le
      rw [Same, bind_of_ok hr, bind_of_ok hr']
      exact ⟨heq, hfuel⟩
  | error e c' =>
      have hr' : r' c = .error e c' := by rw [← h.1, hr]
      rw [Same, bind_of_error hr, bind_of_error hr']
      refine ⟨rfl, fun c'' he => h.2 c'' ?_⟩
      cases he
      exact hr

section Primitive

variable {f f' : Token → Reader β}

theorem peekKind_bind {f f' : TokenKind → Reader β}
    (h : Same (f c.peek.kind) (f' c.peek.kind) c) :
    Same (peekKind >>= f) (peekKind >>= f') c :=
  h

theorem peek_bind (h : Same (f c.peek) (f' c.peek) c) : Same (peek >>= f) (peek >>= f') c :=
  h

theorem get_bind {f f' : Cursor → Reader β} (h : Same (f c) (f' c) c) :
    Same ((get : Reader Cursor) >>= f) ((get : Reader Cursor) >>= f') c :=
  h

theorem spanFrom_bind {s : Span} {f f' : Span → Reader β} (h : ∀ s, Same (f s) (f' s) c) :
    Same (spanFrom s >>= f) (spanFrom s >>= f') c :=
  h _

theorem next_bind
    (h : ∀ t c', c'.rest.length ≤ c.rest.length → Same (f t) (f' t) c') :
    Same (next >>= f) (next >>= f') c :=
  bind (d := 0) ⟨rfl, fun _ h => by cases h⟩ .next fun t c' hlen => h t c' hlen

theorem next_bind_of_kind (hk : c.peek.kind ≠ .endOfInput)
    (h : ∀ t c', c'.rest.length < c.rest.length → Same (f t) (f' t) c') :
    Same (next >>= f) (next >>= f') c :=
  bind ⟨rfl, fun _ h => by cases h⟩ (.next_of_kind hk) fun t c' hlen => h t c' hlen

theorem expect_bind {kind : TokenKind} {fault : GrammarFault} (hk : kind ≠ .endOfInput)
    (h : ∀ t c', c'.rest.length < c.rest.length → Same (f t) (f' t) c') :
    Same (expect kind fault >>= f) (expect kind fault >>= f') c := by
  refine bind ⟨rfl, fun c' he => ?_⟩ (.expect fault hk) fun t c' hlen => h t c' hlen
  unfold expect at he
  split at he <;> cases he

theorem accept_bind {kind : TokenKind} {f f' : Bool → Reader β} (hk : kind ≠ .endOfInput)
    (htrue : ∀ c', c'.rest.length < c.rest.length → Same (f true) (f' true) c')
    (hfalse : Same (f false) (f' false) c) :
    Same (accept kind >>= f) (accept kind >>= f') c := by
  rw [Same, Grammar.accept_bind, Grammar.accept_bind]
  split
  · rename_i hkind
    exact htrue _ (Cursor.Reaches.advance_of_kind (hkind ▸ hk)).length_le
  · exact hfalse

theorem skipNewlines_bind {f f' : Unit → Reader β}
    (h : ∀ c', c'.rest.length ≤ c.rest.length → Same (f ()) (f' ()) c') :
    Same (skipNewlines >>= f) (skipNewlines >>= f') c :=
  bind ⟨rfl, fun _ h => by cases h⟩ .skipNewlines fun _ c' hlen => h c' hlen

end Primitive

end Same

/-- At `c` a reader needs twenty units of fuel for each token left, and `rank` more. -/
def Within (rank : Nat) (f : Nat → Reader α) (c : Cursor) : Prop :=
  ∀ n m, 20 * c.rest.length + rank ≤ n → 20 * c.rest.length + rank ≤ m → Same (f n) (f m) c

theorem Within.intro {rank : Nat} {f : Nat → Reader α}
    (h : ∀ n m, 20 * c.rest.length + rank ≤ n → 20 * c.rest.length + rank ≤ m →
      Same (f (n + 1)) (f (m + 1)) c) : Within (rank + 1) f c := by
  intro n m hn hm
  obtain ⟨n, rfl⟩ : ∃ k, n = k + 1 := ⟨n - 1, by omega⟩
  obtain ⟨m, rfl⟩ : ∃ k, m = k + 1 := ⟨m - 1, by omega⟩
  exact h n m (by omega) (by omega)

theorem Within.weaken {rank rank' : Nat} {f : Nat → Reader α} (h : Within rank f c)
    (hrank : rank ≤ rank') : Within rank' f c :=
  fun n m hn hm => h n m (by omega) (by omega)

/-- One token consumed pays for all that a reader needs beyond the tokens left. -/
theorem Within.after {f : Nat → Reader α} {c' : Cursor} (h : Within 20 f c')
    (hlen : c'.rest.length < c.rest.length) {n m : Nat} (hn : 20 * c.rest.length ≤ n)
    (hm : 20 * c.rest.length ≤ m) : Same (f n) (f m) c' :=
  h n m (by omega) (by omega)

/-- How far a level of operators stands from the operands of the innermost one. -/
def Level.height : Level → Nat
  | .logic => 6
  | .comparison => 4
  | .sum => 2
  | .product => 0

/-- No function of the grammar needs more at `c` than the tokens left and one token more pay for. -/
structure Settled (c : Cursor) : Prop where
  statements : Within 20 statements c
  statementsLoop : ∀ done, Within 20 (statementsLoop · done) c
  statement : Within 20 statement c
  expression : Within 20 expression c
  chain : ∀ level, Within 20 (chain · level) c
  chainLoop : ∀ level left, Within 20 (chainLoop · level left) c
  operand : ∀ level, Within 20 (operand · level) c
  factor : Within 20 factor c
  powerLoop : ∀ base, Within 20 (powerLoop · base) c
  callLoop : ∀ callee, Within 20 (callLoop · callee) c
  items : ∀ close, Within 20 (items · close) c
  itemsLoop : ∀ done, Within 20 (itemsLoop · done) c
  armsLoop : ∀ done, Within 20 (armsLoop · done) c
  moreArms : ∀ done, Within 20 (moreArms · done) c
  branch : Within 20 branch c

/-- Reading is settled wherever fewer tokens are left. -/
abbrev SettledBelow (c : Cursor) : Prop :=
  ∀ c', c'.rest.length < c.rest.length → Settled c'

section

variable (ih : SettledBelow c)

include ih

theorem statementsLoop_within_of (done : List Node) (hs : ∀ c', c'.rest.length ≤ c.rest.length →
    Within 14 statement c') : Within 15 (statementsLoop · done) c := by
  refine .intro fun n m hn hm => ?_
  unfold statementsLoop
  refine .skipNewlines_bind fun c₁ h₁ => .peekKind_bind ?_
  split
  · exact .pure _
  · refine .bind (hs c₁ h₁ n m (by omega) (by omega)) ((progress n).statement c₁)
      fun line c₂ h₂ => .peekKind_bind ?_
    have hlt : c₂.rest.length < c.rest.length := by omega
    split
    · exact ((ih c₂ hlt).statementsLoop _).after hlt (by omega) (by omega)
    · exact .pure _

theorem declaration_within (tag : Tag) (hc : c.peek.kind ≠ .endOfInput) :
    Within 1 (declaration · tag) c := by
  refine .intro fun n m hn hm => ?_
  unfold declaration
  refine .next_bind_of_kind hc fun _ c₁ h₁ => .expect_bind (by decide) fun _ c₂ h₂ =>
    .expect_bind (by decide) fun _ c₃ h₃ => ?_
  have hlt : c₃.rest.length < c.rest.length := by omega
  exact .bind ((ih c₃ hlt).expression.after hlt hn hm) ((progress n).expression c₃) fun _ _ _ =>
    .pure _

theorem annotated_within (hc : c.peek.kind ≠ .endOfInput) : Within 1 annotated c := by
  refine .intro fun n m hn hm => ?_
  unfold annotated
  refine .next_bind_of_kind hc fun _ c₁ h₁ => .next_bind fun _ c₂ h₂ =>
    .next_bind fun word c₃ h₃ => ?_
  split
  · exact .failAt _ _
  · refine .expect_bind (by decide) fun _ c₄ h₄ => ?_
    have hlt : c₄.rest.length < c.rest.length := by omega
    exact .bind ((ih c₄ hlt).expression.after hlt hn hm) ((progress n).expression c₄) fun _ _ _ =>
      .pure _

theorem chainLoop_within (level : Level) (left : Node) : Within 1 (chainLoop · level left) c := by
  refine .intro fun n m hn hm => ?_
  unfold chainLoop
  refine .peekKind_bind ?_
  split
  · exact .pure _
  · rename_i op hop
    have hk : c.peek.kind ≠ .endOfInput := by
      intro h
      rw [h] at hop
      cases level <;> cases hop
    refine .next_bind_of_kind hk fun _ c₁ h₁ => ?_
    refine .bind (((ih c₁ h₁).operand level).after h₁ hn hm)
      ((progress n).operand level c₁) fun right c₂ h₂ => ?_
    have hlt : c₂.rest.length < c.rest.length := by omega
    exact ((ih c₂ hlt).chainLoop level _).after hlt hn hm

theorem powerLoop_within (base : Node) : Within 1 (powerLoop · base) c := by
  refine .intro fun n m hn hm => ?_
  unfold powerLoop
  refine .accept_bind (by decide) (fun c₁ h₁ => ?_) (.pure _)
  refine .bind ((ih c₁ h₁).factor.after h₁ hn hm) ((progress n).factor c₁) fun exponent c₂ h₂ => ?_
  have hlt : c₂.rest.length < c.rest.length := by omega
  exact ((ih c₂ hlt).powerLoop _).after hlt hn hm

theorem callLoop_within (callee : Node) : Within 1 (callLoop · callee) c := by
  refine .intro fun n m hn hm => ?_
  unfold callLoop
  refine .accept_bind (by decide) (fun c₁ h₁ => ?_) (.pure _)
  refine .bind (((ih c₁ h₁).items _).after h₁ hn hm) ((progress n).items _ c₁) fun args c₂ h₂ =>
    .expect_bind (by decide) fun _ c₃ h₃ => ?_
  have hlt : c₃.rest.length < c.rest.length := by omega
  exact ((ih c₃ hlt).callLoop _).after hlt hn hm

theorem branch_within (hs : Within 14 statement c) : Within 15 branch c := by
  refine .intro fun n m hn hm => ?_
  unfold branch
  refine .accept_bind (by decide) (fun c₁ h₁ => ?_) ?_
  · exact .bind ((ih c₁ h₁).statements.after h₁ (by omega) (by omega)) ((progress n).statements c₁)
      fun _ c₂ h₂ => .expect_bind (by decide) fun _ _ _ => .pure _
  · exact .bind (hs n m (by omega) (by omega)) ((progress n).statement c) fun _ _ _ => .pure _

theorem moreArms_within (done : List (Arm Node)) : Within 1 (moreArms · done) c := by
  refine .intro fun n m hn hm => ?_
  unfold moreArms
  refine .accept_bind (by decide) (fun c₁ h₁ => ?_) (.accept_bind (by decide) (fun c₁ h₁ => ?_) ?_)
  · exact ((ih c₁ h₁).armsLoop done).after h₁ hn hm
  · exact .bind ((ih c₁ h₁).branch.after h₁ hn hm) ((progress n).branch c₁) fun _ _ _ => .pure _
  · exact .pure _

theorem armsLoop_within_of (done : List (Arm Node)) (he : Within 13 expression c) :
    Within 14 (armsLoop · done) c := by
  refine .intro fun n m hn hm => ?_
  unfold armsLoop
  refine .bind (he n m hn hm) ((progress n).expression c) fun condition c₁ h₁ =>
    .expect_bind (by decide) fun _ c₂ h₂ => .accept_bind (by decide) (fun c₃ h₃ => ?_) ?_
  · have hlt : c₃.rest.length < c.rest.length := by omega
    refine .bind ((ih c₃ hlt).statements.after hlt (by omega) (by omega))
      ((progress n).statements c₃) fun body c₄ h₄ =>
      .accept_bind (by decide) (fun _ _ => .pure _) (.peekKind_bind ?_)
    have hlt : c₄.rest.length < c.rest.length := by omega
    split
    · exact ((ih c₄ hlt).moreArms _).after hlt (by omega) (by omega)
    · exact ((ih c₄ hlt).moreArms _).after hlt (by omega) (by omega)
    · exact .fail _
  · have hlt : c₂.rest.length < c.rest.length := by omega
    refine .bind ((ih c₂ hlt).statement.after hlt (by omega) (by omega)) ((progress n).statement c₂)
      fun body c₃ h₃ => ?_
    have hlt : c₃.rest.length < c.rest.length := by omega
    exact ((ih c₃ hlt).moreArms _).after hlt (by omega) (by omega)

theorem choice_within (hc : c.peek.kind ≠ .endOfInput) : Within 1 choice c := by
  refine .intro fun n m hn hm => ?_
  unfold choice
  refine .next_bind_of_kind hc fun keyword c₁ h₁ => ?_
  exact .bind (((ih c₁ h₁).armsLoop []).after h₁ hn hm) ((progress n).armsLoop [] c₁)
    fun _ _ _ => .spanFrom_bind fun _ => .pure _

theorem whileLoop_within (hc : c.peek.kind ≠ .endOfInput) : Within 1 whileLoop c := by
  refine .intro fun n m hn hm => ?_
  unfold whileLoop
  refine .next_bind_of_kind hc fun keyword c₁ h₁ => ?_
  refine .bind ((ih c₁ h₁).expression.after h₁ hn hm) ((progress n).expression c₁)
    fun condition c₂ h₂ => .expect_bind (by decide) fun _ c₃ h₃ => ?_
  have hlt : c₃.rest.length < c.rest.length := by omega
  exact .bind ((ih c₃ hlt).branch.after hlt hn hm) ((progress n).branch c₃) fun _ _ _ =>
    .spanFrom_bind fun _ => .pure _

theorem forLoop_within (hc : c.peek.kind ≠ .endOfInput) : Within 1 forLoop c := by
  refine .intro fun n m hn hm => ?_
  unfold forLoop
  refine .next_bind_of_kind hc fun keyword c₁ h₁ => .expect_bind (by decide) fun name c₂ h₂ =>
    .expect_bind (by decide) fun _ c₃ h₃ => ?_
  have hlt₃ : c₃.rest.length < c.rest.length := by omega
  refine .bind ((ih c₃ hlt₃).expression.after hlt₃ hn hm) ((progress n).expression c₃)
    fun first c₄ h₄ => .expect_bind (by decide) fun _ c₅ h₅ => ?_
  have hlt₅ : c₅.rest.length < c.rest.length := by omega
  refine .bind ((ih c₅ hlt₅).expression.after hlt₅ hn hm) ((progress n).expression c₅)
    fun last c₆ h₆ => .bind (d := 0) ?_ ?_ fun step c₇ h₇ =>
    .expect_bind (by decide) fun _ c₈ h₈ => ?_
  · refine .accept_bind (by decide) (fun c₇ h₇ => ?_) (.pure _)
    have hlt₇ : c₇.rest.length < c.rest.length := by omega
    exact .bind ((ih c₇ hlt₇).expression.after hlt₇ hn hm) ((progress n).expression c₇)
      fun _ _ _ => .pure _
  · refine .bind (.accept _) fun more c => ?_
    split
    · exact .bind ((progress n).expression c) fun _ _ => .pure _
    · exact .pure _
  · have hlt₈ : c₈.rest.length < c.rest.length := by omega
    exact .bind ((ih c₈ hlt₈).branch.after hlt₈ hn hm) ((progress n).branch c₈) fun _ _ _ =>
      .spanFrom_bind fun _ => .pure _

omit ih in
theorem paramsLoop_within (done : List String) (n m : Nat) (hn : c.rest.length < n)
    (hm : c.rest.length < m) : Same (paramsLoop done n) (paramsLoop done m) c := by
  induction n generalizing c done m with
  | zero => omega
  | succ n ihn =>
      obtain ⟨m, rfl⟩ : ∃ k, m = k + 1 := ⟨m - 1, by omega⟩
      unfold paramsLoop
      refine .accept_bind (by decide) (fun c₁ h₁ => .expect_bind (by decide) fun _ c₂ h₂ => ?_)
        (.pure _)
      exact ihn _ m (by omega) (by omega)

omit ih in
theorem params_within (n m : Nat) (hn : c.rest.length < n) (hm : c.rest.length < m) :
    Same (params n) (params m) c := by
  unfold params
  refine .peekKind_bind ?_
  split
  · refine .next_bind fun first c₁ h₁ => .bind (paramsLoop_within _ n m (by omega) (by omega))
      (paramsLoop_advances _ n c₁) fun _ c₂ h₂ => .expect_bind (by decide) fun _ _ _ => .pure _
  · exact .expect_bind (by decide) fun _ _ _ => .pure _

theorem function_within (hc : c.peek.kind ≠ .endOfInput) : Within 1 function c := by
  refine .intro fun n m hn hm => ?_
  unfold function
  refine .next_bind_of_kind hc fun keyword c₁ h₁ => .bind (d := 0) ?_ ?_ fun name c₂ h₂ =>
    .expect_bind (by decide) fun _ c₃ h₃ => .bind (params_within n m (by omega) (by omega))
      (params_advances n c₃) fun params c₄ h₄ => .accept_bind (by decide) (fun c₅ h₅ => ?_)
      (.expect_bind (by decide) fun _ c₅ h₅ => ?_)
  · refine .peekKind_bind ?_
    split
    · exact .next_bind fun _ _ _ => .pure _
    · exact .pure _
  · refine .bind .peekKind fun kind c => ?_
    split
    · exact .bind .next fun _ _ => .pure _
    · exact .pure _
  · have hlt : c₅.rest.length < c.rest.length := by omega
    exact .bind ((ih c₅ hlt).expression.after hlt hn hm) ((progress n).expression c₅) fun _ _ _ =>
      .pure _
  · have hlt : c₅.rest.length < c.rest.length := by omega
    exact .bind ((ih c₅ hlt).statements.after hlt hn hm) ((progress n).statements c₅)
      fun _ _ _ => .expect_bind (by decide) fun _ _ _ => .spanFrom_bind fun _ => .pure _

theorem atom_within : Within 2 atom c := by
  refine .intro fun n m hn hm => ?_
  unfold atom
  refine .peek_bind ?_
  split
  all_goals rename_i hk
  iterate 2
    refine .next_bind fun _ c₁ h₁ => ?_
    split
    · exact .pure _
    · exact .failAt _ _
  · exact .next_bind fun _ _ _ => .pure _
  · exact .next_bind fun _ _ _ => .pure _
  · refine .next_bind_of_kind (by simp [hk]) fun _ c₁ h₁ => ?_
    exact .bind ((ih c₁ h₁).expression.after h₁ (by omega) (by omega)) ((progress n).expression c₁)
      fun _ _ _ => .expect_bind (by decide) fun _ _ _ => .pure _
  · refine .next_bind_of_kind (by simp [hk]) fun _ c₁ h₁ => ?_
    exact .bind (((ih c₁ h₁).items _).after h₁ (by omega) (by omega)) ((progress n).items _ c₁)
      fun _ _ _ => .expect_bind (by decide) fun _ _ _ => .pure _
  · exact choice_within ih (by simp [hk]) n m hn hm
  · exact forLoop_within ih (by simp [hk]) n m hn hm
  · exact whileLoop_within ih (by simp [hk]) n m hn hm
  · exact function_within ih (by simp [hk]) n m hn hm
  · exact .fail _

theorem call_within : Within 3 call c := by
  refine .intro fun n m hn hm => ?_
  unfold call
  refine .bind (atom_within ih n m hn hm) ((progress n).atom c) fun callee c₁ h₁ => ?_
  have hlt : c₁.rest.length < c.rest.length := by omega
  exact ((ih c₁ hlt).callLoop callee).after hlt (by omega) (by omega)

theorem factor_within : Within 4 factor c := by
  refine .intro fun n m hn hm => ?_
  unfold factor
  refine .peekKind_bind ?_
  split
  · rename_i hk
    refine .next_bind_of_kind (by simp [hk]) fun _ c₁ h₁ => ?_
    exact .bind ((ih c₁ h₁).factor.after h₁ (by omega) (by omega)) ((progress n).factor c₁)
      fun _ _ _ => .pure _
  · refine .bind (call_within ih n m hn hm) ((progress n).call c) fun base c₁ h₁ => ?_
    have hlt : c₁.rest.length < c.rest.length := by omega
    exact ((ih c₁ hlt).powerLoop base).after hlt (by omega) (by omega)

/-- A chain whose operands are settled is settled. -/
theorem chain_within_of (level : Level) (ho : Within (5 + level.height) (operand · level) c) :
    Within (6 + level.height) (chain · level) c := by
  rw [show 6 + level.height = 5 + level.height + 1 by omega]
  refine .intro fun n m hn hm => ?_
  unfold chain
  refine .peekKind_bind ?_
  split
  · rename_i hk
    refine .next_bind_of_kind (by simp [hk.2]) fun _ c₁ h₁ => ?_
    exact .bind (((ih c₁ h₁).chain .comparison).after h₁ (by omega) (by omega))
      ((progress n).chain _ c₁) fun _ _ _ => .pure _
  · refine .bind (ho n m hn hm) ((progress n).operand level c) fun left c₁ h₁ => ?_
    have hlt : c₁.rest.length < c.rest.length := by omega
    exact ((ih c₁ hlt).chainLoop level left).after hlt (by omega) (by omega)

/-- The operands of a level are the chains of the next, down to the factors. -/
theorem operand_within (level : Level) : Within (5 + level.height) (operand · level) c := by
  have product : Within 5 (operand · .product) c :=
    .intro fun n m hn hm => factor_within ih n m hn hm
  have sum : Within 7 (operand · .sum) c :=
    .intro fun n m hn hm => chain_within_of ih .product product n m hn hm
  have comparison : Within 9 (operand · .comparison) c :=
    .intro fun n m hn hm => chain_within_of ih .sum sum n m hn hm
  cases level with
  | product => exact product
  | sum => exact sum
  | comparison => exact comparison
  | logic =>
      exact .intro fun n m hn hm => chain_within_of ih .comparison comparison n m hn hm

theorem expression_within : Within 13 expression c := by
  refine .intro fun n m hn hm => ?_
  unfold expression
  refine .peekKind_bind ?_
  split
  · rename_i tag htag
    have hk : c.peek.kind ≠ .endOfInput := by
      intro h
      rw [h] at htag
      cases htag
    exact declaration_within ih tag hk n m (by omega) (by omega)
  · refine .get_bind ?_
    split
    · rename_i hk
      exact annotated_within ih (by simp [hk.1]) n m (by omega) (by omega)
    · exact chain_within_of ih .logic (operand_within ih .logic) n m hn hm

theorem statement_within : Within 14 statement c := by
  refine .intro fun n m hn hm => ?_
  unfold statement
  refine .peekKind_bind ?_
  split
  · rename_i hk
    refine .next_bind_of_kind (by simp [hk]) fun _ c₁ h₁ => .peekKind_bind ?_
    split
    · exact .bind ((ih c₁ h₁).expression.after h₁ (by omega) (by omega))
        ((progress n).expression c₁) fun _ _ _ => .pure _
    · exact .pure _
  · exact .next_bind fun _ _ _ => .pure _
  · exact .next_bind fun _ _ _ => .pure _
  · exact expression_within ih n m hn hm

theorem itemsLoop_within (done : List Node) : Within 14 (itemsLoop · done) c := by
  refine .intro fun n m hn hm => ?_
  unfold itemsLoop
  refine .bind (expression_within ih n m hn hm) ((progress n).expression c) fun item c₁ h₁ =>
    .accept_bind (by decide) (fun c₂ h₂ => ?_) (.pure _)
  have hlt : c₂.rest.length < c.rest.length := by omega
  exact ((ih c₂ hlt).itemsLoop _).after hlt (by omega) (by omega)

theorem items_within (close : TokenKind) : Within 15 (items · close) c := by
  refine .intro fun n m hn hm => ?_
  unfold items
  refine .peekKind_bind ?_
  split
  · exact .pure _
  · exact itemsLoop_within ih [] n m hn hm

theorem statementsLoop_within (done : List Node) : Within 15 (statementsLoop · done) c := by
  refine statementsLoop_within_of ih done fun c' hlen => ?_
  exact statement_within fun c'' h => ih c'' (by omega)

theorem statements_within : Within 16 statements c := by
  refine .intro fun n m hn hm => ?_
  unfold statements
  exact .peek_bind (.bind (statementsLoop_within ih [] n m hn hm) ((progress n).statementsLoop [] c)
    fun _ _ _ => .pure _)

/-- From fewer tokens to more; each rank below is one more than that of what is called first. -/
theorem settled_of_below : Settled c where
  statements := (statements_within ih).weaken (by decide)
  statementsLoop done := (statementsLoop_within ih done).weaken (by decide)
  statement := (statement_within ih).weaken (by decide)
  expression := (expression_within ih).weaken (by decide)
  chain level :=
    (chain_within_of ih level (operand_within ih level)).weaken (by cases level <;> decide)
  chainLoop level left := (chainLoop_within ih level left).weaken (by decide)
  operand level := (operand_within ih level).weaken (by cases level <;> decide)
  factor := (factor_within ih).weaken (by decide)
  powerLoop base := (powerLoop_within ih base).weaken (by decide)
  callLoop callee := (callLoop_within ih callee).weaken (by decide)
  items close := (items_within ih close).weaken (by decide)
  itemsLoop done := (itemsLoop_within ih done).weaken (by decide)
  armsLoop done := (armsLoop_within_of ih done (expression_within ih)).weaken (by decide)
  moreArms done := (moreArms_within ih done).weaken (by decide)
  branch := (branch_within ih (statement_within ih)).weaken (by decide)

end

theorem settled (c : Cursor) : Settled c := by
  induction hlen : c.rest.length using Nat.strongRecOn generalizing c with
  | _ k ih => exact settled_of_below fun c' h => ih _ (hlen ▸ h) c' rfl

/-- With the fuel for its tokens, or more, a program is read without running out of fuel, and in
one way only. -/
theorem program_same (ts : List Token) (n : Nat) (hn : fuelFor ts ≤ n) :
    Same (program n) (program (fuelFor ts)) (.ofTokens ts) := by
  have hlen : (Cursor.ofTokens ts).rest.length ≤ ts.length :=
    (List.takeWhile_prefix _).length_le
  unfold program
  unfold fuelFor at hn ⊢
  refine .bind ((settled _).statements _ _ (by omega) (by omega)) ((progress n).statements _)
    fun lines c h => .peekKind_bind ?_
  split
  · exact .pure _
  · exact .fail _

end BasicScript.Grammar
