import BasicScript.Proofs.Grammar.Parsing
import Mathlib.Data.List.Chain

/-! # Reading one token at a time

Every reader of the grammar is made of looks at the tokens in front and of moves over one token, so
the cursors that a reading passes can be listed. Their places in the token list go up from the first
one by one and never past its first end of input. -/

namespace BasicScript

namespace Token

/-- A token list with the end of input it may lack. -/
def closed (ts : List Token) : List Token :=
  if ts.getLast?.map Token.kind = some .endOfInput then ts
  else ts ++ [⟨.endOfInput, none, (ts.getLast?.map Token.span).getD default⟩]

/-- The place of the first end of input. -/
def endIndex (ts : List Token) : Nat :=
  ts.findIdx (·.kind = .endOfInput)

variable {ts : List Token}

theorem takeWhile_eq_take_endIndex (ts : List Token) :
    ts.takeWhile (·.kind != .endOfInput) = ts.take (endIndex ts) := by
  rw [List.takeWhile_eq_take_findIdx_not, endIndex]
  congr 2
  funext t
  by_cases h : t.kind = .endOfInput <;> simp [h]

theorem endIndex_le_length (ts : List Token) : endIndex ts ≤ ts.length :=
  List.findIdx_le_length

theorem getElem?_closed_of_lt {i : Nat} (h : i < ts.length) : (closed ts)[i]? = ts[i]? := by
  unfold closed
  split
  · rfl
  · exact List.getElem?_append_left h

theorem getElem?_closed_endIndex (ts : List Token) :
    (closed ts)[endIndex ts]? = some (Cursor.finishOf ts) := by
  unfold Cursor.finishOf
  cases hfind : ts.find? (·.kind = .endOfInput) with
  | some t =>
      have hmem : ∃ u ∈ ts, (decide (u.kind = .endOfInput)) = true :=
        ⟨t, List.mem_of_find?_eq_some hfind, by simpa using List.find?_some hfind⟩
      have hlt : endIndex ts < ts.length := List.findIdx_lt_length.mpr hmem
      rw [getElem?_closed_of_lt hlt, Option.getD_some, ← hfind]
      exact List.find?_eq_getElem?_findIdx.symm
  | none =>
      have hnone : ∀ u ∈ ts, u.kind ≠ .endOfInput := by
        simpa using List.find?_eq_none.mp hfind
      have hlast : ts.getLast?.map Token.kind ≠ some .endOfInput := by
        intro h
        obtain ⟨u, hu, hkind⟩ := Option.map_eq_some_iff.mp h
        exact hnone u (List.mem_of_getLast? hu) hkind
      have hend : endIndex ts = ts.length :=
        List.findIdx_eq_length_of_false fun u hu => by simpa using hnone u hu
      rw [closed, if_neg hlast, hend, Option.getD_none]
      simp

end Token

namespace Cursor

variable {ts : List Token} {c c' : Cursor} {i : Nat}

/-- `c` is the cursor in front of the token of place `i` in a token list, and that place is not
behind its first end of input. -/
structure Stands (ts : List Token) (c : Cursor) (i : Nat) : Prop where
  finish : c.finish = finishOf ts
  rest : c.rest = (ts.take (Token.endIndex ts)).drop i
  le : i ≤ Token.endIndex ts

theorem stands_ofTokens (ts : List Token) : (ofTokens ts).Stands ts 0 :=
  ⟨rfl, Token.takeWhile_eq_take_endIndex ts, Nat.zero_le _⟩

namespace Stands

theorem length_rest (h : c.Stands ts i) : i + c.rest.length = Token.endIndex ts := by
  have hle := h.le
  have hlen := Token.endIndex_le_length ts
  rw [h.rest, List.length_drop, List.length_take]
  omega

/-- The place of a cursor is a place of the list, and its token the one the cursor is in front
of. -/
theorem getElem? (h : c.Stands ts i) : (Token.closed ts)[i]? = some c.peek := by
  cases hrest : c.rest with
  | nil =>
      have hi : i = Token.endIndex ts := by
        simpa [hrest] using h.length_rest
      rw [hi, Token.getElem?_closed_endIndex, peek_of_rest_nil hrest, h.finish]
  | cons t r =>
      have hlt : i < Token.endIndex ts := by
        have hlen := h.length_rest
        simp only [hrest, List.length_cons] at hlen
        omega
      have hget : ((ts.take (Token.endIndex ts)).drop i)[0]? = some t := by
        rw [← h.rest, hrest, List.getElem?_cons_zero]
      rw [Token.getElem?_closed_of_lt (Nat.lt_of_lt_of_le hlt (Token.endIndex_le_length ts)),
        peek_of_rest_cons hrest, ← hget, List.getElem?_drop, Nat.add_zero,
        List.getElem?_take_of_lt hlt]

/-- A cursor that has moved on stands at a later place. -/
theorem of_reaches {d : Nat} (h : c.Stands ts i) (hc : c.Reaches d c') :
    ∃ j, i + d ≤ j ∧ c'.Stands ts j := by
  obtain ⟨hfinish, read, hread, hd⟩ := hc
  refine ⟨i + read.length, by omega, hfinish.trans h.finish, ?_, ?_⟩
  · rw [← List.drop_drop, ← h.rest, hread, List.drop_left]
  · have hlen := h.length_rest
    simp only [hread, List.length_append] at hlen
    omega

theorem advance (h : c.Stands ts i) :
    ∃ j, (j = i ∨ j = i + 1) ∧ c.advance.Stands ts j := by
  cases hrest : c.rest with
  | nil => exact ⟨i, .inl rfl, by rwa [advance_of_rest_nil hrest]⟩
  | cons t r =>
      have hlen := h.length_rest
      simp only [hrest, List.length_cons] at hlen
      rw [advance_of_rest_cons hrest]
      refine ⟨i + 1, .inr rfl, h.finish, ?_, by omega⟩
      rw [← List.drop_drop, ← h.rest, hrest, List.drop_one, List.tail_cons]

theorem eq_endIndex (h : c.Stands ts i) (hkind : c.peek.kind = .endOfInput) :
    i = Token.endIndex ts := by
  have hge : ¬ i < Token.endIndex ts := by
    intro hlt
    have hlen := Token.endIndex_le_length ts
    have hget := h.getElem?
    rw [Token.getElem?_closed_of_lt (by omega), List.getElem?_eq_getElem (by omega),
      Option.some.injEq] at hget
    have hnot := List.not_of_lt_findIdx hlt
    rw [hget, hkind] at hnot
    exact absurd hnot (by decide)
  exact Nat.le_antisymm h.le (Nat.le_of_not_lt hge)

end Stands

end Cursor

namespace Grammar

/-- Carried out step by step, a reader at `c` passes the cursors `cs`, one for each move over a
token, and comes to an outcome. -/
inductive Passes :
    {α : Type} → Reader α → Cursor → List Cursor → EStateM.Result Stop Cursor α → Prop where
  | look {α : Type} (f : Cursor → α) (c : Cursor) :
      Passes (fun c => .ok (f c) c) c [] (.ok (f c) c)
  | stop {α : Type} (e : Cursor → Stop) (c : Cursor) :
      Passes (fun c => .error (e c) c : Reader α) c [] (.error (e c) c)
  | move (c : Cursor) : Passes next c [c.advance] (.ok c.peek c.advance)
  | bind {α β : Type} {r : Reader α} {f : α → Reader β} {c c' : Cursor} {cs cs' : List Cursor}
      {a : α} {res : EStateM.Result Stop Cursor β} :
      Passes r c cs (.ok a c') → Passes (f a) c' cs' res → Passes (r >>= f) c (cs ++ cs') res
  | cut {α β : Type} {r : Reader α} (f : α → Reader β) {c c' : Cursor} {cs : List Cursor}
      {e : Stop} :
      Passes r c cs (.error e c') → Passes (r >>= f) c cs (.error e c')

/-- The cursor an outcome leaves. -/
def cursorOf {α : Type} : EStateM.Result Stop Cursor α → Cursor
  | .ok _ c => c
  | .error _ c => c

namespace Passes

variable {α β : Type} {r : Reader α} {c : Cursor} {cs : List Cursor}
  {res : EStateM.Result Stop Cursor α}

/-- What is carried out step by step is what the reader does. -/
theorem eq (h : Passes r c cs res) : r c = res := by
  induction h with
  | look => rfl
  | stop => rfl
  | move => rfl
  | bind _ _ ihr ihf => rw [bind_of_ok ihr, ihf]
  | cut f _ ih => exact bind_of_error ih

/-- Each cursor that is passed is one move behind the last, and the outcome leaves the last. -/
theorem places (h : Passes r c cs res) {ts : List Token} {i : Nat} (hc : c.Stands ts i) :
    ∃ is : List Nat, (i :: is).IsChain (fun i j => j = i ∨ j = i + 1) ∧
      List.Forall₂ (·.Stands ts ·) cs is ∧ (cursorOf res).Stands ts ((i :: is).getLast (by simp)) := by
  induction h generalizing i with
  | look => exact ⟨[], .singleton i, .nil, hc⟩
  | stop => exact ⟨[], .singleton i, .nil, hc⟩
  | move c =>
      obtain ⟨j, hj, hstands⟩ := hc.advance
      exact ⟨[j], .cons_cons hj (.singleton j), .cons hstands .nil, hstands⟩
  | bind _ _ ihr ihf =>
      obtain ⟨is, hchain, hall, hlast⟩ := ihr hc
      obtain ⟨js, hchain', hall', hlast'⟩ := ihf hlast
      refine ⟨is ++ js, ?_, List.rel_append hall hall', ?_⟩
      · have hsplit := List.dropLast_append_getLast (List.cons_ne_nil i is)
        rw [← List.cons_append, ← hsplit, List.append_assoc, List.singleton_append]
        exact List.isChain_split.mpr ⟨by rwa [hsplit], hchain'⟩
      · convert hlast' using 1
        cases js with
        | nil => simp
        | cons j js => simp [List.getLast_cons]
  | cut f _ ih => exact ih hc

end Passes

/-- At `c` a reader can be carried out step by step. -/
def Stepwise {α : Type} (r : Reader α) (c : Cursor) : Prop :=
  ∃ cs, Passes r c cs (r c)

namespace Stepwise

variable {α β : Type} {r : Reader α} {f : α → Reader β} {c : Cursor}

theorem pure (a : α) : Stepwise (pure a : Reader α) c :=
  ⟨[], .look (fun _ => a) c⟩

theorem throw (e : Stop) : Stepwise (throw e : Reader α) c :=
  ⟨[], .stop (fun _ => e) c⟩

theorem fail (f : GrammarFault) : Stepwise (fail f : Reader α) c :=
  ⟨[], .stop (fun c => .fault (f.diagnostic c.peek.span)) c⟩

theorem failAt (f : GrammarFault) (s : Span) : Stepwise (failAt f s : Reader α) c :=
  ⟨[], .stop (fun _ => .fault (f.diagnostic s)) c⟩

theorem peek : Stepwise Grammar.peek c :=
  ⟨[], .look Cursor.peek c⟩

theorem peekKind : Stepwise Grammar.peekKind c :=
  ⟨[], .look (fun c => c.peek.kind) c⟩

theorem get : Stepwise (MonadState.get : Reader Cursor) c :=
  ⟨[], .look id c⟩

theorem spanFrom (s : Span) : Stepwise (Grammar.spanFrom s) c :=
  ⟨[], .look (fun c => s.through c.before) c⟩

theorem next : Stepwise Grammar.next c :=
  ⟨[c.advance], .move c⟩

theorem bind_of_eq {a : α} {c' : Cursor} (h : Stepwise r c) (heq : r c = .ok a c')
    (hf : Stepwise (f a) c') : Stepwise (r >>= f) c := by
  obtain ⟨cs, hr⟩ := h
  obtain ⟨cs', ha⟩ := hf
  rw [heq] at hr
  rw [Stepwise, bind_of_ok heq]
  exact ⟨cs ++ cs', .bind hr ha⟩

theorem bind (h : Stepwise r c) (hf : ∀ a c, Stepwise (f a) c) : Stepwise (r >>= f) c := by
  cases heq : r c with
  | ok a c' => exact h.bind_of_eq heq (hf a c')
  | error e c' =>
      obtain ⟨cs, hr⟩ := h
      rw [heq] at hr
      rw [Stepwise, bind_of_error heq]
      exact ⟨cs, .cut f hr⟩

/-- What follows a look at the next token may depend on it. -/
theorem peekKind_at {f : TokenKind → Reader α} (h : Stepwise (f c.peek.kind) c) :
    Stepwise (Grammar.peekKind >>= f) c :=
  bind_of_eq peekKind rfl h

theorem next_at {f : Token → Reader α} (h : Stepwise (f c.peek) c.advance) :
    Stepwise (Grammar.next >>= f) c :=
  bind_of_eq next rfl h

theorem accept (kind : TokenKind) : Stepwise (Grammar.accept kind) c := by
  have heq : Grammar.accept kind = (do
      if (← Grammar.peekKind) = kind then
        let _ ← Grammar.next
        return true
      else return false) := by
    funext c
    rw [peekKind_bind]
    unfold Grammar.accept
    split <;> rfl
  rw [heq]
  refine peekKind_at ?_
  split
  · exact next_at (.pure true)
  · exact .pure false

theorem expect (kind : TokenKind) (fault : GrammarFault) :
    Stepwise (Grammar.expect kind fault) c := by
  have heq : Grammar.expect kind fault = (do
      if (← Grammar.peekKind) = kind then Grammar.next else Grammar.fail fault) := by
    funext c
    rw [peekKind_bind]
    unfold Grammar.expect
    split <;> rfl
  rw [heq]
  refine peekKind_at ?_
  split
  · exact .next
  · exact .fail fault

/-- Newlines are skipped one by one. -/
theorem skipNewlines (c : Cursor) : Stepwise Grammar.skipNewlines c := by
  have heq : Grammar.skipNewlines = (do
      if (← Grammar.peekKind) = .newline then
        let _ ← Grammar.next
        Grammar.skipNewlines
      else return ()) := by
    funext c
    rw [peekKind_bind]
    split
    · rename_i h
      exact congrArg (EStateM.Result.ok ()) (Cursor.behindNewlines_advance h).symm
    · rename_i h
      exact congrArg (EStateM.Result.ok ()) (Cursor.behindNewlines_of_kind_ne h)
  induction hlen : c.rest.length using Nat.strongRecOn generalizing c with
  | _ k ih =>
      rw [heq]
      refine peekKind_at ?_
      split
      · rename_i h
        have hlt := (Cursor.Reaches.advance_of_kind (c := c) (by simp [h])).length_le
        exact next_at (ih _ (by omega) c.advance rfl)
      · exact .pure ()

end Stepwise

/-- With fuel `n` every function of the grammar can be carried out step by step. -/
structure Stepping (n : Nat) : Prop where
  statements : ∀ c, Stepwise (statements n) c
  statementsLoop : ∀ done c, Stepwise (statementsLoop n done) c
  statement : ∀ c, Stepwise (statement n) c
  expression : ∀ c, Stepwise (expression n) c
  declaration : ∀ tag c, Stepwise (declaration n tag) c
  annotated : ∀ c, Stepwise (annotated n) c
  chain : ∀ level c, Stepwise (chain n level) c
  chainLoop : ∀ level left c, Stepwise (chainLoop n level left) c
  operand : ∀ level c, Stepwise (operand n level) c
  factor : ∀ c, Stepwise (factor n) c
  powerLoop : ∀ base c, Stepwise (powerLoop n base) c
  call : ∀ c, Stepwise (call n) c
  callLoop : ∀ callee c, Stepwise (callLoop n callee) c
  items : ∀ close c, Stepwise (items n close) c
  itemsLoop : ∀ done c, Stepwise (itemsLoop n done) c
  atom : ∀ c, Stepwise (atom n) c
  choice : ∀ c, Stepwise (choice n) c
  armsLoop : ∀ done c, Stepwise (armsLoop n done) c
  moreArms : ∀ done c, Stepwise (moreArms n done) c
  branch : ∀ c, Stepwise (branch n) c
  forLoop : ∀ c, Stepwise (forLoop n) c
  whileLoop : ∀ c, Stepwise (whileLoop n) c
  function : ∀ c, Stepwise (function n) c

theorem stepping_zero : Stepping 0 := by
  constructor <;> intros <;> exact .throw _

variable {n : Nat}

theorem statements_stepwise (ih : Stepping n) (c : Cursor) : Stepwise (statements (n + 1)) c := by
  unfold statements
  exact .bind .peek fun _ c => .bind (ih.statementsLoop [] c) fun _ _ => .pure _

theorem statementsLoop_stepwise (ih : Stepping n) (done : List Node) (c : Cursor) :
    Stepwise (statementsLoop (n + 1) done) c := by
  unfold statementsLoop
  refine .bind (.skipNewlines c) fun _ c => .bind .peekKind fun kind c => ?_
  split
  · exact .pure _
  · refine .bind (ih.statement c) fun line c => .bind .peekKind fun kind c => ?_
    split
    · exact ih.statementsLoop _ c
    · exact .pure _

theorem statement_stepwise (ih : Stepping n) (c : Cursor) : Stepwise (statement (n + 1)) c := by
  unfold statement
  refine .bind .peekKind fun kind c => ?_
  split
  · refine .bind .next fun keyword c => .bind .peekKind fun kind c => ?_
    split
    · exact .bind (ih.expression c) fun _ _ => .pure _
    · exact .pure _
  · exact .bind .next fun _ _ => .pure _
  · exact .bind .next fun _ _ => .pure _
  · exact ih.expression c

theorem expression_stepwise (ih : Stepping n) (c : Cursor) : Stepwise (expression (n + 1)) c := by
  unfold expression
  refine .bind .peekKind fun kind c => ?_
  split
  · exact ih.declaration _ c
  · refine .bind .get fun here c => ?_
    split
    · exact ih.annotated c
    · exact ih.chain _ c

theorem declaration_stepwise (ih : Stepping n) (tag : Tag) (c : Cursor) :
    Stepwise (declaration (n + 1) tag) c := by
  unfold declaration
  exact .bind .next fun _ c => .bind (.expect _ _) fun _ c => .bind (.expect _ _) fun _ c =>
    .bind (ih.expression c) fun _ _ => .pure _

theorem annotated_stepwise (ih : Stepping n) (c : Cursor) : Stepwise (annotated (n + 1)) c := by
  unfold annotated
  refine .bind .next fun _ c => .bind .next fun _ c => .bind .next fun word c => ?_
  split
  · exact .failAt _ _
  · exact .bind (.expect _ _) fun _ c => .bind (ih.expression c) fun _ _ => .pure _

theorem chain_stepwise (ih : Stepping n) (level : Level) (c : Cursor) :
    Stepwise (chain (n + 1) level) c := by
  unfold chain
  refine .bind .peekKind fun kind c => ?_
  split
  · exact .bind .next fun _ c => .bind (ih.chain _ c) fun _ _ => .pure _
  · exact .bind (ih.operand level c) fun left c => ih.chainLoop level left c

theorem chainLoop_stepwise (ih : Stepping n) (level : Level) (left : Node) (c : Cursor) :
    Stepwise (chainLoop (n + 1) level left) c := by
  unfold chainLoop
  refine .bind .peekKind fun kind c => ?_
  split
  · exact .pure _
  · exact .bind .next fun _ c => .bind (ih.operand level c) fun right c => ih.chainLoop level _ c

theorem operand_stepwise (ih : Stepping n) (level : Level) (c : Cursor) :
    Stepwise (operand (n + 1) level) c := by
  unfold operand
  split
  · exact ih.chain _ c
  · exact ih.factor c

theorem factor_stepwise (ih : Stepping n) (c : Cursor) : Stepwise (factor (n + 1)) c := by
  unfold factor
  refine .bind .peekKind fun kind c => ?_
  split
  · exact .bind .next fun _ c => .bind (ih.factor c) fun _ _ => .pure _
  · exact .bind (ih.call c) fun base c => ih.powerLoop base c

theorem powerLoop_stepwise (ih : Stepping n) (base : Node) (c : Cursor) :
    Stepwise (powerLoop (n + 1) base) c := by
  unfold powerLoop
  refine .bind (.accept _) fun more c => ?_
  split
  · exact .bind (ih.factor c) fun _ c => ih.powerLoop _ c
  · exact .pure _

theorem call_stepwise (ih : Stepping n) (c : Cursor) : Stepwise (call (n + 1)) c := by
  unfold call
  exact .bind (ih.atom c) fun callee c => ih.callLoop callee c

theorem callLoop_stepwise (ih : Stepping n) (callee : Node) (c : Cursor) :
    Stepwise (callLoop (n + 1) callee) c := by
  unfold callLoop
  refine .bind (.accept _) fun more c => ?_
  split
  · exact .bind (ih.items _ c) fun _ c => .bind (.expect _ _) fun _ c => ih.callLoop _ c
  · exact .pure _

theorem items_stepwise (ih : Stepping n) (close : TokenKind) (c : Cursor) :
    Stepwise (items (n + 1) close) c := by
  unfold items
  refine .bind .peekKind fun kind c => ?_
  split
  · exact .pure _
  · exact ih.itemsLoop [] c

theorem itemsLoop_stepwise (ih : Stepping n) (done : List Node) (c : Cursor) :
    Stepwise (itemsLoop (n + 1) done) c := by
  unfold itemsLoop
  refine .bind (ih.expression c) fun item c => .bind (.accept _) fun more c => ?_
  split
  · exact ih.itemsLoop _ c
  · exact .pure _

theorem atom_stepwise (ih : Stepping n) (c : Cursor) : Stepwise (atom (n + 1)) c := by
  unfold atom
  refine .bind .peek fun token c => ?_
  split
  iterate 2
    refine .bind .next fun _ c => ?_
    split
    · exact .pure _
    · exact .failAt _ _
  · exact .bind .next fun _ _ => .pure _
  · exact .bind .next fun _ _ => .pure _
  · exact .bind .next fun _ c => .bind (ih.expression c) fun _ c => .bind (.expect _ _) fun _ _ =>
      .pure _
  · exact .bind .next fun _ c => .bind (ih.items _ c) fun _ c => .bind (.expect _ _) fun _ _ =>
      .pure _
  · exact ih.choice c
  · exact ih.forLoop c
  · exact ih.whileLoop c
  · exact ih.function c
  · exact .fail _

theorem choice_stepwise (ih : Stepping n) (c : Cursor) : Stepwise (choice (n + 1)) c := by
  unfold choice
  exact .bind .next fun _ c => .bind (ih.armsLoop [] c) fun _ c => .bind (.spanFrom _) fun _ _ =>
    .pure _

theorem armsLoop_stepwise (ih : Stepping n) (done : List (Arm Node)) (c : Cursor) :
    Stepwise (armsLoop (n + 1) done) c := by
  unfold armsLoop
  refine .bind (ih.expression c) fun condition c => .bind (.expect _ _) fun _ c =>
    .bind (.accept _) fun block c => ?_
  split
  · refine .bind (ih.statements c) fun body c => .bind (.accept _) fun ended c => ?_
    split
    · exact .pure _
    · refine .bind .peekKind fun kind c => ?_
      split
      · exact ih.moreArms _ c
      · exact ih.moreArms _ c
      · exact .fail _
  · exact .bind (ih.statement c) fun body c => ih.moreArms _ c

theorem moreArms_stepwise (ih : Stepping n) (done : List (Arm Node)) (c : Cursor) :
    Stepwise (moreArms (n + 1) done) c := by
  unfold moreArms
  refine .bind (.accept _) fun again c => ?_
  split
  · exact ih.armsLoop done c
  · refine .bind (.accept _) fun last c => ?_
    split
    · exact .bind (ih.branch c) fun _ _ => .pure _
    · exact .pure _

theorem branch_stepwise (ih : Stepping n) (c : Cursor) : Stepwise (branch (n + 1)) c := by
  unfold branch
  refine .bind (.accept _) fun block c => ?_
  split
  · exact .bind (ih.statements c) fun _ c => .bind (.expect _ _) fun _ _ => .pure _
  · exact .bind (ih.statement c) fun _ _ => .pure _

theorem forLoop_stepwise (ih : Stepping n) (c : Cursor) : Stepwise (forLoop (n + 1)) c := by
  unfold forLoop
  refine .bind .next fun keyword c => .bind (.expect _ _) fun name c =>
    .bind (.expect _ _) fun _ c => .bind (ih.expression c) fun first c =>
    .bind (.expect _ _) fun _ c => .bind (ih.expression c) fun last c =>
    .bind ?_ fun step c => .bind (.expect _ _) fun _ c =>
    .bind (ih.branch c) fun body c => .bind (.spanFrom _) fun _ _ => .pure _
  refine .bind (.accept _) fun more c => ?_
  split
  · exact .bind (ih.expression c) fun _ _ => .pure _
  · exact .pure _

theorem whileLoop_stepwise (ih : Stepping n) (c : Cursor) : Stepwise (whileLoop (n + 1)) c := by
  unfold whileLoop
  exact .bind .next fun _ c => .bind (ih.expression c) fun _ c => .bind (.expect _ _) fun _ c =>
    .bind (ih.branch c) fun _ c => .bind (.spanFrom _) fun _ _ => .pure _

theorem paramsLoop_stepwise (done : List String) (n : Nat) (c : Cursor) :
    Stepwise (paramsLoop done n) c := by
  induction n generalizing done c with
  | zero => exact .throw _
  | succ n ih =>
      unfold paramsLoop
      refine .bind (.accept _) fun more c => ?_
      split
      · exact .bind (.expect _ _) fun _ c => ih _ c
      · exact .pure _

theorem params_stepwise (n : Nat) (c : Cursor) : Stepwise (params n) c := by
  unfold params
  refine .bind .peekKind fun kind c => ?_
  split
  · exact .bind .next fun _ c => .bind (paramsLoop_stepwise _ n c) fun _ c =>
      .bind (.expect _ _) fun _ _ => .pure _
  · exact .bind (.expect _ _) fun _ _ => .pure _

theorem function_stepwise (ih : Stepping n) (c : Cursor) : Stepwise (function (n + 1)) c := by
  unfold function
  refine .bind .next fun keyword c => .bind ?_ fun name c => .bind (.expect _ _) fun _ c =>
    .bind (params_stepwise n c) fun params c => .bind (.accept _) fun arrow c => ?_
  · refine .bind .peekKind fun kind c => ?_
    split
    · exact .bind .next fun _ _ => .pure _
    · exact .pure _
  · split
    · exact .bind (ih.expression c) fun _ _ => .pure _
    · exact .bind (.expect _ _) fun _ c => .bind (ih.statements c) fun _ c =>
        .bind (.expect _ _) fun _ c => .bind (.spanFrom _) fun _ _ => .pure _

theorem stepping (n : Nat) : Stepping n := by
  induction n with
  | zero => exact stepping_zero
  | succ n ih =>
      exact {
        statements := statements_stepwise ih
        statementsLoop := statementsLoop_stepwise ih
        statement := statement_stepwise ih
        expression := expression_stepwise ih
        declaration := declaration_stepwise ih
        annotated := annotated_stepwise ih
        chain := chain_stepwise ih
        chainLoop := chainLoop_stepwise ih
        operand := operand_stepwise ih
        factor := factor_stepwise ih
        powerLoop := powerLoop_stepwise ih
        call := call_stepwise ih
        callLoop := callLoop_stepwise ih
        items := items_stepwise ih
        itemsLoop := itemsLoop_stepwise ih
        atom := atom_stepwise ih
        choice := choice_stepwise ih
        armsLoop := armsLoop_stepwise ih
        moreArms := moreArms_stepwise ih
        branch := branch_stepwise ih
        forLoop := forLoop_stepwise ih
        whileLoop := whileLoop_stepwise ih
        function := function_stepwise ih }

theorem program_stepwise (n : Nat) (c : Cursor) : Stepwise (program n) c := by
  unfold program
  refine .bind ((stepping n).statements c) fun lines c => .bind .peekKind fun kind c => ?_
  split
  · exact .pure _
  · exact .fail _

/-! ## Bounds -/

/-- The readers that yield an expression or a statement. -/
inductive ReadsNode (n : Nat) : Reader Node → Prop where
  | statement : ReadsNode n (statement n)
  | expression : ReadsNode n (expression n)
  | declaration (tag : Tag) : ReadsNode n (declaration n tag)
  | annotated : ReadsNode n (annotated n)
  | chain (level : Level) : ReadsNode n (chain n level)
  | operand (level : Level) : ReadsNode n (operand n level)
  | factor : ReadsNode n (factor n)
  | power : ReadsNode n (call n >>= powerLoop n)
  | call : ReadsNode n (call n)
  | atom : ReadsNode n (atom n)
  | choice : ReadsNode n (choice n)
  | forLoop : ReadsNode n (forLoop n)
  | whileLoop : ReadsNode n (whileLoop n)
  | function : ReadsNode n (function n)

theorem ReadsNode.advances {r : Reader Node} (h : ReadsNode n r) (c : Cursor) :
    Advances 1 r c := by
  have hp := progress n
  cases h with
  | statement => exact hp.statement c
  | expression => exact hp.expression c
  | declaration tag => exact hp.declaration tag c
  | annotated => exact hp.annotated c
  | chain level => exact hp.chain level c
  | operand level => exact hp.operand level c
  | factor => exact hp.factor c
  | power => exact .bind_first (hp.call c) hp.powerLoop
  | call => exact hp.call c
  | atom => exact hp.atom c
  | choice => exact hp.choice c
  | forLoop => exact hp.forLoop c
  | whileLoop => exact hp.whileLoop c
  | function => exact hp.function c

/-- What is read as a program is read up to the end of input. -/
theorem kind_of_program {c c' : Cursor} {x : Node} (h : program n c = .ok x c') :
    c'.peek.kind = .endOfInput := by
  unfold program at h
  obtain ⟨lines, c₁, -, h⟩ := ok_of_bind h
  rw [peekKind_bind] at h
  split at h
  · rename_i hkind
    cases h
    exact hkind
  · cases h

/-- The reading of any token list ends, and within the list: it goes from token to token, each time
to the next one, up to the first end of input at most, and all the way if there is a program. What
yields an expression or a statement has moved on. -/
theorem program_stays_within (ts : List Token) :
    (∃ res, (∀ n, fuelFor ts ≤ n → program n (.ofTokens ts) = res) ∧ ∀ c, res ≠ .error .fuel c) ∧
    (∀ n, ∃ cs, Passes (program n) (.ofTokens ts) cs (program n (.ofTokens ts))) ∧
    (∀ n cs res, Passes (program n) (.ofTokens ts) cs res →
      ∃ is, List.Forall₂ (fun c i => c.Stands ts i ∧ (Token.closed ts)[i]? = some c.peek)
          (.ofTokens ts :: cs) (0 :: is) ∧
        (0 :: is).IsChain fun i j => j = i ∨ j = i + 1) ∧
    (∀ n r, ReadsNode n r → ∀ c i x c', c.Stands ts i → r c = .ok x c' →
      ∃ j, i < j ∧ c'.Stands ts j) ∧
    (∀ n x c, program n (.ofTokens ts) = .ok x c →
      c.Stands ts (Token.endIndex ts) ∧ c.peek.kind = .endOfInput) := by
  refine ⟨⟨_, fun n hn => (program_same ts n hn).1, (program_same ts _ (Nat.le_refl _)).2⟩,
    fun n => program_stepwise n _, fun n cs res h => ?_, fun n r hr c i x c' hc hx => ?_,
    fun n x c hx => ?_⟩
  · have hstart := Cursor.stands_ofTokens ts
    obtain ⟨is, hchain, hall, -⟩ := h.places hstart
    refine ⟨is, ?_, hchain⟩
    exact .cons ⟨hstart, hstart.getElem?⟩ (hall.imp fun c i hc => ⟨hc, hc.getElem?⟩)
  · obtain ⟨j, hj, hc'⟩ := hc.of_reaches (hr.advances c x c' hx)
    exact ⟨j, by omega, hc'⟩
  · obtain ⟨cs, h⟩ := program_stepwise n (.ofTokens ts)
    obtain ⟨is, -, -, hlast⟩ := h.places (Cursor.stands_ofTokens ts)
    have hkind := kind_of_program hx
    rw [hx] at hlast
    exact ⟨hlast.eq_endIndex hkind ▸ hlast, hkind⟩

end Grammar

end BasicScript
