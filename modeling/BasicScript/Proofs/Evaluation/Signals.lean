import BasicScript.Proofs.Evaluation.Failing
import BasicScript.Proofs.Program.Parts
import BasicScript.Session
import Mathlib.Logic.Relation

/-! # Where signals come from

A `RETURN` interrupts the nodes that it stands in, up to the function that they make up, and a
`BREAK` or `CONTINUE` up to the loop. No other signal comes out of the evaluation of a node, and
none out of a call. -/

namespace BasicScript

namespace Node

/-- The parts that are evaluated with the node: all but the body of a function. -/
def ownParts : Node → List Node
  | function .. => []
  | x => x.parts

/-- The parts whose loop signals leave the node: those outside the body of a loop. -/
def openParts : Node → List Node
  | function .. => []
  | forLoop _ first last step _ _ => [first, last] ++ step.toList
  | whileLoop c _ _ => [c]
  | x => x.parts

/-- `y` stands in `x` and not in a function there. -/
def Owns (x y : Node) : Prop :=
  Relation.ReflTransGen (fun x y => y ∈ x.ownParts) x y

/-- `y` stands in `x` and neither in a function nor in the body of a loop there. -/
def Exposes (x y : Node) : Prop :=
  Relation.ReflTransGen (fun x y => y ∈ x.openParts) x y

theorem ownParts_of_openParts {x y : Node} (h : y ∈ x.openParts) : y ∈ x.ownParts := by
  cases x with
  | function name params body arrow s => cases h
  | forLoop a first last step b s => exact List.mem_append_left [b.body] h
  | whileLoop c b s => exact List.mem_append_left [b.body] h
  | _ => exact h

theorem parts_of_openParts {x y : Node} (h : y ∈ x.openParts) : y ∈ x.parts := by
  have hown := ownParts_of_openParts h
  cases x with
  | function name params body arrow s => cases h
  | _ => exact hown

end Node

/-- An interruption of `x` that comes from where it is written: a signal stands in `x`, and in no
function there, nor, if it is one of a loop, in the body of one. -/
def Interrupt.StandsIn (x : Node) : Interrupt → Prop
  | .halt _ => True
  | .returned _ => ∃ v s, x.Owns (.returnWith v s)
  | .continued s => x.Exposes (.continueLoop s)
  | .broken s => x.Exposes (.breakLoop s)

namespace Interrupt.StandsIn

variable {x y : Node} {i : Interrupt}

theorem of_part (h : i.StandsIn y) (hy : y ∈ x.openParts) : i.StandsIn x := by
  cases i with
  | halt _ => trivial
  | returned v =>
      obtain ⟨v, s, h⟩ := h
      exact ⟨v, s, .head (Node.ownParts_of_openParts hy) h⟩
  | continued s => exact .head hy h
  | broken s => exact .head hy h

end Interrupt.StandsIn

variable {H α β : Type}

/-- Whatever interrupts an evaluation comes from where it is written in `x`. -/
abbrev Eval.StaysIn (x : Node) (r : Eval H α) : Prop :=
  Ensures (fun _ => True) (fun _ => True) (Interrupt.StandsIn x) r

namespace Eval

variable {x y : Node}

theorem StaysIn.of_part {r : Eval H α} (h : r.StaysIn y) (hy : y ∈ x.openParts) : r.StaysIn x := by
  intro m hm
  have hends := h m hm
  generalize r m = res at hends
  cases res with
  | ok a m' => exact hends
  | error i m' => exact ⟨hends.1, hends.2.of_part hy⟩

/-- The loop signals of the body of a loop do not leave it. -/
theorem StaysIn.turn {r : Eval H Value} (h : r.StaysIn y) (hy : y ∈ x.ownParts) :
    (Eval.turn r).StaysIn x := by
  intro m hm
  have hends := h m hm
  unfold Eval.turn
  generalize r m = res at hends
  match res, hends with
  | .ok v m', _ => exact ⟨trivial, trivial⟩
  | .error (.continued s) m', _ => exact ⟨trivial, trivial⟩
  | .error (.broken s) m', _ => exact ⟨trivial, trivial⟩
  | .error (.halt h) m', _ => exact ⟨trivial, trivial⟩
  | .error (.returned v) m', hends =>
      obtain ⟨-, v, s, h⟩ := hends
      exact ⟨trivial, v, s, .head hy h⟩

theorem pure_staysIn (a : α) : (pure a : Eval H α).StaysIn x :=
  .pure trivial

theorem fail_staysIn (d : Diagnostic) : (fail d : Eval H α).StaysIn x :=
  .throw trivial

theorem inspect_staysIn (f : Store → α) : (inspect f : Eval H α).StaysIn x :=
  fun _ _ => ⟨trivial, trivial⟩

theorem operation_staysIn (o : Operation α) : (operation o : Eval H α).StaysIn x := by
  intro m _
  unfold operation
  split <;> exact ⟨trivial, trivial⟩

/-- No signal crosses a call. -/
theorem ofRun_staysIn (r : Run H α) : (ofRun r).StaysIn x := by
  intro m _
  unfold ofRun
  split <;> exact ⟨trivial, trivial⟩

end Eval

/-! ## Nodes -/

namespace Visit

open Eval

variable {self : Visit H} {env : Env} {x : Node}

theorem newList_staysIn (span : Span) (values : List Value) :
    (newList env span values : Eval H Value).StaysIn x :=
  fun _ _ => ⟨trivial, trivial⟩

theorem bindName_staysIn (name : String) (v : Value) :
    (bindName env name v : Eval H Unit).StaysIn x :=
  fun _ _ => ⟨trivial, trivial⟩

theorem ident_staysIn (name : String) (span : Span) :
    (ident env name span : Eval H Value).StaysIn x := by
  refine .bind (inspect_staysIn _) fun v _ => ?_
  split
  · exact pure_staysIn _
  · exact fail_staysIn _

theorem function_staysIn (name : Option String) (params : List String) (body : Node)
    (arrow : Bool) (span : Span) :
    (function env name params body arrow span : Eval H Value).StaysIn x := by
  cases name with
  | none => exact pure_staysIn _
  | some name => exact .bind (bindName_staysIn name _) fun _ _ => pure_staysIn _

theorem collected_staysIn (b : Branch Node) (span : Span) (done : List Value) :
    (collected env b span done : Eval H Value).StaysIn x := by
  unfold collected
  split
  · exact pure_staysIn _
  · exact newList_staysIn span _

theorem all_staysIn {xs : List Node} (h : ∀ y ∈ xs, (self y env).StaysIn x) (done : List Value) :
    (all self env done xs).StaysIn x := by
  induction xs generalizing done with
  | nil => exact pure_staysIn _
  | cons y ys ih =>
      exact .bind (h y List.mem_cons_self) fun v _ =>
        ih (fun z hz => h z (List.mem_cons_of_mem y hz)) (v :: done)

theorem declaration_staysIn {v : Node} (h : (self v env).StaysIn x) (tag : Tag) (name : String)
    (span : Span) : (declaration self env tag name v span).StaysIn x := by
  refine .bind h fun w _ => ?_
  split
  · exact .bind (bindName_staysIn name w) fun _ _ => pure_staysIn _
  · exact fail_staysIn _

theorem binary_staysIn {l r : Node} (hl : (self l env).StaysIn x) (hr : (self r env).StaysIn x)
    (op : BinaryOp) (span : Span) : (binary self env op l r span).StaysIn x :=
  .bind hl fun _ _ => .bind hr fun _ _ => .bind (operation_staysIn _) fun _ _ => pure_staysIn _

theorem unary_staysIn {v : Node} (h : (self v env).StaysIn x) (op : UnaryOp) (span : Span) :
    (unary self env op v span).StaysIn x :=
  .bind h fun _ _ => .bind (operation_staysIn _) fun _ _ => pure_staysIn _

theorem branch_staysIn {b : Branch Node} (h : (self b.body env).StaysIn x) :
    (branch self env b).StaysIn x :=
  .bind h fun _ _ => pure_staysIn _

theorem choice_staysIn {otherwise : Option (Branch Node)} {arms : List (Arm Node)}
    (hc : ∀ a ∈ arms, (self a.condition env).StaysIn x)
    (hb : ∀ a ∈ arms, (self a.branch.body env).StaysIn x)
    (helse : ∀ b ∈ otherwise, (self b.body env).StaysIn x) :
    (choice self env otherwise arms).StaysIn x := by
  induction arms with
  | nil =>
      unfold choice
      cases otherwise with
      | none => exact pure_staysIn _
      | some b => exact branch_staysIn (helse b rfl)
  | cons a arms ih =>
      refine .bind (hc a List.mem_cons_self) fun c _ => .bind (inspect_staysIn _) fun holds _ => ?_
      split
      · exact branch_staysIn (hb a List.mem_cons_self)
      · exact ih (fun a' ha => hc a' (List.mem_cons_of_mem a ha))
          fun a' ha => hb a' (List.mem_cons_of_mem a ha)

theorem bound_staysIn {y : Node} (h : (self y env).StaysIn x) : (bound self env y).StaysIn x := by
  refine .bind h fun v _ => ?_
  split
  · exact pure_staysIn _
  · exact fail_staysIn _

theorem forTurns_staysIn {body : Node} (h : (self body env).StaysIn body)
    (hbody : body ∈ x.ownParts) (r : Range) (n : Nat) (i : Number) (done : List Value) :
    (forTurns self env r body n i done).StaysIn x := by
  induction n generalizing i done with
  | zero => exact .throw trivial
  | succ n ih =>
      unfold forTurns
      split
      · refine .bind (bindName_staysIn _ _) fun _ _ => .bind (h.turn hbody) fun t _ => ?_
        cases t with
        | value v => exact ih _ _
        | continued => exact ih _ _
        | broken => exact pure_staysIn _
      · exact pure_staysIn _

theorem whileTurns_staysIn {condition body : Node} (hc : (self condition env).StaysIn x)
    (h : (self body env).StaysIn body) (hbody : body ∈ x.ownParts) (n : Nat) (done : List Value) :
    (whileTurns self env condition body n done).StaysIn x := by
  induction n generalizing done with
  | zero => exact .throw trivial
  | succ n ih =>
      refine .bind hc fun c _ => .bind (inspect_staysIn _) fun holds _ => ?_
      split
      · refine .bind (h.turn hbody) fun t _ => ?_
        cases t with
        | value v => exact ih _
        | continued => exact ih _
        | broken => exact pure_staysIn _
      · exact pure_staysIn _

theorem call_staysIn [Host H] {callee : Node} {args : List Node}
    (hcallee : (self callee env).StaysIn x) (hargs : ∀ y ∈ args, (self y env).StaysIn x)
    (span : Span) : (call self env callee args span).StaysIn x :=
  .bind hcallee fun _ _ => .bind (all_staysIn hargs []) fun _ _ =>
    .bind (ofRun_staysIn _) fun _ _ => pure_staysIn _

/-- The signals of a node are its own, or those that stand in its parts. -/
theorem step_staysIn [Host H] (hself : ∀ y, (self y env).StaysIn y) (limit : Nat) (x : Node) :
    (step self limit x env).StaysIn x := by
  have part {y : Node} (hy : y ∈ x.openParts) : (self y env).StaysIn x := (hself y).of_part hy
  cases x with
  | number n s => exact pure_staysIn _
  | text a s => exact pure_staysIn _
  | list xs s => exact .bind (all_staysIn (fun y hy => part hy) []) fun _ _ => newList_staysIn s _
  | ident name s => exact ident_staysIn name s
  | declaration tag name v s =>
      exact declaration_staysIn (part List.mem_cons_self) tag name s
  | binary op l r s =>
      exact binary_staysIn (part List.mem_cons_self)
        (part (List.mem_cons_of_mem l List.mem_cons_self)) op s
  | unary op v s => exact unary_staysIn (part List.mem_cons_self) op s
  | choice arms otherwise s =>
      exact choice_staysIn (fun a ha => part (Node.condition_mem_parts (s := s) ha))
        (fun a ha => part (Node.body_mem_parts (s := s) ha))
        fun b hb => part (Node.otherwise_mem_parts (s := s) hb)
  | forLoop name first last step b s =>
      have hbody : b.body ∈ (Node.forLoop name first last step b s).ownParts :=
        List.mem_append_right _ List.mem_cons_self
      refine .bind (bound_staysIn (part (y := first) (by simp [Node.openParts]))) fun i _ =>
        .bind (bound_staysIn (part (y := last) (by simp [Node.openParts]))) fun last _ =>
        .bind (Q := fun _ => True) ?_ fun step _ =>
          .bind (forTurns_staysIn (hself b.body) hbody _ limit i []) fun done _ =>
            collected_staysIn b s done
      cases step with
      | none => exact pure_staysIn _
      | some step => exact bound_staysIn (part (by simp [Node.openParts]))
  | whileLoop c b s =>
      have hbody : b.body ∈ (Node.whileLoop c b s).ownParts :=
        List.mem_cons_of_mem c List.mem_cons_self
      exact .bind (whileTurns_staysIn (part List.mem_cons_self) (hself b.body) hbody limit [])
        fun done _ => collected_staysIn b s done
  | function name params body arrow s => exact function_staysIn name params body arrow s
  | call callee args s =>
      exact call_staysIn (part List.mem_cons_self)
        (fun y hy => part (List.mem_cons_of_mem callee hy)) s
  | returnWith v s =>
      cases v with
      | none => exact .throw ⟨none, s, .refl⟩
      | some v =>
          exact .bind (part (Option.mem_toList.mpr rfl)) fun w _ => .throw ⟨some v, s, .refl⟩
  | continueLoop s => exact .throw .refl
  | breakLoop s => exact .throw .refl

end Visit

theorem visit_staysIn [Host H] (n : Nat) (x : Node) (env : Env) :
    (visit (H := H) n x env).StaysIn x := by
  induction n generalizing x env with
  | zero => exact .throw trivial
  | succ n ih => exact Visit.step_staysIn (fun y => ih y env) n x

/-! ## The edges of programs and functions -/

/-- Every loop signal in `x` stands in the body of a loop or in a function. -/
def Node.KeepsLoopSignals (x : Node) : Prop :=
  ∀ s, ¬ x.Exposes (.continueLoop s) ∧ ¬ x.Exposes (.breakLoop s)

section

variable {x : Node} {m : Machine H} {d : Diagnostic}

/-- Where no loop signal gets to the edge, only failures of the body do. -/
theorem Eval.StaysIn.fails_of_toRun {r : Eval H Value} (h : r.StaysIn x) (hx : x.KeepsLoopSignals)
    {trace : Trace} {finish : Value → Value}
    (hstops : Stops (r.toRun trace finish) m (.failure d)) : r.Fails m d := by
  obtain ⟨m', hstops⟩ := hstops
  unfold Eval.toRun at hstops
  split at hstops
  · cases hstops
  · cases hstops
  · cases hstops
    exact ⟨_, ‹_›⟩
  · rename_i s _ hr
    exact absurd (h.of_stops trivial ⟨_, hr⟩) (hx s).1
  · rename_i s _ hr
    exact absurd (h.of_stops trivial ⟨_, hr⟩) (hx s).2

variable [Host H] {n : Nat}

theorem fails_of_runProgram (hx : x.KeepsLoopSignals) {name : String}
    (h : Stops (Visit.runProgram (visit n) name x) m (.failure d)) :
    (visit n x Visit.programEnv).Fails m d :=
  (visit_staysIn n x Visit.programEnv).fails_of_toRun hx (Run.fails_noteEnd.mp h)

theorem fails_of_callClosure {f : Closure} (hf : f.body.KeepsLoopSignals) {callee : Value}
    {args : List Value} (hcount : f.params.length = args.length)
    (h : Stops (Visit.callClosure (visit n) callee f args) m (.failure d)) :
    (visit n f.body (Visit.bodyEnv callee f m)).Fails (Visit.bodyMachine f args m) d := by
  rw [Stops, Visit.callClosure_of_eq hcount] at h
  exact (visit_staysIn n f.body _).fails_of_toRun hf h

/-- What interrupts a call has interrupted the callee or an argument, unless it halts. -/
theorem Visit.stops_of_call {self : Visit H} {env : Env} {limit : Nat} {callee : Node}
    {args : List Node} {span : Span} {i : Interrupt} (hi : ∀ h, i ≠ .halt h)
    (h : Stops (call self env callee args span) m i) :
    ∃ y m', Makes self env limit (.call callee args span) m y m' ∧ Stops (self y env) m' i := by
  obtain h | ⟨g, m₁, hg, h⟩ := stops_bind.mp h
  · exact ⟨callee, m, .subject rfl, h⟩
  obtain h | ⟨values, m₂, -, h⟩ := stops_bind.mp h
  · obtain ⟨y, m', hy, h⟩ := stops_all.mp h
    exact ⟨y, m', .argument hg hy, h⟩
  obtain h | ⟨v, m₃, -, h⟩ := stops_bind.mp h
  · obtain ⟨m', h⟩ := h
    unfold Eval.ofRun at h
    split at h
    · cases h
    · cases h
      exact absurd rfl (hi _)
  · exact absurd h (not_stops_pure _)

end

/-- A signal that comes out of a node stands in it, where nothing keeps it there. So a program or a
function whose loop signals all stand in the bodies of its loops fails for none of its own, and a
signal that comes out of a call has come out of the callee or of an argument. -/
theorem signals_stand_where_they_come_from [Host H] (n : Nat) (x : Node) (m : Machine H) :
    (∀ env i, Stops (visit n x env) m i → i.StandsIn x) ∧
    (x.KeepsLoopSignals → ∀ d,
      (∀ name, Stops (Visit.runProgram (visit n) name x) m (.failure d) →
        (visit n x Visit.programEnv).Fails m d) ∧
      ∀ callee f args, f.body = x → f.params.length = args.length →
        Stops (Visit.callClosure (visit n) callee f args) m (.failure d) →
        (visit n x (Visit.bodyEnv callee f m)).Fails (Visit.bodyMachine f args m) d) ∧
    ∀ env callee args span i, x = .call callee args span → (∀ h, i ≠ .halt h) →
      Stops (visit (n + 1) x env) m i →
        ∃ y m', Visit.Makes (visit n) env n x m y m' ∧ Stops (visit n y env) m' i := by
  refine ⟨fun env i h => (visit_staysIn n x env).of_stops trivial h, fun hx d => ⟨fun name h => ?_,
    fun callee f args hf hcount h => ?_⟩, fun env callee args span i hx hi h => ?_⟩
  · exact fails_of_runProgram hx h
  · subst hf
    exact fails_of_callClosure hx hcount h
  · subst hx
    exact Visit.stops_of_call hi h

/-- A `BREAK` in the condition of a loop leaves the loop. -/
theorem signals_stand_where_they_come_from_condition :
    let s : Span := default
    let x : Node := .whileLoop (.choice [⟨.number (.int 1) s, .breakLoop s, false⟩] none s)
      ⟨.breakLoop s, false⟩ s
    let m : Machine MemoryHost := Session.start (.ofInput [] [])
    Stops (visit 4 x Visit.programEnv) m (.broken s) ∧ x.Exposes (.breakLoop s) := by
  intro s x m
  have hstops : Stops (visit 4 x Visit.programEnv) m (.broken s) := ⟨m, rfl⟩
  exact ⟨hstops, (signals_stand_where_they_come_from 4 x m).1 _ _ hstops⟩

end BasicScript
