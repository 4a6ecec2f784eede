import BasicScript.Proofs.Data.Closures
import BasicScript.Proofs.Evaluation.Failing
import BasicScript.Proofs.Evaluation.Footprint

/-! # What an evaluation upholds

An evaluation that starts on a machine where something holds, and ends, leaves one where it holds,
and what it ends with is as it should be. Here that something is about the functions in the store,
the host and the number of active calls. What is asked of the parts of a node is asked only where
the node comes to evaluate them. -/

namespace BasicScript

variable {H α β ε : Type}

/-- Whether a node is a loop. -/
def Node.isLoop : Node → Bool
  | forLoop .. | whileLoop .. => true
  | _ => false

/-- The functions in the store and the host are as they should be, and so many calls are active. -/
structure Machine.Upholds (C : Closure → Prop) (J : H → Prop) (d : Nat) (m : Machine H) : Prop where
  store : m.store.Closures C
  host : J m.host
  depth : m.depth = d

/-- What may interrupt a node: a reason to halt of which `E` holds, or a signal. -/
def Interrupt.Upholds (C : Closure → Prop) (E : Halt → Prop) : Interrupt → Prop
  | .halt h => E h
  | .returned v => v.Closures C
  | .continued _ | .broken _ => True

/-- What the host does upholds `J`, it is at a loss only where `E` allows it, and `P` holds of the
programs it gives. -/
structure Host.Upholds (H : Type) [Host H] (J : H → Prop) (E : Halt → Prop) (P : Node → Prop) :
    Prop where
  writeLine (line : String) {h : H} (hh : J h) : J (writeLine line h)
  clear {h : H} (hh : J h) : J (clear h)
  readLine {h : H} (hh : J h) :
    J (readLine h).2 ∧ ∀ q, (readLine h).1 = .pending q → E (.awaits q)
  load {h : H} (hh : J h) (path : String) :
    (∀ q, load h path = .pending q → E (.awaits q)) ∧
    ∀ text, load h path = .answer text → ∀ x, Node.ofSource ⟨path, text⟩ = .ok x → P x

/-- Nothing is asked of the host where an answer may be missing. -/
theorem Host.upholds_nothing [Host H] {E : Halt → Prop} (hE : ∀ q, E (.awaits q)) :
    Host.Upholds H (fun _ => True) E fun _ => True where
  writeLine _ _ _ := trivial
  clear _ := trivial
  readLine _ := ⟨trivial, fun q _ => hE q⟩
  load _ _ := ⟨fun q _ => hE q, fun _ _ _ _ => trivial⟩

section

variable (C : Closure → Prop) (J : H → Prop) (E : Halt → Prop) (d : Nat)

/-- How a call or a program ends. -/
abbrev Run.Upholds (Q : α → Prop) (r : EStateM.Result Halt (Machine H) α) : Prop :=
  EndsIn (Machine.Upholds C J d) Q E r

/-- How the evaluation of a node ends. -/
abbrev Eval.Upholds (Q : α → Prop) (r : EStateM.Result Interrupt (Machine H) α) : Prop :=
  EndsIn (Machine.Upholds C J d) Q (Interrupt.Upholds C E) r

end

variable {C : Closure → Prop} {J : H → Prop} {E : Halt → Prop} {d : Nat} {P : Node → Prop}
  {m : Machine H}

/-! ## Operators -/

/-- What an operator yields holds no other functions than the store and its operands. -/
theorem Operation.Computes.closures {i : Prop} {a b : Value} {o : Operation Value}
    (ho : o.Computes i a b) (hb : b.Closures C) :
    Ensures (Store.Closures C) (Value.Closures C) (fun _ => True) o := by
  intro s hs
  have h := ho s
  generalize o s = r at h
  cases h with
  | refused => exact ⟨hs, trivial⟩
  | @plain d hd =>
      refine ⟨hs, .of_not_function ?_⟩
      cases d with
      | function f => cases hd
      | _ => rfl
  | list hxs =>
      refine ⟨hs.newList fun v hv => ?_, .of_not_function rfl⟩
      obtain rfl | ⟨l, hl⟩ := hxs v hv
      · exact hb
      · exact hs.elements l v hl
  | element _ _ p => exact ⟨hs, .getD (hs.elements _) p⟩

/-! ## Nodes -/

namespace Eval

theorem fail_upholds (hm : m.Upholds C J d) {f : Diagnostic} (hf : E (.failure f))
    {Q : α → Prop} : Upholds C J E d Q ((fail f : Eval H α) m) :=
  ⟨hm, hf⟩

/-- What is read from a store with such functions. -/
theorem inspect_upholds (hm : m.Upholds C J d) {Q : α → Prop} {f : Store → α}
    (h : ∀ s, s.Closures C → Q (f s)) : Upholds C J E d Q ((inspect f : Eval H α) m) :=
  ⟨hm, h m.store hm.store⟩

theorem holds_bind {v : Value} {f : Bool → Eval H β} :
    (inspect (·.holds v) >>= f) m = f (m.store.holds v) m :=
  rfl

theorem store_upholds (hm : m.Upholds C J d) {Q : α → Prop} {f : Store → α × Store}
    (h : ∀ s, s.Closures C → Q (f s).1 ∧ (f s).2.Closures C) :
    Upholds C J E d Q ((store f : Eval H α) m) :=
  ⟨⟨(h m.store hm.store).2, hm.host, hm.depth⟩, (h m.store hm.store).1⟩

theorem change_upholds (hm : m.Upholds C J d) {f : Store → Store}
    (h : ∀ s, s.Closures C → (f s).Closures C) :
    Upholds C J E d (fun _ => True) ((change f : Eval H Unit) m) :=
  ⟨⟨h m.store hm.store, hm.host, hm.depth⟩, trivial⟩

theorem operation_upholds (hm : m.Upholds C J d) {i : Prop} {a b : Value} {o : Operation Value}
    (ho : o.Computes i a b) (hb : b.Closures C)
    (hfail : ∀ f s, o m.store = .error f s → E (.failure f)) :
    Upholds C J E d (·.Closures C) ((operation o : Eval H Value) m) := by
  have hs := ho.closures hb m.store hm.store
  unfold operation
  cases ho : o m.store with
  | ok v s =>
      rw [ho] at hs
      exact ⟨⟨hs.1, hm.host, hm.depth⟩, hs.2⟩
  | error f s =>
      rw [ho] at hs
      exact ⟨⟨hs.1, hm.host, hm.depth⟩, hfail f s ho⟩

theorem ofRun_upholds {Q : α → Prop} {r : Run H α} (h : Run.Upholds C J E d Q (r m)) :
    Upholds C J E d Q (ofRun r m) := by
  unfold ofRun
  cases heq : r m with
  | ok a m₁ =>
      rw [heq] at h
      exact h
  | error e m₁ =>
      rw [heq] at h
      exact h

/-- How a turn ends. -/
def Turn.Closures (C : Closure → Prop) : Turn → Prop
  | .value v => v.Closures C
  | .continued | .broken => True

theorem turn_upholds {body : Eval H Value} (h : Upholds C J E d (·.Closures C) (body m)) :
    Upholds C J E d (Turn.Closures C) (turn body m) := by
  unfold turn
  cases heq : body m with
  | ok v m₁ =>
      rw [heq] at h
      exact h
  | error i m₁ =>
      rw [heq] at h
      cases i with
      | continued span => exact ⟨h.1, trivial⟩
      | broken span => exact ⟨h.1, trivial⟩
      | _ => exact h

/-- At the edge of a function or a program the signals end; a loop signal is a failure there. -/
theorem toRun_upholds {body : Eval H Value} (h : Upholds C J E d (·.Closures C) (body m))
    (hsignal : ∀ s, Stops body m (.continued s) ∨ Stops body m (.broken s) →
      ∀ f : Diagnostic, f.span = s → E (.failure f))
    (trace : Trace) {finish : Value → Value} (hfinish : ∀ v, v.Closures C → (finish v).Closures C) :
    Run.Upholds C J E d (·.Closures C) (body.toRun trace finish m) := by
  unfold toRun
  cases heq : body m with
  | ok v m₁ =>
      rw [heq] at h
      exact ⟨h.1, hfinish v h.2⟩
  | error i m₁ =>
      rw [heq] at h
      cases i with
      | continued span => exact ⟨h.1, hsignal span (.inl ⟨m₁, heq⟩) _ rfl⟩
      | broken span => exact ⟨h.1, hsignal span (.inr ⟨m₁, heq⟩) _ rfl⟩
      | _ => exact h

end Eval

namespace Visit

theorem newList_upholds (hm : m.Upholds C J d) (env : Env) (span : Span) {vs : List Value}
    (h : ∀ v ∈ vs, v.Closures C) :
    Eval.Upholds C J E d (·.Closures C) ((newList env span vs : Eval H Value) m) := by
  refine .bind (Q := fun _ => True)
    (Eval.store_upholds hm fun _ hs => ⟨trivial, hs.newList ?_⟩)
    fun l m' _ hm' _ => ⟨hm', .of_not_function rfl⟩
  simpa using h

theorem bindName_upholds (hm : m.Upholds C J d) (env : Env) (x : String) {v : Value}
    (h : v.Closures C) :
    Eval.Upholds C J E d (fun _ => True) ((bindName env x v : Eval H Unit) m) :=
  Eval.change_upholds hm fun _ hs => hs.bind env.scope x h

theorem collected_upholds (hm : m.Upholds C J d) (env : Env) (b : Branch Node) (span : Span)
    {done : List Value} (h : ∀ v ∈ done, v.Closures C) :
    Eval.Upholds C J E d (·.Closures C) ((collected env b span done : Eval H Value) m) := by
  unfold collected
  split
  · exact ⟨hm, .of_not_function rfl⟩
  · exact newList_upholds hm env span (by simpa using h)

/-- The node itself, evaluated on `m`, fails with `d`: a failure of a name, a declaration or a bound
points to it, and the others are what operators refuse. -/
inductive Raises (self : Visit H) (env : Env) : Node → Machine H → Diagnostic → Prop
  | ident {name span m d} (hd : d.span = span) : Raises self env (.ident name span) m d
  | declaration {tag name x span m d} (hd : d.span = span) :
      Raises self env (.declaration tag name x span) m d
  | bound {name first last step b span y m d} (hy : y ∈ [first, last] ++ step.toList)
      (hd : d.span = y.span) : Raises self env (.forLoop name first last step b span) m d
  | binary {op l r span m m₁ m₂ a b d s} (ha : self l env m = .ok a m₁)
      (hb : self r env m₁ = .ok b m₂) (ho : Operation.binary op a b m₂.store = .error d s) :
      Raises self env (.binary op l r span) m d
  | negate {x span m m₁ a d s} (ha : self x env m = .ok a m₁)
      (ho : Operation.negate a span m₁.store = .error d s) :
      Raises self env (.unary .negate x span) m d
  | not {x span m m₁ a d s} (ha : self x env m = .ok a m₁)
      (ho : Operation.not a m₁.store = .error d s) : Raises self env (.unary .not x span) m d

section

variable {self : Visit H} {env : Env} {limit : Nat}

theorem all_upholds (hm : m.Upholds C J d) {xs : List Node}
    (hself : ∀ y m', Elements (self · env) xs m y m' → m'.Upholds C J d →
      Eval.Upholds C J E d (·.Closures C) (self y env m'))
    {done : List Value} (hdone : ∀ v ∈ done, v.Closures C) :
    Eval.Upholds C J E d (fun vs => ∀ v ∈ vs, v.Closures C) (all self env done xs m) := by
  induction xs generalizing m done with
  | nil => exact ⟨hm, by simpa using hdone⟩
  | cons x xs ih =>
      refine .bind (hself x m .here hm) fun v m₁ hx hm₁ hv => ?_
      exact ih hm₁ (fun y m' hy => hself y m' (.later hx hy))
        (List.forall_mem_cons.mpr ⟨hv, hdone⟩)

theorem branch_upholds {b : Branch Node}
    (hself : Eval.Upholds C J E d (·.Closures C) (self b.body env m)) :
    Eval.Upholds C J E d (·.Closures C) (branch self env b m) := by
  refine .bind hself fun v m₁ _ hm₁ hv => ⟨hm₁, ?_⟩
  split
  · exact .of_not_function rfl
  · exact hv

theorem choice_upholds (hm : m.Upholds C J d) {otherwise : Option (Branch Node)}
    {arms : List (Arm Node)}
    (hcondition : ∀ y m', Conditions self env arms m y m' → m'.Upholds C J d →
      Eval.Upholds C J E d (·.Closures C) (self y env m'))
    (hbranch : ∀ b m', Chooses self env otherwise arms m (some b) m' → m'.Upholds C J d →
      Eval.Upholds C J E d (·.Closures C) (self b.body env m')) :
    Eval.Upholds C J E d (·.Closures C) (choice self env otherwise arms m) := by
  induction arms generalizing m with
  | nil =>
      unfold choice
      cases otherwise with
      | none => exact ⟨hm, .of_not_function rfl⟩
      | some b => exact branch_upholds (hbranch b m .otherwise hm)
  | cons a arms ih =>
      refine .bind (hcondition _ m .here hm) fun c m₁ hc hm₁ _ => ?_
      rw [Eval.holds_bind]
      cases hholds : m₁.store.holds c with
      | true => exact branch_upholds (hbranch _ m₁ (.here hc hholds) hm₁)
      | false =>
          exact ih hm₁ (fun y m' hy => hcondition y m' (.later hc hholds hy))
            fun b m' hb => hbranch b m' (.later hc hholds hb)

theorem returnWith_upholds (hm : m.Upholds C J d) {value : Option Node}
    (hself : ∀ x ∈ value, Eval.Upholds C J E d (·.Closures C) (self x env m)) :
    Eval.Upholds C J E d (·.Closures C) (returnWith self env value m) := by
  cases value with
  | none => exact ⟨hm, Value.Closures.of_not_function rfl⟩
  | some x => exact .bind (hself x rfl) fun v m₁ _ hm₁ hv => ⟨hm₁, hv⟩

theorem function_upholds (hm : m.Upholds C J d) {name : Option String} {params : List String}
    {body : Node} {arrow : Bool}
    (hC : C ⟨name.getD "<anonymous>", params, body, arrow, env.scope⟩) (span : Span) :
    Eval.Upholds C J E d (·.Closures C)
      ((function env name params body arrow span : Eval H Value) m) := by
  have hv : (env.made (.function ⟨name.getD "<anonymous>", params, body, arrow, env.scope⟩)
      span).Closures C := fun f hf => by cases hf; exact hC
  unfold function
  cases name with
  | none => exact ⟨hm, hv⟩
  | some x => exact .bind (bindName_upholds hm env x hv) fun _ m₁ _ hm₁ _ => ⟨hm₁, hv⟩

theorem ident_upholds (hm : m.Upholds C J d) {x : String} {span : Span}
    (hfail : ∀ f : Diagnostic, f.span = span → E (.failure f)) :
    Eval.Upholds C J E d (·.Closures C) ((ident env x span : Eval H Value) m) := by
  refine .bind (Q := fun found => ∀ v ∈ found, v.Closures C)
    (Eval.inspect_upholds hm fun s hs => hs.lookup env.scope x) fun found m₁ _ hm₁ hfound => ?_
  cases found with
  | none => exact Eval.fail_upholds hm₁ (hfail _ rfl)
  | some v => exact ⟨hm₁, (hfound v rfl).of_datum_eq rfl⟩

theorem declaration_upholds {tag : Tag} {x : String} {value : Node} {span : Span}
    (hself : Eval.Upholds C J E d (·.Closures C) (self value env m))
    (hfail : ∀ f : Diagnostic, f.span = span → E (.failure f)) :
    Eval.Upholds C J E d (·.Closures C) (declaration self env tag x value span m) := by
  refine .bind hself fun v m₁ _ hm₁ hv => ?_
  split
  · exact .bind (bindName_upholds hm₁ env x hv) fun _ m₂ _ hm₂ _ => ⟨hm₂, hv⟩
  · exact Eval.fail_upholds hm₁ (hfail _ rfl)

theorem binary_upholds {op : BinaryOp} {left right : Node} {span : Span}
    (hleft : Eval.Upholds C J E d (·.Closures C) (self left env m))
    (hright : ∀ a m₁, self left env m = .ok a m₁ → m₁.Upholds C J d →
      Eval.Upholds C J E d (·.Closures C) (self right env m₁))
    (hfail : ∀ f, Raises self env (.binary op left right span) m f → E (.failure f)) :
    Eval.Upholds C J E d (·.Closures C) (binary self env op left right span m) := by
  refine .bind hleft fun a m₁ ha hm₁ _ => .bind (hright a m₁ ha hm₁) fun b m₂ hb hm₂ hbC => ?_
  exact .bind (Eval.operation_upholds hm₂ (Operation.binary_computes op a b) hbC
    fun f s ho => hfail f (.binary ha hb ho)) fun v m₃ _ hm₃ hv => ⟨hm₃, hv.of_datum_eq rfl⟩

theorem unary_upholds {op : UnaryOp} {operand : Node} {span : Span}
    (hself : Eval.Upholds C J E d (·.Closures C) (self operand env m))
    (hfail : ∀ f, Raises self env (.unary op operand span) m f → E (.failure f)) :
    Eval.Upholds C J E d (·.Closures C) (unary self env op operand span m) := by
  refine .bind hself fun a m₁ ha hm₁ haC => .bind (Q := (·.Closures C)) ?_
    fun v m₂ _ hm₂ hv => ⟨hm₂, hv.of_datum_eq rfl⟩
  cases op with
  | negate =>
      exact Eval.operation_upholds hm₁ (Operation.multiply_computes a _) (.of_not_function rfl)
        fun f s ho => hfail f (.negate ha ho)
  | not =>
      exact Eval.operation_upholds hm₁ (Operation.not_computes a) haC
        fun f s ho => hfail f (.not ha ho)

theorem bound_upholds {x : Node} (hself : Eval.Upholds C J E d (·.Closures C) (self x env m))
    (hfail : ∀ f : Diagnostic, f.span = x.span → E (.failure f)) :
    Eval.Upholds C J E d (fun _ => True) (bound self env x m) := by
  refine .bind hself fun v m₁ _ hm₁ _ => ?_
  cases v.number? with
  | some n => exact ⟨hm₁, trivial⟩
  | none => exact Eval.fail_upholds hm₁ (hfail _ rfl)

theorem forTurns_upholds (hfuel : E .outOfFuel) (hm : m.Upholds C J d) (r : Range) {body : Node}
    {n : Nat} {i : Number}
    (hself : ∀ m', ForTurns self env r body n i m m' → m'.Upholds C J d →
      Eval.Upholds C J E d (·.Closures C) (self body env m'))
    {done : List Value} (hdone : ∀ v ∈ done, v.Closures C) :
    Eval.Upholds C J E d (fun vs => ∀ v ∈ vs, v.Closures C)
      (forTurns self env r body n i done m) := by
  induction n generalizing i m done with
  | zero => exact ⟨hm, hfuel⟩
  | succ n ih =>
      unfold forTurns
      split
      · rename_i hi
        refine .bind (Q := fun _ => True)
          (bindName_upholds hm env r.name (.of_not_function rfl)) ?_
        rintro _ _ ⟨⟩ hm₁ -
        refine .bind (Eval.turn_upholds (hself _ (.here hi) hm₁)) fun t m₂ ht hm₂ hclosures => ?_
        have later (hgoes : t ≠ .broken) (m' : Machine H)
            (h : ForTurns self env r body n (i.add r.step) m₂ m') :=
          hself m' (.later hi ht hgoes h)
        cases t with
        | value v =>
            exact ih hm₂ (later (by simp)) (List.forall_mem_cons.mpr ⟨hclosures, hdone⟩)
        | continued => exact ih hm₂ (later (by simp)) hdone
        | broken => exact ⟨hm₂, hdone⟩
      · exact ⟨hm, hdone⟩

theorem whileTurns_upholds (hfuel : E .outOfFuel) (hm : m.Upholds C J d) {condition body : Node}
    {n : Nat}
    (hself : ∀ y m', WhileTurns self env condition body n m y m' → m'.Upholds C J d →
      Eval.Upholds C J E d (·.Closures C) (self y env m'))
    {done : List Value} (hdone : ∀ v ∈ done, v.Closures C) :
    Eval.Upholds C J E d (fun vs => ∀ v ∈ vs, v.Closures C)
      (whileTurns self env condition body n done m) := by
  induction n generalizing m done with
  | zero => exact ⟨hm, hfuel⟩
  | succ n ih =>
      refine .bind (hself _ m .condition hm) fun c m₁ hc hm₁ _ => ?_
      rw [Eval.holds_bind]
      cases hholds : m₁.store.holds c with
      | false => exact ⟨hm₁, hdone⟩
      | true =>
          refine .bind (Eval.turn_upholds (hself _ m₁ (.body hc hholds) hm₁))
            fun t m₂ ht hm₂ hclosures => ?_
          have later (hgoes : t ≠ .broken) (y : Node) (m' : Machine H)
              (h : WhileTurns self env condition body n m₂ y m') :=
            hself y m' (.later hc hholds ht hgoes h)
          cases t with
          | value v => exact ih hm₂ (later nofun) (List.forall_mem_cons.mpr ⟨hclosures, hdone⟩)
          | continued => exact ih hm₂ (later nofun) hdone
          | broken => exact ⟨hm₂, hdone⟩

theorem forLoop_upholds (hfuel : E .outOfFuel) (hm : m.Upholds C J d) {x : String}
    {first last : Node} {step : Option Node} {b : Branch Node} {span : Span}
    (hself : ∀ y m', Makes self env limit (.forLoop x first last step b span) m y m' →
      m'.Upholds C J d → Eval.Upholds C J E d (·.Closures C) (self y env m'))
    (hfail : ∀ y ∈ [first, last] ++ step.toList, ∀ f : Diagnostic, f.span = y.span →
      E (.failure f)) :
    Eval.Upholds C J E d (·.Closures C)
      (forLoop self limit env x first last step b span m) := by
  rw [forLoop_eq]
  refine .bind (bound_upholds (hself first m (.bound .here) hm) (hfail first (by simp)))
    fun i m₁ hi hm₁ _ => ?_
  refine .bind (bound_upholds (hself last m₁ (.bound (.later hi .here)) hm₁)
    (hfail last (by simp))) fun j m₂ hj hm₂ _ => ?_
  refine .bind (Q := fun _ => True) ?_ fun k m₃ hk hm₃ _ => ?_
  · cases step with
    | none => exact ⟨hm₂, trivial⟩
    | some step =>
        exact bound_upholds (hself step m₂ (.bound (.later hi (.later hj .here))) hm₂)
          (hfail step (by simp))
  · refine .bind (forTurns_upholds hfuel hm₃ _ (fun m' h => hself _ m' (.forTurn hi hj hk h)) nofun)
      fun done m₄ _ hm₄ hdone => ?_
    exact collected_upholds hm₄ env b span hdone

variable [Host H]

theorem call_upholds (hm : m.Upholds C J d) {callee : Node} {args : List Node} {span : Span}
    (hself : ∀ y m', Makes self env limit (.call callee args span) m y m' → m'.Upholds C J d →
      Eval.Upholds C J E d (·.Closures C) (self y env m'))
    (hcall : ∀ g values m', Calls self env (.call callee args span) m g values m' →
      g.Closures C → (∀ v ∈ values, v.Closures C) → m'.Upholds C J d →
      Run.Upholds C J E d (·.Closures C) (apply self g values m')) :
    Eval.Upholds C J E d (·.Closures C) (call self env callee args span m) := by
  refine .bind (hself callee m (.subject rfl) hm) fun g m₁ hg hm₁ hgC => ?_
  refine .bind (all_upholds hm₁ (fun y m' hy => hself y m' (.argument hg hy)) nofun)
    fun values m₂ hvalues hm₂ hvaluesC => ?_
  exact .bind (Eval.ofRun_upholds (hcall _ values m₂ (.mk hg hvalues) (hgC.of_datum_eq rfl)
    hvaluesC hm₂)) fun v m₃ _ hm₃ hv => ⟨hm₃, hv.of_datum_eq rfl⟩

/-- The evaluation of a node upholds what its parts do where it comes to them, and what the call
does that it makes. -/
theorem step_upholds (hm : m.Upholds C J d) {node : Node}
    (hself : ∀ y m', Makes self env limit node m y m' → m'.Upholds C J d →
      Eval.Upholds C J E d (·.Closures C) (self y env m'))
    (hcall : ∀ g values m', Calls self env node m g values m' → g.Closures C →
      (∀ v ∈ values, v.Closures C) → m'.Upholds C J d →
      Run.Upholds C J E d (·.Closures C) (apply self g values m'))
    (hmade : ∀ name params body arrow span, node = .function name params body arrow span →
      C ⟨name.getD "<anonymous>", params, body, arrow, env.scope⟩)
    (hfail : ∀ f, Raises self env node m f → E (.failure f))
    (hfuel : node.isLoop → E .outOfFuel) :
    Eval.Upholds C J E d (·.Closures C) (step self limit node env m) := by
  cases node with
  | number n span => exact ⟨hm, .of_not_function rfl⟩
  | text s span => exact ⟨hm, .of_not_function rfl⟩
  | list xs span =>
      exact .bind (all_upholds hm (fun y m' hy => hself y m' (.element hy)) nofun)
        fun vs m₁ _ hm₁ hvs => newList_upholds hm₁ env span hvs
  | ident x span => exact ident_upholds hm fun f hf => hfail f (.ident hf)
  | declaration tag x v span =>
      exact declaration_upholds (hself v m .declared hm) fun f hf => hfail f (.declaration hf)
  | binary op l r span =>
      exact binary_upholds (hself l m (.subject rfl) hm)
        (fun a m₁ ha => hself r m₁ (.right ha)) hfail
  | unary op x span => exact unary_upholds (hself x m (.subject rfl) hm) hfail
  | choice arms otherwise span =>
      exact choice_upholds hm (fun y m' hy => hself y m' (.condition hy))
        fun b m' hb => hself b.body m' (.branch hb)
  | forLoop x first last step b span =>
      exact forLoop_upholds (hfuel rfl) hm hself fun y hy f hf => hfail f (.bound hy hf)
  | whileLoop c b span =>
      exact .bind (whileTurns_upholds (hfuel rfl) hm (fun y m' hy => hself y m' (.whileTurn hy))
        nofun) fun done m₁ _ hm₁ hdone => collected_upholds hm₁ env b span hdone
  | function name params body arrow span =>
      exact function_upholds hm (hmade _ _ _ _ _ rfl) span
  | call callee args span => exact call_upholds hm hself hcall
  | returnWith value span =>
      refine returnWith_upholds hm fun x hx => ?_
      cases hx
      exact hself x m .returned hm
  | continueLoop span => exact ⟨hm, trivial⟩
  | breakLoop span => exact ⟨hm, trivial⟩

end

end Visit

end BasicScript
