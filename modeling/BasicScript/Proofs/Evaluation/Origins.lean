import BasicScript.Proofs.Evaluation.Failing
import BasicScript.Proofs.Program.Forms

/-! # Where values come from

A value carries the place of the node that made it. A declaration and the branch of an `IF` hand on
the value of another node, and the null of a construct without a value has no place at all. -/

namespace BasicScript

/-! ## Nodes that make no value of their own -/

namespace Node

/-- The branches that a node carries out. -/
def branches : Node → List (Branch Node)
  | choice arms otherwise _ => arms.map (·.branch) ++ otherwise.toList
  | forLoop _ _ _ _ b _ | whileLoop _ b _ => [b]
  | _ => []

/-- The value of a node may be that of another one, handed on. -/
inductive Relays : Node → Node → Prop
  | declared {tag name y span} : Relays (.declaration tag name y span) y
  | branch {arms otherwise span b} (hb : b ∈ (choice arms otherwise span).branches)
      (hblock : b.block = false) : Relays (.choice arms otherwise span) b.body

/-- A value that `x` yields may be made by `y`. -/
def Origin (x y : Node) : Prop :=
  Relation.ReflTransGen Relays x y

/-- A construct that may have no value: an `IF` that does not say what stands for the rest, or one
with a block. -/
inductive Valueless : Node → Prop
  | noBranch {arms span} : Valueless (.choice arms none span)
  | block {x b} (hb : b ∈ x.branches) (hblock : b.block = true) : Valueless x

variable {x y : Node}

theorem Relays.mem_pieces (h : x.Relays y) : (.phrase, y) ∈ x.pieces := by
  cases h with
  | declared => exact List.mem_cons_self
  | @branch arms otherwise span b hb hblock =>
      have hform : b.form = .phrase := by rw [Branch.form, hblock]; rfl
      rw [← hform]
      rcases List.mem_append.mp hb with hb | hb
      · obtain ⟨a, ha, rfl⟩ := List.mem_map.mp hb
        exact List.mem_append_left _ (List.mem_flatMap.mpr
          ⟨a, ha, List.mem_cons_of_mem _ List.mem_cons_self⟩)
      · exact List.mem_append_right _ (List.mem_map_of_mem hb)

theorem Origin.occurs (h : x.Origin y) : Occurs (.phrase, x) (.phrase, y) := by
  induction h with
  | refl => exact .refl _
  | tail _ hnext ih => exact ih.tail hnext.mem_pieces

end Node

/-! ## Values that a node makes -/

/-- A value is marked with a place and the frames of the node's environment. -/
structure Env.Marks (env : Env) (span : Span) (v : Value) : Prop where
  span : v.span = span
  trace : v.trace = env.trace

variable {H : Type}

namespace Visit

variable {self : Visit H} {env : Env} {m m' : Machine H} {v : Value} {span : Span}

theorem newList_marks {vs : List Value} (h : newList env span vs m = .ok v m') :
    env.Marks span v := by
  cases h
  exact ⟨rfl, rfl⟩

theorem collected_ok {b : Branch Node} {done : List Value}
    (h : collected env b span done m = .ok v m') :
    if b.block then v = .null else env.Marks span v := by
  cases hb : b.block <;> rw [collected, hb] at h
  · exact newList_marks h
  · cases h
    rfl

theorem ident_marks {name : String} (h : ident env name span m = .ok v m') :
    env.Marks span v := by
  obtain ⟨w, m₁, -, h⟩ := ok_of_bind h
  cases w with
  | none => cases h
  | some w =>
      cases h
      exact ⟨rfl, rfl⟩

theorem function_marks {name : Option String} {params : List String} {body : Node} {arrow : Bool}
    (h : function env name params body arrow span m = .ok v m') : env.Marks span v := by
  cases name with
  | none =>
      cases h
      exact ⟨rfl, rfl⟩
  | some name =>
      obtain ⟨u, m₁, -, h⟩ := ok_of_bind h
      cases h
      exact ⟨rfl, rfl⟩

theorem call_marks [Host H] {callee : Node} {args : List Node}
    (h : call self env callee args span m = .ok v m') : env.Marks span v := by
  obtain ⟨g, m₁, -, h⟩ := ok_of_bind h
  obtain ⟨values, m₂, -, h⟩ := ok_of_bind h
  obtain ⟨w, m₃, -, h⟩ := ok_of_bind h
  cases h
  exact ⟨rfl, rfl⟩

theorem declaration_ok {tag : Tag} {name : String} {x : Node}
    (h : declaration self env tag name x span m = .ok v m') :
    ∃ m₁, self x env m = .ok v m₁ := by
  obtain ⟨w, m₁, hw, h⟩ := ok_of_bind h
  split at h
  · cases h
    exact ⟨m₁, hw⟩
  · cases h

/-- An operator's value carries the frames of the first operand's, unless it is an element of that
one. -/
theorem binary_ok {op : BinaryOp} {l r : Node} (h : binary self env op l r span m = .ok v m') :
    ∃ a m₁, self l env m = .ok a m₁ ∧ v.span = span ∧
      (v.trace = a.trace ∨ op = .divide ∧ a.list?.isSome) := by
  obtain ⟨a, m₁, b, m₂, w, s, ha, -, hw, rfl, -⟩ := ok_of_binary h
  have htrace := (Operation.binary_computes op a b).inFrames.of_ok trivial hw
  exact ⟨a, m₁, ha, rfl, htrace⟩

theorem unary_ok {op : UnaryOp} {x : Node} (h : unary self env op x span m = .ok v m') :
    ∃ a m₁, self x env m = .ok a m₁ ∧ v.span = span ∧ v.trace = a.trace := by
  obtain ⟨a, m₁, ha, h⟩ := ok_of_bind h
  obtain ⟨w, m₂, hw, h⟩ := ok_of_bind h
  cases h
  obtain ⟨s, hw, -⟩ := Eval.ok_of_operation hw
  have htrace : w.trace = a.trace ∨ False ∧ a.list?.isSome := by
    cases op with
    | negate => exact (Operation.multiply_computes a _).inFrames.of_ok trivial hw
    | not => exact (Operation.not_computes a).inFrames.of_ok trivial hw
  exact ⟨a, m₁, ha, rfl, htrace.resolve_right fun h => h.1⟩

theorem branch_ok {b : Branch Node} (h : branch self env b m = .ok v m') :
    if b.block then v = .null else self b.body env m = .ok v m' := by
  obtain ⟨w, m₁, hw, h⟩ := ok_of_bind h
  cases hb : b.block <;> rw [hb] at h <;> cases h
  · exact hw
  · rfl

/-- An `IF` yields what the branch does that is chosen, and null if it is a block or if there is
none. -/
theorem choice_ok {otherwise : Option (Branch Node)} {arms : List (Arm Node)}
    (h : choice self env otherwise arms m = .ok v m') :
    ∃ b m₁, Chooses self env otherwise arms m b m₁ ∧ (b = none → v = .null) ∧
      ∀ b' ∈ b, if b'.block then v = .null else self b'.body env m₁ = .ok v m' := by
  induction arms generalizing m with
  | nil =>
      refine ⟨otherwise, m, .otherwise, ?_, ?_⟩
      · rintro rfl
        cases h
        rfl
      · rintro b rfl
        exact branch_ok h
  | cons a arms ih =>
      obtain ⟨c, m₁, hc, h⟩ := ok_of_bind h
      obtain ⟨holds, m₂, hinspect, h⟩ := ok_of_bind h
      obtain ⟨hholds, rfl⟩ := Eval.inspect_eq_ok.mp hinspect
      cases holds with
      | true =>
          refine ⟨some a.branch, m₁, .here hc hholds, nofun, fun b hb => ?_⟩
          cases hb
          exact branch_ok h
      | false =>
          obtain ⟨b, m', hb, hvalue⟩ := ih h
          exact ⟨b, m', .later hc hholds hb, hvalue⟩

/-- A loop yields null for a block, and else a list that is made there. -/
theorem forLoop_ok {limit : Nat} {name : String} {first last : Node} {step : Option Node}
    {b : Branch Node} (h : forLoop self limit env name first last step b span m = .ok v m') :
    if b.block then v = .null else env.Marks span v := by
  obtain ⟨i, m₁, -, h⟩ := ok_of_bind h
  obtain ⟨j, m₂, -, h⟩ := ok_of_bind h
  obtain ⟨k, m₃, -, h⟩ := ok_of_bind h
  obtain ⟨done, m₄, -, h⟩ := ok_of_bind h
  exact collected_ok h

theorem whileLoop_ok {limit : Nat} {condition : Node} {b : Branch Node}
    (h : whileLoop self limit env condition b span m = .ok v m') :
    if b.block then v = .null else env.Marks span v := by
  obtain ⟨done, m₁, -, h⟩ := ok_of_bind h
  exact collected_ok h

theorem returnWith_ne_ok {value : Option Node} : returnWith self env value m ≠ .ok v m' := by
  intro h
  cases value with
  | none => cases h
  | some x =>
      obtain ⟨w, m₁, -, h⟩ := ok_of_bind h
      cases h

theorem Chooses.mem_branches {otherwise : Option (Branch Node)} {arms : List (Arm Node)}
    {b : Branch Node} (h : Chooses self env otherwise arms m (some b) m') (s : Span) :
    b ∈ (Node.choice arms otherwise s).branches := by
  rcases h.mem with ⟨a, ha, hb⟩ | hb
  · cases hb
    exact List.mem_append_left _ (List.mem_map_of_mem ha)
  · exact List.mem_append_right _ (Option.mem_toList.mpr hb.symm)

end Visit

/-! ## The place of a value -/

/-- The place of a value that `x` yields: that of the node that made it, or none if that is a
construct without a value. -/
def Value.ComesFrom (x : Node) (v : Value) : Prop :=
  ∃ y, x.Origin y ∧ (v.span = y.span ∨ y.Valueless ∧ v.span = default)

namespace Value.ComesFrom

variable {x y : Node} {v : Value}

theorem made (h : v.span = x.span) : v.ComesFrom x :=
  ⟨x, .refl, .inl h⟩

theorem null (h : x.Valueless) (hv : v = .null) : v.ComesFrom x :=
  ⟨x, .refl, .inr ⟨h, by rw [hv]; rfl⟩⟩

theorem relayed (hy : x.Relays y) (h : v.ComesFrom y) : v.ComesFrom x := by
  obtain ⟨z, hz, h⟩ := h
  exact ⟨z, .head hy hz, h⟩

/-- What a loop yields has its place, unless it is a block. -/
theorem loop {env : Env} {b : Branch Node} (hb : b ∈ x.branches)
    (h : if b.block then v = .null else env.Marks x.span v) : v.ComesFrom x := by
  cases hblock : b.block with
  | true =>
      rw [if_pos hblock] at h
      exact .null (.block hb hblock) h
  | false =>
      rw [hblock, if_neg Bool.false_ne_true] at h
      exact .made h.span

end Value.ComesFrom

/-- A value has the place of a node that it comes from, or none. -/
theorem visit_comesFrom [Host H] {n : Nat} {x : Node} {env : Env} {m m' : Machine H} {v : Value}
    (h : visit n x env m = .ok v m') : v.ComesFrom x := by
  induction n generalizing x m m' v with
  | zero => cases h
  | succ n ih =>
      cases x with
      | number k span => cases h; exact .made rfl
      | text s span => cases h; exact .made rfl
      | list xs span =>
          obtain ⟨vs, m₁, -, h⟩ := ok_of_bind h
          exact .made (Visit.newList_marks h).span
      | ident name span => exact .made (Visit.ident_marks h).span
      | declaration tag name x span =>
          obtain ⟨m₁, h⟩ := Visit.declaration_ok h
          exact .relayed .declared (ih h)
      | binary op l r span =>
          obtain ⟨a, m₁, -, hspan, -⟩ := Visit.binary_ok h
          exact .made hspan
      | unary op x span =>
          obtain ⟨a, m₁, -, hspan, -⟩ := Visit.unary_ok h
          exact .made hspan
      | choice arms otherwise span =>
          obtain ⟨b, m₁, hb, hnone, hvalue⟩ := Visit.choice_ok h
          cases b with
          | none =>
              obtain ⟨a, -, ha⟩ | rfl := hb.mem
              · cases ha
              · exact .null .noBranch (hnone rfl)
          | some b =>
              have hmem := hb.mem_branches span
              have hvalue := hvalue b rfl
              cases hblock : b.block with
              | true =>
                  rw [if_pos hblock] at hvalue
                  exact .null (.block hmem hblock) hvalue
              | false =>
                  rw [hblock, if_neg Bool.false_ne_true] at hvalue
                  exact .relayed (.branch hmem hblock) (ih hvalue)
      | forLoop name first last step b span =>
          exact .loop List.mem_cons_self (Visit.forLoop_ok h)
      | whileLoop condition b span => exact .loop List.mem_cons_self (Visit.whileLoop_ok h)
      | function name params body arrow span => exact .made (Visit.function_marks h).span
      | call callee args span => exact .made (Visit.call_marks h).span
      | returnWith value span => exact absurd h Visit.returnWith_ne_ok
      | continueLoop span => cases h
      | breakLoop span => cases h

end BasicScript
