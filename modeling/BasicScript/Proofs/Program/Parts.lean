import BasicScript.Program.Node

/-! # Induction on trees

A tree is made of its parts; what its parts pass on to it holds of every tree. -/

namespace BasicScript

namespace Node

/-- The nodes that a node is directly made of. -/
@[simp]
def parts : Node → List Node
  | number .. | text .. | ident .. | continueLoop .. | breakLoop .. => []
  | list xs _ => xs
  | declaration _ _ v _ => [v]
  | binary _ l r _ => [l, r]
  | unary _ x _ => [x]
  | choice arms otherwise _ =>
    arms.map (·.condition) ++ arms.map (·.branch.body) ++ otherwise.toList.map (·.body)
  | forLoop _ first last step b _ => [first, last] ++ step.toList ++ [b.body]
  | whileLoop c b _ => [c, b.body]
  | function _ _ body _ _ => [body]
  | call f args _ => f :: args
  | returnWith v _ => v.toList

section

variable {arms : List (Arm Node)} {otherwise : Option (Branch Node)} {s : Span}

theorem condition_mem_parts {a : Arm Node} (ha : a ∈ arms) :
    a.condition ∈ (choice arms otherwise s).parts := by
  simp only [parts, List.mem_append, List.mem_map]
  exact .inl (.inl ⟨a, ha, rfl⟩)

theorem body_mem_parts {a : Arm Node} (ha : a ∈ arms) :
    a.branch.body ∈ (choice arms otherwise s).parts := by
  simp only [parts, List.mem_append, List.mem_map]
  exact .inl (.inr ⟨a, ha, rfl⟩)

theorem otherwise_mem_parts {b : Branch Node} (hb : b ∈ otherwise) :
    b.body ∈ (choice arms otherwise s).parts := by
  simp only [parts, List.mem_append, List.mem_map, Option.mem_toList]
  exact .inr ⟨b, hb, rfl⟩

end

theorem sizeOf_body_lt (b : Branch Node) : sizeOf b.body < sizeOf b := by
  cases b
  simp only [Branch.mk.sizeOf_spec]
  omega

theorem sizeOf_arm_lt (a : Arm Node) :
    sizeOf a.condition < sizeOf a ∧ sizeOf a.branch < sizeOf a := by
  cases a
  simp only [Arm.mk.sizeOf_spec]
  omega

theorem sizeOf_part_lt {x y : Node} (h : y ∈ x.parts) : sizeOf y < sizeOf x := by
  cases x with
  | number n s => simp [parts] at h
  | text a s => simp [parts] at h
  | ident a s => simp [parts] at h
  | continueLoop s => simp [parts] at h
  | breakLoop s => simp [parts] at h
  | list xs s =>
      have hlt := List.sizeOf_lt_of_mem (show y ∈ xs from h)
      simp only [list.sizeOf_spec]
      omega
  | declaration tag a v s =>
      simp only [parts, List.mem_singleton] at h
      subst h
      simp only [declaration.sizeOf_spec]
      omega
  | binary op l r s =>
      simp only [parts, List.mem_cons, List.not_mem_nil, or_false] at h
      simp only [binary.sizeOf_spec]
      rcases h with rfl | rfl <;> omega
  | unary op v s =>
      simp only [parts, List.mem_singleton] at h
      subst h
      simp only [unary.sizeOf_spec]
      omega
  | choice arms otherwise s =>
      simp only [parts, List.mem_append, List.mem_map, Option.mem_toList] at h
      simp only [choice.sizeOf_spec]
      rcases h with (⟨a, ha, rfl⟩ | ⟨a, ha, rfl⟩) | ⟨b, rfl, rfl⟩
      · have hlt := List.sizeOf_lt_of_mem ha
        have harm := (sizeOf_arm_lt a).1
        omega
      · have hlt := List.sizeOf_lt_of_mem ha
        have harm := (sizeOf_arm_lt a).2
        have hbody := sizeOf_body_lt a.branch
        omega
      · have hbody := sizeOf_body_lt b
        simp only [Option.some.sizeOf_spec]
        omega
  | forLoop a first last step b s =>
      simp only [parts, List.mem_append, List.mem_cons, List.not_mem_nil, or_false,
        Option.mem_toList] at h
      have hbody := sizeOf_body_lt b
      simp only [forLoop.sizeOf_spec]
      rcases h with ((rfl | rfl) | rfl) | rfl
      · omega
      · omega
      · simp only [Option.some.sizeOf_spec]
        omega
      · omega
  | whileLoop c b s =>
      simp only [parts, List.mem_cons, List.not_mem_nil, or_false] at h
      have hbody := sizeOf_body_lt b
      simp only [whileLoop.sizeOf_spec]
      rcases h with rfl | rfl <;> omega
  | function name params body arrow s =>
      simp only [parts, List.mem_singleton] at h
      subst h
      simp only [function.sizeOf_spec]
      omega
  | call f args s =>
      simp only [parts, List.mem_cons] at h
      simp only [call.sizeOf_spec]
      rcases h with rfl | h
      · omega
      · have hlt := List.sizeOf_lt_of_mem h
        omega
  | returnWith v s =>
      simp only [parts, Option.mem_toList] at h
      subst h
      simp only [returnWith.sizeOf_spec, Option.some.sizeOf_spec]
      omega

/-- What holds of a node when it holds of its parts holds of every node. -/
theorem parts_induction {P : Node → Prop} (h : ∀ x, (∀ y ∈ x.parts, P y) → P x) (x : Node) :
    P x := by
  induction hsize : sizeOf x using Nat.strongRecOn generalizing x with
  | _ n ih => exact h x fun y hy => ih _ (hsize ▸ sizeOf_part_lt hy) y rfl

end Node

end BasicScript
