import BasicScript.Proofs.Program.Parts
import Mathlib.Logic.Relation

/-! # What the nodes of a tree stand for

A node is a phrase of its own or, if it is the list of a program or a block, some lines. -/

namespace BasicScript

/-- Whether a node stands for one phrase or for the lines of a block. -/
inductive Form where
  | phrase | block
deriving DecidableEq

/-- The lines that a node in its form is written as. -/
def Form.lines : Form → Node → List Node
  | .block, .list xs _ => xs
  | _, x => [x]

def Branch.form (b : Branch Node) : Form :=
  if b.block then .block else .phrase

namespace Node

/-- The nodes that a node is directly made of, and what they stand for. -/
def pieces : Node → List (Form × Node)
  | choice arms otherwise _ =>
    arms.flatMap (fun a => [(.phrase, a.condition), (a.branch.form, a.branch.body)]) ++
      otherwise.toList.map fun b => (b.form, b.body)
  | forLoop _ first last step b _ =>
    [(.phrase, first), (.phrase, last)] ++ step.toList.map (.phrase, ·) ++ [(b.form, b.body)]
  | whileLoop c b _ => [(.phrase, c), (b.form, b.body)]
  | function _ _ body arrow _ => [(if arrow then .phrase else .block, body)]
  | x => x.parts.map (.phrase, ·)

/-- Every part stands for something. -/
theorem exists_mem_pieces {x y : Node} (h : y ∈ x.parts) : ∃ form, (form, y) ∈ x.pieces := by
  cases x with
  | choice arms otherwise s =>
      simp only [parts, List.mem_append, List.mem_map, Option.mem_toList] at h
      rcases h with (⟨a, ha, rfl⟩ | ⟨a, ha, rfl⟩) | ⟨b, hb, rfl⟩
      · exact ⟨.phrase, List.mem_append_left _
          (List.mem_flatMap.mpr ⟨a, ha, List.mem_cons_self⟩)⟩
      · exact ⟨a.branch.form, List.mem_append_left _
          (List.mem_flatMap.mpr ⟨a, ha, List.mem_cons_of_mem _ List.mem_cons_self⟩)⟩
      · exact ⟨b.form, List.mem_append_right _
          (List.mem_map_of_mem (Option.mem_toList.mpr hb))⟩
  | forLoop name first last step b s =>
      rcases List.mem_append.mp h with h | h
      · exact ⟨.phrase, List.mem_append_left _ (by simpa using h)⟩
      · obtain rfl := List.mem_singleton.mp h
        exact ⟨b.form, List.mem_append_right _ List.mem_cons_self⟩
  | whileLoop c b s =>
      simp only [parts, List.mem_cons, List.not_mem_nil, or_false] at h
      rcases h with rfl | rfl
      · exact ⟨.phrase, List.mem_cons_self⟩
      · exact ⟨b.form, List.mem_cons_of_mem _ List.mem_cons_self⟩
  | function name params body arrow s =>
      obtain rfl := List.mem_singleton.mp h
      exact ⟨_, List.mem_cons_self⟩
  | _ => exact ⟨.phrase, List.mem_map_of_mem h⟩

/-- `q` is one of the nodes that `p` consists of, `p` itself included. -/
def Occurs (p q : Form × Node) : Prop :=
  Relation.ReflTransGen (fun p q => q ∈ p.2.pieces) p q

theorem Occurs.refl (p : Form × Node) : Occurs p p :=
  Relation.ReflTransGen.refl

theorem Occurs.cases_head {p q : Form × Node} (h : Occurs p q) :
    q = p ∨ ∃ u ∈ p.2.pieces, Occurs u q := by
  rcases Relation.ReflTransGen.cases_head h with rfl | ⟨u, hu, h⟩
  · exact .inl rfl
  · exact .inr ⟨u, hu, h⟩

theorem Occurs.head {p u q : Form × Node} (hu : u ∈ p.2.pieces) (h : Occurs u q) : Occurs p q :=
  Relation.ReflTransGen.head hu h

end Node

end BasicScript
