import BasicScript.Evaluation.Call
import BasicScript.Evaluation.Loop

/-!
Evaluation of programs. One step evaluates a node given a way to evaluate the nodes below it, and
the evaluator repeats the step as deep as its fuel goes. A finished evaluation does not depend on
the fuel.
-/

namespace BasicScript

variable {H : Type} [Host H]

namespace Visit

/-- Evaluates a node, given a way to evaluate the nodes below it; a loop makes at most `limit`
turns. -/
def step (self : Visit H) (limit : Nat) : Visit H := fun node env =>
  match node with
  | .number n span => return env.made (.number n) span
  | .text s span => return env.made (.text s) span
  | .list elements span => do newList env span (← all self env [] elements)
  | .ident name span => ident env name span
  | .declaration tag name value span => declaration self env tag name value span
  | .binary op left right span => binary self env op left right span
  | .unary op operand span => unary self env op operand span
  | .choice arms otherwise _ => choice self env otherwise arms
  | .forLoop name first last step b span => forLoop self limit env name first last step b span
  | .whileLoop condition b span => whileLoop self limit env condition b span
  | .function name params body arrow span => function env name params body arrow span
  | .call callee args span => call self env callee args span
  | .returnWith value _ => returnWith self env value
  | .continueLoop span => throw (.continued span)
  | .breakLoop span => throw (.broken span)

end Visit

/-- Evaluates a node. The fuel bounds the depth of the evaluation and the turns of its loops. -/
def visit : Nat → Visit H
  | 0 => fun _ _ => .outOfFuel
  | n + 1 => Visit.step (visit n) n

end BasicScript
