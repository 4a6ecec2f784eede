import BasicScript.Proofs.Program.Parts
import BasicScript.Token.Basic
import Mathlib.Data.List.Forall2

/-! # Trees up to spans

Two trees are alike when they differ in nothing but the spans of their nodes. -/

namespace BasicScript

namespace Node

mutual

/-- A tree without its spans. -/
def bare : Node → Node
  | number n _ => number n default
  | text s _ => text s default
  | list xs _ => list (bares xs) default
  | ident x _ => ident x default
  | declaration tag x v _ => declaration tag x (bare v) default
  | binary op l r _ => binary op (bare l) (bare r) default
  | unary op x _ => unary op (bare x) default
  | choice arms otherwise _ => choice (bareArms arms) (bareElse otherwise) default
  | forLoop x first last step b _ =>
    forLoop x (bare first) (bare last) (bareOption step) (bareBranch b) default
  | whileLoop c b _ => whileLoop (bare c) (bareBranch b) default
  | function name params body arrow _ => function name params (bare body) arrow default
  | call f args _ => call (bare f) (bares args) default
  | returnWith v _ => returnWith (bareOption v) default
  | continueLoop _ => continueLoop default
  | breakLoop _ => breakLoop default

def bares : List Node → List Node
  | [] => []
  | x :: xs => bare x :: bares xs

def bareOption : Option Node → Option Node
  | none => none
  | some x => some (bare x)

def bareBranch : Branch Node → Branch Node
  | ⟨body, block⟩ => ⟨bare body, block⟩

def bareArm : Arm Node → Arm Node
  | ⟨condition, branch⟩ => ⟨bare condition, bareBranch branch⟩

def bareArms : List (Arm Node) → List (Arm Node)
  | [] => []
  | a :: as => bareArm a :: bareArms as

def bareElse : Option (Branch Node) → Option (Branch Node)
  | none => none
  | some b => some (bareBranch b)

end

section

variable (s : Span)

@[simp] theorem bare_number (n : Number) : bare (number n s) = number n default :=
  rfl

@[simp] theorem bare_text (a : String) : bare (text a s) = text a default :=
  rfl

@[simp] theorem bare_ident (x : String) : bare (ident x s) = ident x default :=
  rfl

@[simp] theorem bare_declaration (tag : Tag) (x : String) (v : Node) :
    bare (declaration tag x v s) = declaration tag x v.bare default :=
  rfl

@[simp] theorem bare_binary (op : BinaryOp) (l r : Node) :
    bare (binary op l r s) = binary op l.bare r.bare default :=
  rfl

@[simp] theorem bare_unary (op : UnaryOp) (x : Node) :
    bare (unary op x s) = unary op x.bare default :=
  rfl

@[simp] theorem bare_whileLoop (c : Node) (b : Branch Node) :
    bare (whileLoop c b s) = whileLoop c.bare (bareBranch b) default :=
  rfl

@[simp] theorem bare_function (name : Option String) (params : List String) (body : Node)
    (arrow : Bool) :
    bare (function name params body arrow s) = function name params body.bare arrow default :=
  rfl

@[simp] theorem bare_forLoop (x : String) (first last : Node) (step : Option Node)
    (b : Branch Node) :
    bare (forLoop x first last step b s) =
      forLoop x first.bare last.bare (bareOption step) (bareBranch b) default :=
  rfl

@[simp] theorem bare_returnWith (v : Option Node) :
    bare (returnWith v s) = returnWith (bareOption v) default :=
  rfl

@[simp] theorem bare_continueLoop : bare (continueLoop s) = continueLoop default :=
  rfl

@[simp] theorem bare_breakLoop : bare (breakLoop s) = breakLoop default :=
  rfl

theorem bares_eq_map (xs : List Node) : bares xs = xs.map bare := by
  induction xs with
  | nil => rfl
  | cons x xs ih => exact congrArg (x.bare :: ·) ih

theorem bareArms_eq_map (as : List (Arm Node)) : bareArms as = as.map bareArm := by
  induction as with
  | nil => rfl
  | cons a as ih => exact congrArg (bareArm a :: ·) ih

@[simp] theorem bare_list (xs : List Node) : bare (list xs s) = list (xs.map bare) default :=
  congrArg (list · default) (bares_eq_map xs)

@[simp] theorem bare_choice (arms : List (Arm Node)) (otherwise : Option (Branch Node)) :
    bare (choice arms otherwise s) =
      choice (arms.map bareArm) (bareElse otherwise) default :=
  congrArg (choice · (bareElse otherwise) default) (bareArms_eq_map arms)

@[simp] theorem bare_call (f : Node) (args : List Node) :
    bare (call f args s) = call f.bare (args.map bare) default :=
  congrArg (call f.bare · default) (bares_eq_map args)

end

@[simp] theorem bareOption_none : bareOption none = none :=
  rfl

@[simp] theorem bareOption_some (x : Node) : bareOption (some x) = some x.bare :=
  rfl

@[simp] theorem bareBranch_mk (body : Node) (block : Bool) :
    bareBranch ⟨body, block⟩ = ⟨body.bare, block⟩ :=
  rfl

@[simp] theorem bareArm_mk (condition : Node) (b : Branch Node) :
    bareArm ⟨condition, b⟩ = ⟨condition.bare, bareBranch b⟩ :=
  rfl

@[simp] theorem bareElse_none : bareElse none = none :=
  rfl

@[simp] theorem bareElse_some (b : Branch Node) : bareElse (some b) = some (bareBranch b) :=
  rfl

@[simp] theorem bare_span (x : Node) : x.bare.span = default := by
  cases x <;> rfl

theorem through_bare_span (x : Node) : Span.through default x.bare.span = default := by
  rw [bare_span]
  rfl

/-- There is nothing more to leave out. -/
theorem bare_bare (x : Node) : x.bare.bare = x.bare := by
  have bareOption_bareOption {v : Option Node} (h : ∀ y ∈ v, y.bare.bare = y.bare) :
      bareOption (bareOption v) = bareOption v := by
    cases v with
    | none => rfl
    | some y => simp [h y rfl]
  have bareBranch_bareBranch {b : Branch Node} (h : b.body.bare.bare = b.body.bare) :
      bareBranch (bareBranch b) = bareBranch b := by
    obtain ⟨body, block⟩ := b
    simpa using h
  induction x using parts_induction with
  | h x ih =>
  have maps (xs : List Node) (h : ∀ y ∈ xs, y ∈ x.parts) :
      (xs.map bare).map bare = xs.map bare := by
    rw [List.map_map]
    exact List.map_congr_left fun y hy => ih y (h y hy)
  cases x with
  | list xs s => rw [bare_list, bare_list, maps xs fun y hy => hy]
  | declaration tag a v s => rw [bare_declaration, bare_declaration, ih v (by simp)]
  | binary op l r s =>
      rw [bare_binary, bare_binary, ih l (by simp), ih r (by simp)]
  | unary op v s => rw [bare_unary, bare_unary, ih v (by simp)]
  | choice arms otherwise s =>
      have harms : (arms.map bareArm).map bareArm = arms.map bareArm := by
        rw [List.map_map]
        refine List.map_congr_left fun a ha => ?_
        have hcondition := ih a.condition (condition_mem_parts ha)
        have hbody := ih a.branch.body (body_mem_parts ha)
        obtain ⟨c, b⟩ := a
        rw [Function.comp, bareArm_mk, bareArm_mk, hcondition, bareBranch_bareBranch hbody]
      have helse : bareElse (bareElse otherwise) = bareElse otherwise := by
        cases otherwise with
        | none => rfl
        | some b =>
            have hbody := ih b.body (otherwise_mem_parts rfl)
            rw [bareElse_some, bareElse_some, bareBranch_bareBranch hbody]
      rw [bare_choice, bare_choice, harms, helse]
  | forLoop a first last step b s =>
      rw [bare_forLoop, bare_forLoop, ih first (by simp), ih last (by simp),
        bareOption_bareOption fun y hy => ih y (by simp [Option.mem_def.mp hy]),
        bareBranch_bareBranch (ih b.body (by simp))]
  | whileLoop c b s =>
      rw [bare_whileLoop, bare_whileLoop, ih c (by simp),
        bareBranch_bareBranch (ih b.body (by simp))]
  | function name params body arrow s =>
      rw [bare_function, bare_function, ih body (by simp)]
  | call f args s =>
      rw [bare_call, bare_call, ih f (by simp),
        maps args fun y hy => List.mem_cons_of_mem _ hy]
  | returnWith v s =>
      rw [bare_returnWith, bare_returnWith,
        bareOption_bareOption fun y hy => ih y (by simp [Option.mem_def.mp hy])]
  | _ => rfl

/-- Equal but for the spans. -/
def Alike (x y : Node) : Prop :=
  x.bare = y.bare

theorem Alike.refl (x : Node) : x.Alike x :=
  Eq.refl _

theorem Alike.symm {x y : Node} (h : x.Alike y) : y.Alike x :=
  Eq.symm h

theorem Alike.trans {x y z : Node} (h : x.Alike y) (h' : y.Alike z) : x.Alike z :=
  Eq.trans h h'

end Node

/-! ## Parts of trees -/

theorem Node.map_bare_eq_iff {xs ys : List Node} :
    xs.map Node.bare = ys.map Node.bare ↔ List.Forall₂ Node.Alike xs ys := by
  induction xs generalizing ys with
  | nil => cases ys <;> simp
  | cons x xs ih => cases ys <;> simp [← ih, Node.Alike]

theorem Node.bareOption_eq_iff {x y : Option Node} :
    Node.bareOption x = Node.bareOption y ↔ Option.Rel Node.Alike x y := by
  cases x <;> cases y <;> simp [Node.Alike]

/-- Branches of one form with bodies that are alike. -/
structure Branch.Alike (b c : Branch Node) : Prop where
  body : b.body.Alike c.body
  block : b.block = c.block

theorem Branch.bareBranch_eq_iff {b c : Branch Node} :
    Node.bareBranch b = Node.bareBranch c ↔ b.Alike c := by
  cases b
  cases c
  simp only [Node.bareBranch_mk, Branch.mk.injEq]
  exact ⟨fun h => ⟨h.1, h.2⟩, fun h => ⟨h.body, h.block⟩⟩

theorem Node.bareElse_eq_iff {b c : Option (Branch Node)} :
    Node.bareElse b = Node.bareElse c ↔ Option.Rel Branch.Alike b c := by
  cases b <;> cases c <;> simp [Branch.bareBranch_eq_iff]

structure Arm.Alike (a b : Arm Node) : Prop where
  condition : a.condition.Alike b.condition
  branch : a.branch.Alike b.branch

theorem Arm.bareArm_eq_iff {a b : Arm Node} : Node.bareArm a = Node.bareArm b ↔ a.Alike b := by
  cases a
  cases b
  simp only [Node.bareArm_mk, Arm.mk.injEq, Branch.bareBranch_eq_iff]
  exact ⟨fun h => ⟨h.1, h.2⟩, fun h => ⟨h.condition, h.branch⟩⟩

theorem Arm.map_bareArm_eq_iff {as bs : List (Arm Node)} :
    as.map Node.bareArm = bs.map Node.bareArm ↔ List.Forall₂ Arm.Alike as bs := by
  induction as generalizing bs with
  | nil => cases bs <;> simp
  | cons a as ih => cases bs <;> simp [← ih, Arm.bareArm_eq_iff]

/-! ## What is alike to a node of a given form -/

namespace Node.Alike

variable {y : Node} {s : Span}

theorem of_number {n : Number} (h : (number n s).Alike y) : ∃ t, y = number n t := by
  cases y with
  | number n' t =>
      simp only [Alike, bare_number, number.injEq] at h
      exact ⟨t, by rw [h.1]⟩
  | _ => simp [Alike] at h

theorem of_text {a : String} (h : (text a s).Alike y) : ∃ t, y = text a t := by
  cases y with
  | text b t =>
      simp only [Alike, bare_text, text.injEq] at h
      exact ⟨t, by rw [h.1]⟩
  | _ => simp [Alike] at h

theorem of_list {xs : List Node} (h : (list xs s).Alike y) :
    ∃ ys t, y = list ys t ∧ List.Forall₂ Alike xs ys := by
  cases y with
  | list ys t =>
      simp only [Alike, bare_list, list.injEq] at h
      exact ⟨ys, t, rfl, map_bare_eq_iff.mp h.1⟩
  | _ => simp [Alike] at h

theorem of_ident {x : String} (h : (ident x s).Alike y) : ∃ t, y = ident x t := by
  cases y with
  | ident x' t =>
      simp only [Alike, bare_ident, ident.injEq] at h
      exact ⟨t, by rw [h.1]⟩
  | _ => simp [Alike] at h

theorem of_declaration {tag : Tag} {x : String} {v : Node}
    (h : (declaration tag x v s).Alike y) : ∃ w t, y = declaration tag x w t ∧ v.Alike w := by
  cases y with
  | declaration tag' x' w t =>
      simp only [Alike, bare_declaration, declaration.injEq] at h
      obtain ⟨rfl, rfl, hv, -⟩ := h
      exact ⟨w, t, rfl, hv⟩
  | _ => simp [Alike] at h

theorem of_binary {op : BinaryOp} {l r : Node} (h : (binary op l r s).Alike y) :
    ∃ l' r' t, y = binary op l' r' t ∧ l.Alike l' ∧ r.Alike r' := by
  cases y with
  | binary op' l' r' t =>
      simp only [Alike, bare_binary, binary.injEq] at h
      obtain ⟨rfl, hl, hr, -⟩ := h
      exact ⟨l', r', t, rfl, hl, hr⟩
  | _ => simp [Alike] at h

theorem of_unary {op : UnaryOp} {x : Node} (h : (unary op x s).Alike y) :
    ∃ x' t, y = unary op x' t ∧ x.Alike x' := by
  cases y with
  | unary op' x' t =>
      simp only [Alike, bare_unary, unary.injEq] at h
      obtain ⟨rfl, hx, -⟩ := h
      exact ⟨x', t, rfl, hx⟩
  | _ => simp [Alike] at h

theorem of_choice {arms : List (Arm Node)} {otherwise : Option (Branch Node)}
    (h : (choice arms otherwise s).Alike y) :
    ∃ arms' otherwise' t, y = choice arms' otherwise' t ∧
      List.Forall₂ Arm.Alike arms arms' ∧ Option.Rel Branch.Alike otherwise otherwise' := by
  cases y with
  | choice arms' otherwise' t =>
      simp only [Alike, bare_choice, choice.injEq] at h
      exact ⟨arms', otherwise', t, rfl, Arm.map_bareArm_eq_iff.mp h.1, bareElse_eq_iff.mp h.2.1⟩
  | _ => simp [Alike] at h

theorem of_forLoop {x : String} {first last : Node} {step : Option Node} {b : Branch Node}
    (h : (forLoop x first last step b s).Alike y) :
    ∃ first' last' step' b' t, y = forLoop x first' last' step' b' t ∧ first.Alike first' ∧
      last.Alike last' ∧ Option.Rel Alike step step' ∧ b.Alike b' := by
  cases y with
  | forLoop x' first' last' step' b' t =>
      simp only [Alike, bare_forLoop, forLoop.injEq] at h
      obtain ⟨rfl, hfirst, hlast, hstep, hb, -⟩ := h
      exact ⟨first', last', step', b', t, rfl, hfirst, hlast, bareOption_eq_iff.mp hstep,
        Branch.bareBranch_eq_iff.mp hb⟩
  | _ => simp [Alike] at h

theorem of_whileLoop {c : Node} {b : Branch Node} (h : (whileLoop c b s).Alike y) :
    ∃ c' b' t, y = whileLoop c' b' t ∧ c.Alike c' ∧ b.Alike b' := by
  cases y with
  | whileLoop c' b' t =>
      simp only [Alike, bare_whileLoop, whileLoop.injEq] at h
      exact ⟨c', b', t, rfl, h.1, Branch.bareBranch_eq_iff.mp h.2.1⟩
  | _ => simp [Alike] at h

theorem of_function {name : Option String} {params : List String} {body : Node} {arrow : Bool}
    (h : (function name params body arrow s).Alike y) :
    ∃ body' t, y = function name params body' arrow t ∧ body.Alike body' := by
  cases y with
  | function name' params' body' arrow' t =>
      simp only [Alike, bare_function, function.injEq] at h
      obtain ⟨rfl, rfl, hbody, rfl, -⟩ := h
      exact ⟨body', t, rfl, hbody⟩
  | _ => simp [Alike] at h

theorem of_call {f : Node} {args : List Node} (h : (call f args s).Alike y) :
    ∃ f' args' t, y = call f' args' t ∧ f.Alike f' ∧ List.Forall₂ Alike args args' := by
  cases y with
  | call f' args' t =>
      simp only [Alike, bare_call, call.injEq] at h
      exact ⟨f', args', t, rfl, h.1, map_bare_eq_iff.mp h.2.1⟩
  | _ => simp [Alike] at h

theorem of_returnWith {v : Option Node} (h : (returnWith v s).Alike y) :
    ∃ w t, y = returnWith w t ∧ Option.Rel Alike v w := by
  cases y with
  | returnWith w t =>
      simp only [Alike, bare_returnWith, returnWith.injEq] at h
      exact ⟨w, t, rfl, bareOption_eq_iff.mp h.1⟩
  | _ => simp [Alike] at h

theorem of_continueLoop (h : (continueLoop s).Alike y) : ∃ t, y = continueLoop t := by
  cases y with
  | continueLoop t => exact ⟨t, rfl⟩
  | _ => simp [Alike] at h

theorem of_breakLoop (h : (breakLoop s).Alike y) : ∃ t, y = breakLoop t := by
  cases y with
  | breakLoop t => exact ⟨t, rfl⟩
  | _ => simp [Alike] at h

end Node.Alike

/-! ## Nodes of one form -/

namespace Node.Alike

variable {x x' y y' : Node} {s t : Span}

theorem number (n : Number) : (Node.number n s).Alike (Node.number n t) :=
  Eq.refl _

theorem text (a : String) : (Node.text a s).Alike (Node.text a t) :=
  Eq.refl _

theorem ident (a : String) : (Node.ident a s).Alike (Node.ident a t) :=
  Eq.refl _

theorem continueLoop : (Node.continueLoop s).Alike (Node.continueLoop t) :=
  Eq.refl _

theorem breakLoop : (Node.breakLoop s).Alike (Node.breakLoop t) :=
  Eq.refl _

theorem list {xs ys : List Node} (h : List.Forall₂ Alike xs ys) :
    (Node.list xs s).Alike (Node.list ys t) := by
  rw [Alike, bare_list, bare_list, map_bare_eq_iff.mpr h]

theorem declaration {tag : Tag} {a : String} (h : x.Alike y) :
    (Node.declaration tag a x s).Alike (Node.declaration tag a y t) := by
  rw [Alike, bare_declaration, bare_declaration, h]

theorem binary {op : BinaryOp} (h : x.Alike y) (h' : x'.Alike y') :
    (Node.binary op x x' s).Alike (Node.binary op y y' t) := by
  rw [Alike, bare_binary, bare_binary, h, h']

theorem unary {op : UnaryOp} (h : x.Alike y) : (Node.unary op x s).Alike (Node.unary op y t) := by
  rw [Alike, bare_unary, bare_unary, h]

theorem choice {arms arms' : List (Arm Node)} {b b' : Option (Branch Node)}
    (h : List.Forall₂ Arm.Alike arms arms') (h' : Option.Rel Branch.Alike b b') :
    (Node.choice arms b s).Alike (Node.choice arms' b' t) := by
  rw [Alike, bare_choice, bare_choice, Arm.map_bareArm_eq_iff.mpr h, bareElse_eq_iff.mpr h']

theorem forLoop {a : String} {step step' : Option Node} {b b' : Branch Node} (h : x.Alike y)
    (h' : x'.Alike y') (hstep : Option.Rel Alike step step') (hb : b.Alike b') :
    (Node.forLoop a x x' step b s).Alike (Node.forLoop a y y' step' b' t) := by
  rw [Alike, bare_forLoop, bare_forLoop, h, h', bareOption_eq_iff.mpr hstep,
    Branch.bareBranch_eq_iff.mpr hb]

theorem whileLoop {b b' : Branch Node} (h : x.Alike y) (hb : b.Alike b') :
    (Node.whileLoop x b s).Alike (Node.whileLoop y b' t) := by
  rw [Alike, bare_whileLoop, bare_whileLoop, h, Branch.bareBranch_eq_iff.mpr hb]

theorem function {name : Option String} {params : List String} {arrow : Bool} (h : x.Alike y) :
    (Node.function name params x arrow s).Alike (Node.function name params y arrow t) := by
  rw [Alike, bare_function, bare_function, h]

theorem call {xs ys : List Node} (h : x.Alike y) (h' : List.Forall₂ Alike xs ys) :
    (Node.call x xs s).Alike (Node.call y ys t) := by
  rw [Alike, bare_call, bare_call, h, map_bare_eq_iff.mpr h']

theorem returnWith {v w : Option Node} (h : Option.Rel Alike v w) :
    (Node.returnWith v s).Alike (Node.returnWith w t) := by
  rw [Alike, bare_returnWith, bare_returnWith, bareOption_eq_iff.mpr h]

end Node.Alike

/-! ## Tokens without their places -/

/-- What a token is, apart from where it stands. -/
structure Symbol where
  kind : TokenKind
  literal : Option Literal

def Token.symbol (t : Token) : Symbol :=
  ⟨t.kind, t.literal⟩

/-- What the tokens of a list are, up to the end of input. -/
def Token.symbols (ts : List Token) : List Symbol :=
  (ts.takeWhile (·.kind != .endOfInput)).map Token.symbol

theorem Token.textOrEmpty_eq {t u : Token} (h : t.symbol = u.symbol) :
    t.textOrEmpty = u.textOrEmpty := by
  simp only [Token.symbol, Symbol.mk.injEq] at h
  simp only [Token.textOrEmpty, h.2]

end BasicScript
