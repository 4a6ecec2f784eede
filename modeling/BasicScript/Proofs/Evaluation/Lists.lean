import BasicScript.Proofs.Evaluation.Calls
import BasicScript.Proofs.Evaluation.Soundness

/-! # Lists change through built-in functions only

Nothing but `append`, `pop` and `extend` changes the elements of a list that is there. What computes
a list makes a new one, and what passes a list on passes on the same one, so that a change is seen
through all its holders. -/

namespace BasicScript

variable {H α β ε : Type}

/-- Every list that was there keeps its elements, unless a function is called that changes lists. -/
def Machine.KeepsLists (m m' : Machine H) : Prop :=
  m.store.lists.size ≤ m'.store.lists.size ∧
  ∃ events, m'.log = events ++ m.log ∧
    ((∀ b n, Event.calling b n ∈ events → b.changesLists = false) →
      ∀ l : ListRef, l.index < m.store.lists.size → m'.store.elements l = m.store.elements l)

/-- A list that is there in the end, but was not at first. -/
def ListRef.NewSince (l : ListRef) (m m' : Machine H) : Prop :=
  m.store.lists.size ≤ l.index ∧ l.index < m'.store.lists.size

/-- The nodes whose value is a list of their own making. -/
inductive Node.MakesList : Node → Prop
  | list (xs : List Node) (span : Span) : MakesList (.list xs span)
  | forLoop (x : String) (first last : Node) (step : Option Node) {b : Branch Node}
      (hb : b.block = false) (span : Span) : MakesList (.forLoop x first last step b span)
  | whileLoop (condition : Node) {b : Branch Node} (hb : b.block = false) (span : Span) :
      MakesList (.whileLoop condition b span)

/-- The nodes that make a list, if their value is one. -/
inductive Node.ComputesList : Node → Prop
  | makes {x : Node} (h : x.MakesList) : ComputesList x
  | operator {op : BinaryOp} (h : op ∈ [.add, .subtract, .multiply]) (x y : Node) (span : Span) :
      ComputesList (.binary op x y span)

/-- The elements that a value gives access to, if it is a list. -/
def Store.contents (s : Store) (v : Value) : Option (Array Value) :=
  v.list?.map s.elements

/-! ## What keeps the lists -/

namespace Machine.KeepsLists

variable {m m' m'' : Machine H}

/-- Nothing happens to the lists, nor does the log tell of any call. -/
theorem of_lists_eq (hl : m'.store.lists = m.store.lists) (hlog : m'.log = m.log) :
    KeepsLists m m' :=
  ⟨Nat.le_of_eq (by rw [hl]), [], hlog, fun _ l _ => by rw [Store.elements, hl, Store.elements]⟩

theorem refl (m : Machine H) : KeepsLists m m :=
  of_lists_eq rfl rfl

theorem trans (h : KeepsLists m m') (h' : KeepsLists m' m'') : KeepsLists m m'' := by
  obtain ⟨hsize, events, hlog, hkeep⟩ := h
  obtain ⟨hsize', events', hlog', hkeep'⟩ := h'
  refine ⟨Nat.le_trans hsize hsize', events' ++ events, ?_, fun hcalls l hl => ?_⟩
  · rw [hlog', hlog, List.append_assoc]
  · rw [hkeep' (fun b n hb => hcalls b n (List.mem_append_left _ hb)) l
        (Nat.lt_of_lt_of_le hl hsize),
      hkeep (fun b n hb => hcalls b n (List.mem_append_right _ hb)) l hl]

theorem newList (m : Machine H) (xs : Array Value) :
    KeepsLists m { m with store := (m.store.newList xs).2 } := by
  refine ⟨?_, [], rfl, fun _ l hl => ?_⟩
  · rw [Store.size_newList]
    exact Nat.le_succ _
  · rw [Store.elements, Store.newList_getElem? _ _ (Nat.ne_of_lt hl), Store.elements]

theorem hostMotion : HostMotion (KeepsLists (H := H)) where
  refl := refl
  trans := trans
  host _ _ := of_lists_eq rfl rfl
  note _ e := ⟨Nat.le_refl _, [e], rfl, fun _ _ _ => rfl⟩

theorem motion : Motion (KeepsLists (H := H)) :=
  hostMotion.toMotion

theorem nodeMotion (env : Env) : NodeMotion (KeepsLists (H := H)) env where
  toMotion := motion
  newList := newList
  bind _ _ _ := of_lists_eq rfl rfl

end Machine.KeepsLists

/-- The machine has more lists and a longer log at most. -/
def Machine.Adds (m m' : Machine H) : Prop :=
  m.store.lists.size ≤ m'.store.lists.size ∧ ∃ events, m'.log = events ++ m.log

theorem Machine.Adds.builtinMotion : BuiltinMotion (Machine.Adds (H := H)) where
  refl _ := ⟨Nat.le_refl _, [], rfl⟩
  trans h h' := by
    obtain ⟨hsize, events, hlog⟩ := h
    obtain ⟨hsize', events', hlog'⟩ := h'
    exact ⟨Nat.le_trans hsize hsize', events' ++ events, by rw [hlog', hlog, List.append_assoc]⟩
  host _ _ := ⟨Nat.le_refl _, [], rfl⟩
  note _ e := ⟨Nat.le_refl _, [e], rfl⟩
  modifyList _ _ _ := ⟨Nat.le_of_eq (by simp [Store.modifyList]), [], rfl⟩

open Machine (KeepsLists)

/-! ## Calls -/

section

variable [Host H] {self : Visit H} (hself : ∀ node env, Moves KeepsLists (self node env))

include hself

omit [Host H] in
theorem callClosure_keepsLists (callee : Value) (f : Closure) (args : List Value) :
    Moves KeepsLists (Visit.callClosure self callee f args) := by
  refine .bind KeepsLists.motion (.checkCount KeepsLists.motion _ _ _) fun _ =>
    .bind KeepsLists.motion (KeepsLists.hostMotion.note_moves _) fun _ =>
    .bind KeepsLists.motion (fun m => ?_) fun scope => (hself f.body ⟨scope, _⟩).toRun _ _
  exact .of_lists_eq (Store.lists_bindAll _ _ f.params args) rfl

/-- A built-in function that changes lists is called, as the log tells, or it changes none. -/
theorem callBuiltin_keepsLists (callee : Value) (b : Builtin) (args : List Value) :
    Moves KeepsLists (Visit.callBuiltin self callee b args) := by
  have hrun (source : Source) : Moves KeepsLists (Visit.runSource self source) :=
    KeepsLists.hostMotion.runSource_moves (fun program => hself program Visit.programEnv) source
  refine .bind KeepsLists.motion (.checkCount KeepsLists.motion _ _ _) fun _ => ?_
  by_cases hb : b.changesLists
  · intro m
    let called : Event := .calling b args.length
    have hne : b ≠ .run := by
      rintro rfl
      cases hb
    have hadds : BuiltinMotion (Machine.Adds (H := H)) := Machine.Adds.builtinMotion
    obtain ⟨hsize, events, hlog⟩ := hadds.execute_moves (fun _ => hadds.modifyList)
      (fun h _ => absurd h hne : b = .run → ∀ program, Moves _ (Visit.runSource self program))
      ⟨callee.span, Visit.entered callee b.name⟩ args { m with log := called :: m.log }
    refine ⟨hsize, events ++ [called], by rw [List.append_assoc]; exact hlog, fun hcalls => ?_⟩
    -- the log tells of the call, so the lists are not asked for
    have hnone := hcalls b args.length (by simp [called])
    rw [hb] at hnone
    cases hnone
  · exact .bind KeepsLists.motion (KeepsLists.hostMotion.note_moves _) fun _ =>
      KeepsLists.hostMotion.execute_moves (fun h => absurd h hb) (fun _ => hrun) _ _

theorem apply_keepsLists (callee : Value) (args : List Value) :
    Moves KeepsLists (Visit.apply self callee args) := by
  have henter : Moves KeepsLists (Visit.enter self callee args) := by
    unfold Visit.enter
    split
    · exact callClosure_keepsLists hself callee _ args
    · exact callBuiltin_keepsLists hself callee _ args
    · exact .run_fail KeepsLists.motion _
  intro m
  unfold Visit.apply
  split
  · exact KeepsLists.refl m
  · -- the depth is no part of what is kept
    have hm := henter { m with depth := m.depth + 1 }
    split <;> rename_i hr <;> rw [hr] at hm <;> exact hm

end

theorem visit_keepsLists [Host H] (n : Nat) (node : Node) (env : Env) :
    Moves (KeepsLists (H := H)) (visit n node env) := by
  induction n generalizing node env with
  | zero => exact .throw KeepsLists.motion _
  | succ n ih =>
      exact (KeepsLists.nodeMotion env).step_moves (fun node => ih node env)
        (apply_keepsLists ih) n node

/-! ## New lists -/

/-- Where an evaluation ends with a value, `Q` holds of the machine before, the value and the
machine after. -/
def Yields (Q : Machine H → α → Machine H → Prop) (r : EStateM ε (Machine H) α) : Prop :=
  ∀ m a m', r m = .ok a m' → Q m a m'

/-- The value is a new list. -/
def Machine.MakesList (m : Machine H) (v : Value) (m' : Machine H) : Prop :=
  ∃ l, v.datum = .list l ∧ l.NewSince m m'

/-- The value is a new list, or none. -/
def Machine.SharesNone (m : Machine H) (v : Value) (m' : Machine H) : Prop :=
  ∀ l, v.datum = .list l → l.NewSince m m'

theorem ListRef.NewSince.of_keepsLists {l : ListRef} {m m₁ m' : Machine H} (h : m.KeepsLists m₁)
    (hl : l.NewSince m₁ m') : l.NewSince m m' :=
  ⟨Nat.le_trans h.1 hl.1, hl.2⟩

/-- What is new after a while is new. -/
theorem Yields.behind {Q : Machine H → β → Machine H → Prop} {r : EStateM ε (Machine H) α}
    {f : α → EStateM ε (Machine H) β}
    (hQ : ∀ {m m₁ b m'}, m.KeepsLists m₁ → Q m₁ b m' → Q m b m') (h : Moves KeepsLists r)
    (hf : ∀ a, Yields Q (f a)) : Yields Q (r >>= f) := by
  intro m b m' hb
  obtain ⟨a, m₁, ha, hb⟩ := ok_of_bind hb
  have hkeeps := h m
  rw [ha] at hkeeps
  exact hQ hkeeps (hf a m₁ b m' hb)

theorem newList_makes (env : Env) (span : Span) (vs : List Value) :
    Yields Machine.MakesList (Visit.newList env span vs : Eval H Value) := by
  intro m v m' h
  cases h
  refine ⟨_, rfl, Nat.le_refl _, ?_⟩
  rw [Store.size_newList]
  exact Nat.lt_succ_self _

theorem collected_makes (env : Env) {b : Branch Node} (hb : b.block = false) (span : Span)
    (done : List Value) :
    Yields Machine.MakesList (Visit.collected env b span done : Eval H Value) := by
  rw [Visit.collected, hb]
  exact newList_makes env span done.reverse

theorem visit_makes [Host H] (n : Nat) {node : Node} (hnode : node.MakesList) (env : Env) :
    Yields (Machine.MakesList (H := H)) (visit n node env) := by
  cases n with
  | zero => exact nofun
  | succ n =>
      have hself (node : Node) : Moves (KeepsLists (H := H)) (visit n node env) :=
        visit_keepsLists n node env
      have hnode' := KeepsLists.nodeMotion (H := H) env
      have hQ {m m₁ m' : Machine H} {v : Value} (h : m.KeepsLists m₁) (hv : m₁.MakesList v m') :
          m.MakesList v m' := by
        obtain ⟨l, hl, hnew⟩ := hv
        exact ⟨l, hl, hnew.of_keepsLists h⟩
      cases hnode with
      | list xs span =>
          exact .behind hQ (hnode'.all_moves hself [] xs) fun vs => newList_makes env span vs
      | forLoop x first last step hb span =>
          refine .behind hQ (hnode'.bound_moves hself first) fun i =>
            .behind hQ (hnode'.bound_moves hself last) fun last =>
            .behind hQ ?_ fun step =>
            .behind hQ (hnode'.forTurns_moves hself _ _ n i []) fun done =>
            collected_makes env hb span done
          cases step with
          | none => exact .pure KeepsLists.motion _
          | some step => exact hnode'.bound_moves hself step
      | whileLoop condition hb span =>
          exact .behind hQ (hnode'.whileTurns_moves hself condition _ n []) fun done =>
            collected_makes env hb span done

/-! ## Operators -/

/-- A list that an operator yields is new, unless it was an element of a list. -/
theorem Operation.Computes.new_list {i : Prop} {a b v : Value} {o : Operation Value}
    (ho : o.Computes i a b) (hi : ¬ i) {s s' : Store} (hv : o s = .ok v s') {l : ListRef}
    (hl : v.datum = .list l) : s.lists.size ≤ l.index ∧ l.index < s'.lists.size := by
  have h := ho s
  generalize o s = r at h hv
  cases h with
  | refused => cases hv
  | plain hd =>
      cases hv
      cases hl
      cases hd
  | list =>
      cases hv
      cases hl
      rw [Array.size_push]
      exact ⟨Nat.le_refl _, Nat.lt_succ_self _⟩
  | element hi' => exact absurd hi' hi

theorem visit_sharesNone [Host H] (n : Nat) {node : Node} (hnode : node.ComputesList)
    (env : Env) : Yields (Machine.SharesNone (H := H)) (visit n node env) := by
  cases hnode with
  | makes h =>
      intro m v m' hv l hl
      obtain ⟨k, hk, hnew⟩ := visit_makes n h env m v m' hv
      cases hk.symm.trans hl
      exact hnew
  | operator hop x y span =>
      cases n with
      | zero => exact nofun
      | succ n =>
          have hQ {m m₁ m' : Machine H} {v : Value} (h : m.KeepsLists m₁)
              (hv : m₁.SharesNone v m') : m.SharesNone v m' :=
            fun l hl => (hv l hl).of_keepsLists h
          refine .behind hQ (visit_keepsLists n x env) fun a =>
            .behind hQ (visit_keepsLists n y env) fun b m v m' h l hl => ?_
          obtain ⟨w, m₁, hw, hret⟩ := ok_of_bind h
          cases hret
          obtain ⟨s, ho, rfl⟩ := Eval.ok_of_operation hw
          refine (Operation.binary_computes _ a b).new_list ?_ ho hl
          rintro rfl
          simp at hop

/-! ## Shared lists -/

namespace Store

variable (s : Store)

theorem lookup_of_table {scope : Scope} {x : String} {v : Value}
    (h : (s.table scope.table)[x]? = some v) : s.lookup scope x = some v := by
  simp only [lookup, Scope.chain, lookupIn, h]

theorem lookup_bind (scope : Scope) (x : String) (v : Value)
    (h : scope.table < s.tables.size) : (s.bind scope x v).lookup scope x = some v := by
  apply lookup_of_table
  rw [table_bind_getElem?, if_pos ⟨rfl, h, rfl⟩]

theorem table_bindAll_of_notMem (scope : Scope) {x : String} {xs : List String} (hx : x ∉ xs)
    (vs : List Value) (t : Nat) :
    ((s.bindAll scope xs vs).table t)[x]? = (s.table t)[x]? := by
  induction xs generalizing s vs with
  | nil => rfl
  | cons y ys ih =>
      rw [List.mem_cons, not_or] at hx
      obtain ⟨hne, hys⟩ := hx
      cases vs with
      | nil => rfl
      | cons v vs => rw [bindAll, ih _ hys, table_bind_getElem?, if_neg fun h => hne h.2.2.symm]

/-- The last of the values bound to a name is the one it has. -/
theorem lookup_bindAll {scope : Scope} (hscope : scope.table < s.tables.size) {xs : List String}
    {vs : List Value} {i : Nat} {x : String} {v : Value} (hx : xs[i]? = some x)
    (hv : vs[i]? = some v) (hlast : x ∉ xs.drop (i + 1)) :
    (s.bindAll scope xs vs).lookup scope x = some v := by
  apply lookup_of_table
  induction xs generalizing s vs i with
  | nil => cases hx
  | cons y ys ih =>
      cases vs with
      | nil => cases hv
      | cons w ws =>
          cases i with
          | zero =>
              cases hx
              cases hv
              have hlast : x ∉ ys := hlast
              rw [bindAll, table_bindAll_of_notMem _ _ hlast, table_bind_getElem?,
                if_pos ⟨rfl, hscope, rfl⟩]
          | succ i => exact ih (s.bind scope y w) (by simpa [bind] using hscope) hx hv hlast

/-- A change to a list is seen by all that hold it, and by no others. -/
theorem contents_modifyList {l : ListRef} (hl : l.index < s.lists.size)
    (f : Array Value → Array Value) (v : Value) :
    (s.modifyList l f).contents v =
      if v.list? = some l then (s.contents v).map f else s.contents v := by
  unfold contents
  cases hv : v.list? with
  | none => simp
  | some l' =>
      by_cases heq : l' = l
      · subst heq
        simp [elements, modifyList, Array.getElem?_modify, Array.getElem?_eq_getElem hl]
      · have hindex : l.index ≠ l'.index := by
          rintro h
          cases l
          cases l'
          exact heq (congrArg ListRef.mk h.symm)
        simp [elements, modifyList, Array.getElem?_modify, hindex, heq]

end Store

/-- What only passes a list on yields the list itself, so that a change is seen through all its
holders. -/
structure PassesOn (H : Type) [Host H] (n : Nat) : Prop where
  ident {x : String} {span : Span} {env : Env} {m m' : Machine H} {v : Value}
    (h : visit (n + 1) (.ident x span) env m = .ok v m') :
    m' = m ∧ ∃ w, m.store.lookup env.scope x = some w ∧ v.datum = w.datum
  declaration {tag : Tag} {x : String} {node : Node} {span : Span} {env : Env} {m m' : Machine H}
    {v : Value} (h : visit (n + 1) (.declaration tag x node span) env m = .ok v m') :
    ∃ m₁, visit n node env m = .ok v m₁ ∧
      (env.scope.table < m₁.store.tables.size → m'.store.lookup env.scope x = some v)
  returned {node : Node} {env : Env} {m m' : Machine H} {v : Value} (span : Span)
    (h : visit n node env m = .ok v m') :
    visit (n + 1) (.returnWith (some node) span) env m = .error (.returned v) m'
  call {callee : Node} {args : List Node} {span : Span} {env : Env} {m m' : Machine H} {v : Value}
    (h : visit (n + 1) (.call callee args span) env m = .ok v m') :
    ∃ f m₁ values m₂ w, visit n callee env m = .ok f m₁ ∧
      Visit.all (visit n) env [] args m₁ = .ok values m₂ ∧
      Visit.apply (visit n) (f.withSpan span) values m₂ = .ok w m' ∧ v.datum = w.datum
  body {callee : Value} {f : Closure} {args : List Value} {m m' : Machine H} {v : Value}
    (hcallee : callee.datum = .function f)
    (h : Visit.apply (visit n) callee args m = .ok v m') :
    ∃ (scope : Scope) (m₁ m₂ : Machine H), m'.store = m₂.store ∧
      (∀ i x w, f.params[i]? = some x → args[i]? = some w → x ∉ f.params.drop (i + 1) →
        m₁.store.lookup scope x = some w) ∧
      (visit n f.body ⟨scope, Visit.entered callee f.name⟩ m₁ = .error (.returned v) m₂ ∨
        (∃ w, visit n f.body ⟨scope, Visit.entered callee f.name⟩ m₁ = .ok w m₂ ∧
          v = if f.arrow then w else .null))
  element {x y : Node} {span : Span} {env : Env} {m m' : Machine H} {v : Value}
    (h : visit (n + 1) (.binary .divide x y span) env m = .ok v m') :
    ∃ a m₁, visit n x env m = .ok a m₁ ∧ ∀ l, a.datum = .list l →
      ∃ (p : Nat) (w : Value), (m'.store.elements l)[p]? = some w ∧ v.datum = w.datum
  append {callee a w : Value} {m m' : Machine H} {v : Value}
    (hcallee : callee.datum = .builtin .append) (ha : a.Present m.store)
    (h : Visit.apply (visit n) callee [a, w] m = .ok v m') (holder : Value) :
    m'.store.contents holder = if holder.list? = a.list? then
      (m.store.contents holder).map (·.push w) else m.store.contents holder
  pop {callee a i : Value} {m m' : Machine H} {v : Value}
    (hcallee : callee.datum = .builtin .pop) (ha : a.Present m.store)
    (h : Visit.apply (visit n) callee [a, i] m = .ok v m') :
    ∃ p : Nat, (m.store.contents a).bind (·[p]?) = some v ∧ ∀ holder : Value,
      m'.store.contents holder = if holder.list? = a.list? then
        (m.store.contents holder).map (·.eraseIdxIfInBounds p) else m.store.contents holder
  extend {callee a b : Value} {m m' : Machine H} {v : Value}
    (hcallee : callee.datum = .builtin .extend) (ha : a.Present m.store)
    (h : Visit.apply (visit n) callee [a, b] m = .ok v m') :
    ∃ added, m.store.contents b = some added ∧ ∀ holder : Value,
      m'.store.contents holder = if holder.list? = a.list? then
        (m.store.contents holder).map (· ++ added) else m.store.contents holder

namespace Visit

variable {span : Span} {env : Env} {m m' : Machine H} {v : Value} {self : Visit H}

theorem ident_passes {x : String} (h : ident env x span m = .ok v m') :
    m' = m ∧ ∃ w, m.store.lookup env.scope x = some w ∧ v.datum = w.datum := by
  obtain ⟨w, m₁, hw, h⟩ := ok_of_bind h
  have hlookup : m.store.lookup env.scope x = w ∧ m = m₁ := by
    cases hw
    exact ⟨rfl, rfl⟩
  obtain ⟨hlookup, rfl⟩ := hlookup
  cases w with
  | none => cases h
  | some w =>
      cases h
      exact ⟨rfl, w, hlookup, rfl⟩

theorem declaration_passes {tag : Tag} {x : String} {node : Node}
    (h : declaration self env tag x node span m = .ok v m') :
    ∃ m₁, self node env m = .ok v m₁ ∧
      (env.scope.table < m₁.store.tables.size → m'.store.lookup env.scope x = some v) := by
  obtain ⟨w, m₁, hw, hrest⟩ := ok_of_bind h
  by_cases htag : w.datum.conforms tag
  · rw [if_pos htag] at hrest
    obtain ⟨⟨⟩, m₂, hbind, hret⟩ := ok_of_bind hrest
    cases hbind
    cases hret
    exact ⟨m₁, hw, fun hscope => Store.lookup_bind _ _ _ _ hscope⟩
  · rw [if_neg htag] at hrest
    cases hrest

/-- The parameters of a function are bound to the arguments themselves. -/
theorem lookup_bodyMachine (callee : Value) {f : Closure} {args : List Value} {i : Nat}
    {x : String} {w : Value} (hx : f.params[i]? = some x) (hw : args[i]? = some w)
    (hlast : x ∉ f.params.drop (i + 1)) :
    (bodyMachine f args m).store.lookup (bodyEnv callee f m).scope x = some w := by
  refine Store.lookup_bindAll _ ?_ hx hw hlast
  show m.store.tables.size < (m.store.tables.push _).size
  rw [Array.size_push]
  exact Nat.lt_succ_self _

theorem call_passes [Host H] {callee : Node} {args : List Node}
    (h : call self env callee args span m = .ok v m') :
    ∃ f m₁ values m₂ w, self callee env m = .ok f m₁ ∧
      all self env [] args m₁ = .ok values m₂ ∧
      apply self (f.withSpan span) values m₂ = .ok w m' ∧ v.datum = w.datum := by
  obtain ⟨f, m₁, hf, h⟩ := ok_of_bind h
  obtain ⟨values, m₂, hvalues, h⟩ := ok_of_bind h
  obtain ⟨w, m₃, hw, h⟩ := ok_of_bind h
  cases h
  exact ⟨f, m₁, values, m₂, w, hf, hvalues, Eval.ok_of_ofRun hw, rfl⟩

end Visit

theorem resolveIndex_lt {length p : Nat} {i : Int} (h : resolveIndex length i = some p) :
    p < length := by
  simp only [resolveIndex, Option.ite_none_right_eq_some, Option.some.injEq] at h
  omega

/-- The position that an index means is one of the list. -/
theorem getElem?_of_resolveIndex {xs : Array Value} {p : Nat} {i : Int}
    (h : resolveIndex xs.size i = some p) : xs[p]? = some (xs[p]?.getD default) := by
  rw [Array.getElem?_eq_getElem (resolveIndex_lt h)]
  rfl

theorem Operation.resolveIndex_of_position {a b : Value} {length p : Nat} {n : Number}
    {verb : String} {s s' : Store} (h : position a b length n verb s = .ok p s') :
    s' = s ∧ ∃ i, resolveIndex length i = some p := by
  obtain ⟨span, message, -, hrefused⟩ | ⟨q, hq, hi⟩ := position_cases a b length n verb s
  · rw [hrefused] at h
    cases h
  · rw [hq] at h
    cases h
    exact ⟨rfl, hi⟩

/-- What is taken from a list is one of its elements. -/
theorem Operation.divide_passes {a b v : Value} {s s' : Store} {l : ListRef}
    (ha : a.datum = .list l) (h : divide a b s = .ok v s') :
    s' = s ∧ ∃ p : Nat, (s.elements l)[p]? = some v := by
  unfold divide at h
  rw [ha] at h
  cases hb : b.datum with
  | number y =>
      rw [hb] at h
      obtain ⟨xs, s₁, hxs, h⟩ := ok_of_bind h
      cases hxs
      obtain ⟨p, s₂, hp, h⟩ := ok_of_bind h
      obtain ⟨rfl, i, hi⟩ := resolveIndex_of_position hp
      cases h
      exact ⟨rfl, p, getElem?_of_resolveIndex hi⟩
  | _ =>
      rw [hb] at h
      cases h

namespace Builtin

variable {site : CallSite} {a v w : Value} {m m' : Machine H}

theorem list?_of_listArg {which : String} {l : ListRef}
    (h : listArg site which a m = .ok l m') : a.list? = some l ∧ m' = m := by
  unfold listArg at h
  cases hl : a.list? with
  | none =>
      rw [hl] at h
      cases h
  | some k =>
      rw [hl] at h
      cases h
      exact ⟨rfl, rfl⟩

theorem popAt_passes {l : ListRef} {n : Number} (h : popAt site l n m = .ok v m') :
    ∃ p : Nat, (m.store.elements l)[p]? = some v ∧
      m'.store = m.store.modifyList l (·.eraseIdxIfInBounds p) := by
  obtain ⟨xs, m₁, hxs, hrest⟩ := ok_of_bind h
  have hinspect : m.store.elements l = xs ∧ m = m₁ := by
    cases hxs
    exact ⟨rfl, rfl⟩
  obtain ⟨rfl, rfl⟩ := hinspect
  cases hp : n.toInt?.bind (resolveIndex (m.store.elements l).size) with
  | none =>
      rw [hp] at hrest
      cases hrest
  | some p =>
      rw [hp] at hrest
      obtain ⟨⟨⟩, m₂, hchange, hret⟩ := ok_of_bind hrest
      cases hchange
      cases hret
      obtain ⟨i, -, hi⟩ := Option.bind_eq_some_iff.mp hp
      exact ⟨p, getElem?_of_resolveIndex hi, rfl⟩

variable [Host H] {runSource : Source → Run H Value}

theorem append_passes (h : append.execute runSource site [a, w] m = .ok v m') :
    ∃ l, a.list? = some l ∧ m'.store = m.store.modifyList l (·.push w) := by
  obtain ⟨l, m₁, harg, hrest⟩ := ok_of_bind h
  obtain ⟨hl, rfl⟩ := list?_of_listArg harg
  obtain ⟨⟨⟩, m₂, hchange, hret⟩ := ok_of_bind hrest
  cases hchange
  cases hret
  exact ⟨l, hl, rfl⟩

theorem extend_passes (h : extend.execute runSource site [a, w] m = .ok v m') :
    ∃ l k, a.list? = some l ∧ w.list? = some k ∧
      m'.store = m.store.modifyList l (· ++ m.store.elements k) := by
  obtain ⟨l, m₁, harg, hrest⟩ := ok_of_bind h
  obtain ⟨hl, rfl⟩ := list?_of_listArg harg
  obtain ⟨k, m₂, hadded, hjoin⟩ := ok_of_bind hrest
  obtain ⟨hk, rfl⟩ := list?_of_listArg hadded
  obtain ⟨xs, m₃, hxs, hset⟩ := ok_of_bind hjoin
  cases hxs
  obtain ⟨⟨⟩, m₄, hchange, hret⟩ := ok_of_bind hset
  cases hchange
  cases hret
  exact ⟨l, k, hl, hk, rfl⟩

theorem pop_passes (h : pop.execute runSource site [a, w] m = .ok v m') :
    ∃ l, ∃ p : Nat, a.list? = some l ∧ (m.store.elements l)[p]? = some v ∧
      m'.store = m.store.modifyList l (·.eraseIdxIfInBounds p) := by
  obtain ⟨l, m₁, harg, hrest⟩ := ok_of_bind h
  obtain ⟨hl, rfl⟩ := list?_of_listArg harg
  cases hw : w.number? with
  | none =>
      rw [hw] at hrest
      cases hrest
  | some n =>
      rw [hw] at hrest
      obtain ⟨p, hp, hstore⟩ := popAt_passes hrest
      exact ⟨l, p, hl, hp, hstore⟩

end Builtin

theorem Value.datum_of_list? {v : Value} {l : ListRef} (h : v.list? = some l) :
    v.datum = .list l := by
  unfold list? at h
  split at h
  · cases h
    assumption
  · cases h

/-- One holder's change is that of all. -/
theorem Store.contents_of_change {s s' : Store} {a : Value} {l : ListRef}
    {f : Array Value → Array Value} (ha : a.Present s) (hl : a.list? = some l)
    (h : s' = s.modifyList l f) (holder : Value) :
    s'.contents holder =
      if holder.list? = a.list? then (s.contents holder).map f else s.contents holder := by
  rw [h, hl]
  exact s.contents_modifyList (ha l (Value.datum_of_list? hl)) f holder

theorem visit_passesOn [Host H] (n : Nat) : PassesOn H n where
  ident h := Visit.ident_passes h
  declaration h := Visit.declaration_passes h
  returned span h := (bind_of_ok h).trans rfl
  call h := Visit.call_passes h
  body {callee f args m m' v} hcallee h := by
    obtain ⟨m₁, hm', hbody⟩ := Visit.body_of_apply hcallee h
    exact ⟨(Visit.bodyEnv callee f m).scope,
      Visit.bodyMachine f args { m with depth := m.depth + 1 }, m₁, by rw [hm'],
      fun i x w => Visit.lookup_bodyMachine callee, hbody⟩
  element {x y span env m m' v} h := by
    obtain ⟨a, m₁, b, m₂, w, s, ha, -, ho, rfl, rfl⟩ := Visit.ok_of_binary h
    refine ⟨a, m₁, ha, fun l hl => ?_⟩
    obtain ⟨rfl, p, hp⟩ := Operation.divide_passes hl ho
    exact ⟨p, w, hp, rfl⟩
  append hcallee ha h holder := by
    obtain ⟨m₁, rfl, hexecute⟩ := Visit.execute_of_apply hcallee h
    obtain ⟨l, hl, hstore⟩ := Builtin.append_passes hexecute
    exact Store.contents_of_change ha hl hstore holder
  pop {callee a i m m' v} hcallee ha h := by
    obtain ⟨m₁, rfl, hexecute⟩ := Visit.execute_of_apply hcallee h
    obtain ⟨l, p, hl, hp, hstore⟩ := Builtin.pop_passes hexecute
    refine ⟨p, ?_, Store.contents_of_change ha hl hstore⟩
    rw [Store.contents, hl]
    exact hp
  extend hcallee ha h := by
    obtain ⟨m₁, rfl, hexecute⟩ := Visit.execute_of_apply hcallee h
    obtain ⟨l, k, hl, hk, hstore⟩ := Builtin.extend_passes hexecute
    refine ⟨_, ?_, Store.contents_of_change ha hl hstore⟩
    rw [Store.contents, hk]
    rfl

/-- Lists that are there change through `append`, `pop` and `extend` only. A list that is computed
is new, each time, and one that is passed on is the same, so that a change is seen through all its
holders. -/
theorem lists_change_through_builtins (H : Type) [Host H] (n : Nat) :
    (∀ node env (m : Machine H), m.KeepsLists (Machine.ofResult (visit n node env m))) ∧
    (∀ node env (m m' : Machine H) v, node.MakesList → visit n node env m = .ok v m' →
      ∃ l, v.datum = .list l) ∧
    (∀ node env (m m' : Machine H) v, node.ComputesList → visit n node env m = .ok v m' →
      ∀ l, v.datum = .list l → l.NewSince m m') ∧
    (∀ (x y : Node) env env' (m m₁ m₂ m' : Machine H) v w l, x.ComputesList → y.ComputesList →
      visit n x env m = .ok v m₁ → m₁.KeepsLists m₂ → visit n y env' m₂ = .ok w m' →
      v.datum = .list l → w.datum ≠ .list l) ∧
    PassesOn H n := by
  refine ⟨visit_keepsLists n, fun node env m m' v hnode hv => ?_,
    fun node env m m' v hnode => visit_sharesNone n hnode env m v m', ?_, visit_passesOn n⟩
  · obtain ⟨l, hl, -⟩ := visit_makes n hnode env m v m' hv
    exact ⟨l, hl⟩
  · intro x y env env' m m₁ m₂ m' v w l hx hy hv hkeeps hw hvl hwl
    have hold := (visit_sharesNone n hx env m v m₁ hv l hvl).2
    have hnew := (visit_sharesNone n hy env' m₂ w m' hw l hwl).1
    have hle := hkeeps.1
    omega

end BasicScript
