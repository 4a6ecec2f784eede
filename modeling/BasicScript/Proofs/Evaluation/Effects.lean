import BasicScript.Proofs.Console.Asking
import BasicScript.Proofs.Data.Indexing
import BasicScript.Proofs.Evaluation.Lists

/-! # What the built-in functions do

Each function other than `RUN` does one thing to one list or to the host, or is refused and does
nothing. A host in memory shows all of it. -/

namespace BasicScript

/-! ## Effects -/

/-- The list `l` comes to hold `xs`; no other list changes and none is made. -/
structure Store.Changes (s : Store) (l : ListRef) (xs : List Value) (s' : Store) : Prop
    extends s.Sets l xs s' where
  size : s'.lists.size = s.lists.size

theorem Store.modifyList_changes (s : Store) {l : ListRef} (hl : l.index < s.lists.size)
    (f : Array Value → Array Value) :
    s.Changes l (f (s.elements l)).toList (s.modifyList l f) :=
  ⟨s.modifyList_sets hl f, Array.size_modify⟩

namespace Builtin

/-- What a built-in function other than `RUN` does to a machine, given its arguments, and the value
that it yields. -/
inductive Does (m : Machine MemoryHost) : Builtin → List Value → Value → Machine MemoryHost → Prop
  | print (v : Value) : Does m print [v] .null
      { m with host := { m.host with output := m.host.output.push (m.store.display v) } }
  | printRet (v : Value) : Does m printRet [v] (.ofText (m.store.display v)) m
  | input {line : String} {rest : List String} (h : m.host.input = line :: rest) :
      Does m input [] (.ofText line) { m with host := { m.host with input := rest } }
  | inputNum {refused rest : List String} {line : String} {x : Number}
      (h : m.host.input = refused ++ line :: rest)
      (hrefused : ∀ l ∈ refused, Number.ofText? l = none) (hx : Number.ofText? line = some x) :
      Does m inputNum [] (.ofNumber x) { m with host := m.host.afterRefusing refused rest }
  | clear : Does m clear [] .null { m with host := { m.host with clears := m.host.clears + 1 } }
  | isNum (v : Value) : Does m isNum [v] (.ofBool v.number?.isSome) m
  | isStr (v : Value) : Does m isStr [v] (.ofBool v.text?.isSome) m
  | isList (v : Value) : Does m isList [v] (.ofBool v.list?.isSome) m
  | isFun (v : Value) : Does m isFun [v] (.ofBool v.datum.isCallable) m
  | append {a v : Value} {l : ListRef} {store : Store} (ha : a.datum = .list l)
      (h : m.store.Changes l ((m.store.elements l).toList ++ [v]) store) :
      Does m append [a, v] .null { m with store }
  | pop {a i v : Value} {l : ListRef} {n : Number} {p : Nat} {store : Store}
      (ha : a.datum = .list l) (hi : i.datum = .number n)
      (hp : n.Indexes (m.store.elements l).size p) (hv : (m.store.elements l)[p]? = some v)
      (h : m.store.Changes l ((m.store.elements l).toList.eraseIdx p) store) :
      Does m pop [a, i] v { m with store }
  | extend {a b : Value} {l k : ListRef} {store : Store} (ha : a.datum = .list l)
      (hb : b.datum = .list k)
      (h : m.store.Changes l ((m.store.elements l).toList ++ (m.store.elements k).toList) store) :
      Does m extend [a, b] .null { m with store }
  | len {a : Value} {l : ListRef} (ha : a.datum = .list l) :
      Does m len [a] (.ofInt (Int64.ofNat (m.store.elements l).size)) m

/-- What a built-in function leaves when it is refused: all as it was, but for the lines that
`input_num` has refused itself. -/
inductive Leaves (m : Machine MemoryHost) : Builtin → List Value → Machine MemoryHost → Prop
  | untouched {b : Builtin} {args : List Value} (h : b = inputNum → args ≠ []) : Leaves m b args m
  | noNumber (h : ∀ l ∈ m.host.input, Number.ofText? l = none) :
      Leaves m inputNum [] { m with host := m.host.afterRefusing m.host.input [] }

/-- A call either does what the function is for, or fails and leaves all as it was. -/
def HasEffectOrNone (m : Machine MemoryHost) (b : Builtin) (args : List Value) :
    EStateM.Result Halt (Machine MemoryHost) Value → Prop
  | .ok v m' => b.Does m args v m'
  | .error (.failure _) m' => b.Leaves m args m'
  | .error _ _ => False

variable {m m' : Machine MemoryHost} {b : Builtin} {args : List Value} {v : Value}
  {runSource : Source → Run MemoryHost Value} {site : CallSite}

theorem input_of_cons {line : String} {rest : List String} (h : m.host.input = line :: rest) :
    input.execute runSource site [] m =
      .ok (.ofText line) { m with host := { m.host with input := rest } } := by
  have hask : (Run.ask site.hostFailure Host.readLine : Run MemoryHost _) m =
      .ok line { m with host := { m.host with input := rest } } := by
    rw [Run.ask, MemoryHost.readLine_cons h]
  rw [execute, bind_of_ok hask]
  rfl

theorem input_effect : HasEffectOrNone m input [] (input.execute runSource site [] m) := by
  cases hinput : m.host.input with
  | nil =>
      have hask : (Run.ask site.hostFailure Host.readLine : Run MemoryHost _) m =
          .error (.failure (site.hostFailure .endOfInput)) m := by
        rw [Run.ask, MemoryHost.readLine_nil hinput]
      rw [execute, bind_of_error hask]
      exact .untouched fun h => absurd h (by decide)
  | cons line rest =>
      rw [input_of_cons hinput]
      exact .input hinput

theorem inputNum_of_number {refused rest : List String} {line : String} {x : Number}
    (h : m.host.input = refused ++ line :: rest)
    (hrefused : ∀ l ∈ refused, Number.ofText? l = none) (hx : Number.ofText? line = some x) :
    inputNum.execute runSource site [] m =
      .ok (.ofNumber x) { m with host := m.host.afterRefusing refused rest } := by
  have hask : (Run.ask site.hostFailure Host.readNumber : Run MemoryHost _) m =
      .ok x { m with host := m.host.afterRefusing refused rest } := by
    rw [Run.ask, MemoryHost.readNumber_of_number h hrefused hx]
  rw [execute, bind_of_ok hask]
  rfl

theorem inputNum_effect :
    HasEffectOrNone m inputNum [] (inputNum.execute runSource site [] m) := by
  obtain ⟨refused, line, rest, x, hinput, hrefused, hx⟩ | hnone :=
    Number.first_line m.host.input
  · rw [inputNum_of_number hinput hrefused hx]
    exact .inputNum hinput hrefused hx
  · have hask : (Run.ask site.hostFailure Host.readNumber : Run MemoryHost _) m =
        .error (.failure (site.hostFailure .endOfInput))
          { m with host := m.host.afterRefusing m.host.input [] } := by
      rw [Run.ask, MemoryHost.readNumber_of_none hnone]
    rw [execute, bind_of_error hask]
    exact .noNumber hnone

/-- A function that takes a list is refused when it gets none. -/
theorem listArg_effect {which : String} {a : Value} {f : ListRef → Run MemoryHost Value}
    (h : b = inputNum → args ≠ [])
    (hf : ∀ l, a.datum = .list l → HasEffectOrNone m b args (f l m)) :
    HasEffectOrNone m b args ((listArg site which a >>= f) m) := by
  unfold listArg
  cases hl : a.list? with
  | none => exact .untouched h
  | some l => exact hf l (Value.datum_of_list? hl)

theorem append_effect {a v : Value} (ha : a.Present m.store) :
    HasEffectOrNone m append [a, v] (append.execute runSource site [a, v] m) := by
  rw [execute]
  refine listArg_effect (fun h => absurd h (by decide)) fun l hl => ?_
  have hchanges := m.store.modifyList_changes (ha l hl) (·.push v)
  rw [Array.toList_push] at hchanges
  exact .append hl hchanges

theorem pop_effect {a i : Value} :
    HasEffectOrNone m pop [a, i] (pop.execute runSource site [a, i] m) := by
  rw [execute]
  refine listArg_effect (fun h => absurd h (by decide)) fun l ha => ?_
  unfold Value.number?
  split
  case h_1 n hi =>
      change HasEffectOrNone m pop [a, i] (popAt site l n m)
      cases hp : n.toInt?.bind (resolveIndex (m.store.elements l).size) with
      | none =>
          obtain ⟨d, hd⟩ : ∃ d, popAt site l n m = .error (.failure d) m := popAt_of_none hp
          rw [hd]
          exact .untouched fun h => absurd h (by decide)
      | some p =>
          have hindex := (n.bind_resolveIndex_eq_some_iff _ p).mp hp
          have hv := Array.getElem?_eq_getElem hindex.lt
          have hchanges := m.store.modifyList_changes (m.store.present_of_lt hindex.lt)
            (·.eraseIdxIfInBounds p)
          rw [eraseIdxIfInBounds_toList] at hchanges
          rw [popAt_of_some hp hv]
          exact .pop ha hi hindex hv hchanges
  case h_2 => exact .untouched fun h => absurd h (by decide)

theorem extend_effect {a b : Value} (ha : a.Present m.store) :
    HasEffectOrNone m extend [a, b] (extend.execute runSource site [a, b] m) := by
  rw [execute]
  refine listArg_effect (fun h => absurd h (by decide)) fun l hl => ?_
  refine listArg_effect (fun h => absurd h (by decide)) fun k hk => ?_
  have hchanges := m.store.modifyList_changes (ha l hl) (· ++ m.store.elements k)
  rw [Array.toList_append] at hchanges
  exact .extend hl hk hchanges

theorem execute_effect (hb : b ≠ run) (hargs : ∀ a ∈ args, a.Present m.store) :
    HasEffectOrNone m b args (b.execute runSource site args m) := by
  fun_cases execute runSource site b args
  case case1 v => exact .print v
  case case2 v => exact .printRet v
  case case3 => exact @input_effect m runSource site
  case case4 => exact @inputNum_effect m runSource site
  case case5 => exact .clear
  case case6 v => exact .isNum v
  case case7 v => exact .isStr v
  case case8 v => exact .isList v
  case case9 v => exact .isFun v
  case case10 a v => exact @append_effect m runSource site a v (hargs a List.mem_cons_self)
  case case11 a i => exact @pop_effect m runSource site a i
  case case12 a b => exact @extend_effect m runSource site a b (hargs a List.mem_cons_self)
  case case13 a => exact listArg_effect (fun h => absurd h (by decide)) fun l hl => .len hl
  case case14 | case15 => exact absurd rfl hb
  case case16 hinputNum _ _ _ _ _ _ _ _ _ _ => exact .untouched hinputNum

theorem listArg_of_list {which : String} {a : Value} {l : ListRef} (ha : a.datum = .list l)
    (f : ListRef → Run MemoryHost Value) : (listArg site which a >>= f) m = f l m := by
  rw [listArg, Value.list?, ha]
  rfl

/-- What a function can do, it does. -/
theorem Does.execute_eq (h : b.Does m args v m') :
    ∃ m₁, b.execute runSource site args m = .ok v m₁ := by
  cases h with
  | print | printRet | clear | isNum | isStr | isList | isFun => exact ⟨_, rfl⟩
  | input hinput => exact ⟨_, input_of_cons hinput⟩
  | inputNum hinput hrefused hx => exact ⟨_, inputNum_of_number hinput hrefused hx⟩
  | append ha => exact ⟨_, (listArg_of_list ha _).trans rfl⟩
  | pop ha hi hp hv =>
      have hposition := (Number.bind_resolveIndex_eq_some_iff _ _ _).mpr hp
      exact ⟨_, (pop_of_number ha hi).trans (popAt_of_some hposition hv)⟩
  | extend ha hb => exact ⟨_, (listArg_of_list ha _).trans ((listArg_of_list hb _).trans rfl)⟩
  | len ha => exact ⟨_, (listArg_of_list ha _).trans rfl⟩

/-- Every built-in function other than `RUN` has exactly its effect, wherever that is possible, and
none otherwise. The lists among its arguments may be the same, or hold each other. -/
theorem effect_or_none (runSource : Source → Run MemoryHost Value) (site : CallSite)
    (m : Machine MemoryHost) (b : Builtin) (hb : b ≠ run) (args : List Value)
    (hargs : ∀ a ∈ args, a.Present m.store) :
    (∃ v m', b.execute runSource site args m = .ok v m' ∧ b.Does m args v m') ∨
    (∃ d m', b.execute runSource site args m = .error (.failure d) m' ∧ b.Leaves m args m') ∧
      ∀ v m', ¬ b.Does m args v m' := by
  have heffect : HasEffectOrNone m b args (b.execute runSource site args m) :=
    execute_effect hb hargs
  cases hresult : b.execute runSource site args m with
  | ok v m' =>
      rw [hresult] at heffect
      exact .inl ⟨v, m', rfl, heffect⟩
  | error e m' =>
      rw [hresult] at heffect
      cases e with
      | failure d =>
          refine .inr ⟨⟨d, m', rfl, heffect⟩, fun v m₁ hdoes => ?_⟩
          obtain ⟨m₂, hok⟩ : ∃ m₂, b.execute runSource site args m = .ok v m₂ := hdoes.execute_eq
          cases hresult.symm.trans hok
      | awaits | outOfFuel => exact heffect.elim

/-- A list that holds itself is put at its own end. -/
theorem effect_or_none_itself :
    let l : ListRef := ⟨0⟩
    let a : Value := .plain (.list l)
    let m : Machine MemoryHost := ⟨⟨#[{}], #[#[.null, a]]⟩, .ofInput [] [], 0, []⟩
    (extend ≠ run ∧ ∀ v ∈ [a, a], v.Present m.store) ∧
    ∃ m', extend.execute (Session.run 0) default [a, a] m = .ok .null m' ∧
      (m'.store.elements l).toList = [.null, a, .null, a] ∧ m'.host = m.host := by
  intro l a m
  have hpresent : ∀ v ∈ [a, a], v.Present m.store := by
    rintro v hv k hk
    obtain rfl : v = a := by simpa using hv
    cases hk
    decide
  refine ⟨⟨nofun, hpresent⟩, ?_⟩
  obtain ⟨v, m', hok, hdoes⟩ | ⟨-, hnone⟩ :=
    effect_or_none (Session.run 0) default m extend nofun [a, a] hpresent
  · cases hdoes with
    | extend ha hb hchanges =>
        cases ha
        cases hb
        exact ⟨_, hok, hchanges.elements, rfl⟩
  · exact absurd (.extend rfl rfl (m.store.modifyList_changes (by decide) fun _ =>
      #[.null, a, .null, a])) (hnone _ _)

end Builtin

end BasicScript
