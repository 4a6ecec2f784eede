import BasicScript.Proofs.Data.Rendering
import BasicScript.Proofs.Evaluation.Places
import BasicScript.Proofs.Evaluation.Soundness
import BasicScript.Proofs.Evaluation.UpholdingCalls
import BasicScript.Proofs.Program.Parts

/-! # Programs without loops end

Only a loop or a call can make an evaluation go on. Each call leaves one call less to be made inside
it, and the bodies and programs that can be entered are bounded in size, so without loops the
evaluation ends. -/

namespace BasicScript

/-- There is no loop in the tree, and none in the bodies of its functions. -/
inductive Node.LoopFree : Node → Prop
  | mk {x : Node} (hx : x.isLoop = false) (hparts : ∀ y ∈ x.parts, LoopFree y) : LoopFree x

/-- A failure, and not that there is no fuel left or an answer is missing. -/
def Halt.IsFailure (h : Halt) : Prop :=
  ∃ d, h = .failure d

variable {H α : Type}

/-- There is a value or a failure. -/
def Run.Concludes : EStateM.Result Halt (Machine H) α → Prop
  | .ok _ _ => True
  | .error h _ => h.IsFailure

/-- There is a value, a failure or a signal. -/
def Eval.Concludes : EStateM.Result Interrupt (Machine H) α → Prop
  | .ok _ _ => True
  | .error (.halt h) _ => h.IsFailure
  | .error _ _ => True

section

variable {I : Machine H → Prop} {Q : α → Prop} {m : Machine H}

theorem Run.ends_of_endsIn {f : Nat → Run H α} {n : Nat}
    (hr : EndsIn I Q Halt.IsFailure (f n m)) : ∃ r, Ends .outOfFuel f m r ∧ Run.Concludes r := by
  cases heq : f n m with
  | ok a m₁ => exact ⟨_, ⟨n, heq, nofun⟩, trivial⟩
  | error e m₁ =>
      rw [heq] at hr
      obtain ⟨d, rfl⟩ := hr.2
      exact ⟨_, ⟨n, heq, nofun⟩, d, rfl⟩

theorem Eval.ends_of_endsIn {C : Closure → Prop} {f : Nat → Eval H α} {n : Nat}
    (hr : EndsIn I Q (Interrupt.Upholds C Halt.IsFailure) (f n m)) :
    ∃ r, Ends .spent f m r ∧ Eval.Concludes r := by
  cases heq : f n m with
  | ok a m₁ => exact ⟨_, ⟨n, heq, nofun⟩, trivial⟩
  | error i m₁ =>
      rw [heq] at hr
      cases i with
      | halt h =>
          obtain ⟨d, rfl⟩ := hr.2
          exact ⟨_, ⟨n, heq, nofun⟩, d, rfl⟩
      | _ => exact ⟨_, ⟨n, heq, nofun⟩, trivial⟩

end

namespace Node

/-- A tree without loops of no more than a size. -/
def Small (bound : Nat) (x : Node) : Prop :=
  x.LoopFree ∧ sizeOf x ≤ bound

theorem Small.part {bound : Nat} {x y : Node} (h : x.Small bound) (hy : y ∈ x.parts) :
    y.Small bound := by
  obtain ⟨⟨-, hparts⟩, hsize⟩ := h
  have hlt := sizeOf_part_lt hy
  exact ⟨hparts y hy, by omega⟩

end Node

/-- The fuel that is enough for a node at a depth: for each call that can still be made inside, as
much as a body may need. -/
noncomputable def fuelFor (bound depth : Nat) (x : Node) : Nat :=
  (maxDepth - depth) * (bound + 1) + sizeOf x

theorem fuelFor_part {bound depth : Nat} {x y : Node} (hy : y ∈ x.parts) :
    fuelFor bound depth y < fuelFor bound depth x :=
  Nat.add_lt_add_left (Node.sizeOf_part_lt hy) _

/-- A body that is entered needs less than the node that calls it. -/
theorem fuelFor_body {bound depth : Nat} {x y : Node} (hdepth : depth < maxDepth)
    (hy : sizeOf y ≤ bound) : fuelFor bound (depth + 1) y < fuelFor bound depth x := by
  have hcalls : maxDepth - depth = (maxDepth - (depth + 1)) + 1 := by omega
  unfold fuelFor
  rw [hcalls, Nat.add_mul]
  omega

/-! ## The evaluation of a node -/

section

variable [Host H] {J : H → Prop} {bound : Nat}

/-- With enough fuel a node without loops ends, where all functions and programs at hand are without
loops and within the bound. -/
theorem visit_upholds (hhost : Host.Upholds H J Halt.IsFailure (Node.Small bound)) {n depth : Nat}
    {x : Node} (hx : x.Small bound) (hn : fuelFor bound depth x < n) (env : Env) {m : Machine H}
    (hm : m.Upholds (·.body.Small bound) J depth) :
    Eval.Upholds (·.body.Small bound) J Halt.IsFailure depth (Value.Closures (·.body.Small bound))
      (visit n x env m) := by
  induction n generalizing x depth env m with
  | zero => exact absurd hn (Nat.not_lt_zero _)
  | succ n ih =>
      have hfail (f : Diagnostic) : Halt.IsFailure (.failure f) := ⟨f, rfl⟩
      have enter {y : Node} {m' : Machine H} (hdepth : depth < maxDepth) (hy : y.Small bound)
          (hm' : m'.Upholds (·.body.Small bound) J (depth + 1)) (env : Env) (trace : Trace)
          {finish : Value → Value} (hfinish : ∀ v, v.Closures (·.body.Small bound) →
            (finish v).Closures (·.body.Small bound)) :
          Run.Upholds (·.body.Small bound) J Halt.IsFailure (depth + 1)
            (Value.Closures (·.body.Small bound)) ((visit n y env).toRun trace finish m') := by
        have hless : fuelFor bound (depth + 1) y < fuelFor bound depth x :=
          fuelFor_body hdepth hy.2
        exact Eval.toRun_upholds (ih hy (by omega) env hm') (fun _ _ f _ => hfail f) trace hfinish
      refine Visit.step_upholds hm (fun y m' hy hm' => ?_) (fun g values m' _ hg hvalues hm' => ?_)
        ?_ (fun f _ => hfail f) fun hloop => ?_
      · have hless : fuelFor bound depth y < fuelFor bound depth x := fuelFor_part hy.mem_parts
        exact ih (hx.part hy.mem_parts) (by omega) env hm'
      · refine Visit.apply_upholds (fun f _ => hfail f) hm' fun hdepth hentered => ?_
        rw [hm'.depth] at hdepth
        refine Visit.enter_upholds (fun f _ => hfail f) hhost hentered hvalues
          (fun f hf _ hbody => ?_) fun v path text _ _ _ htext hscript => ?_
        · refine enter hdepth (hg f hf) hbody _ _ fun v hv => ?_
          split
          · exact hv
          · exact .of_not_function rfl
        · refine EndsIn.imp_error (Visit.runSource_upholds hscript (fun f _ => hfail f) ?_)
            fun _ => .of
          intro y hy hstarted
          exact enter hdepth ((hhost.load hentered.host path).2 text htext y hy) hstarted _ _
            fun _ hv => hv
      · rintro name params body arrow span rfl
        exact hx.part (by simp)
      · obtain ⟨⟨hnone, -⟩, -⟩ := hx
        rw [hnone] at hloop
        cases hloop

end

/-! ## Hosts and bounds -/

/-- What the files of a host in memory hold is bounded, and the host never waits. -/
theorem MemoryHost.upholds {files : List (String × String)} {bound : Nat}
    (hfiles : ∀ path text, files.lookup path = some text →
      ∀ x, Node.ofSource ⟨path, text⟩ = .ok x → x.Small bound) :
    Host.Upholds MemoryHost (·.files = files) Halt.IsFailure (Node.Small bound) where
  writeLine _ _ hh := hh
  clear hh := hh
  readLine {h} hh := by
    obtain ⟨input, output, clears, files⟩ := h
    cases input with
    | nil => exact ⟨hh, fun q hq => by cases hq⟩
    | cons line rest => exact ⟨hh, fun q hq => by cases hq⟩
  load {h} hh path := by
    subst hh
    cases hlookup : h.files.lookup path with
    | none =>
        have hload : Host.load h path = .fault (.missingFile path) := by
          simp only [Host.load, hlookup]
        rw [hload]
        exact ⟨fun q hq => (by cases hq), fun text ht => by cases ht⟩
    | some text =>
        have hload : Host.load h path = .answer text := by
          simp only [Host.load, hlookup]
        rw [hload]
        refine ⟨fun q hq => (by cases hq), fun text' ht => ?_⟩
        cases ht
        exact hfiles path text hlookup

/-- Trees, functions and files without loops are within some bound. -/
theorem Node.exists_small {x : Node} (hx : x.LoopFree) {s : Store}
    (hs : s.Closures (·.body.LoopFree)) {files : List (String × String)}
    (hfiles : ∀ path text, files.lookup path = some text →
      ∀ y, Node.ofSource ⟨path, text⟩ = .ok y → y.LoopFree) :
    ∃ bound, x.Small bound ∧ s.Closures (·.body.Small bound) ∧
      ∀ path text, files.lookup path = some text →
        ∀ y, Node.ofSource ⟨path, text⟩ = .ok y → y.Small bound := by
  let ofFile (file : String × String) : Nat :=
    match Node.ofSource ⟨file.1, file.2⟩ with
    | .ok y => sizeOf y
    | .error _ => 0
  obtain ⟨b, hb⟩ := s.exists_closures_le fun f => sizeOf f.body
  obtain ⟨c, hc⟩ := exists_forall_le ofFile files
  refine ⟨sizeOf x + b + c, ⟨hx, by omega⟩, (hs.and hb).mono fun f hf => ⟨hf.1, ?_⟩, ?_⟩
  · have hle := hf.2
    omega
  · intro path text hlookup y hy
    obtain ⟨front, back, rfl, -⟩ := List.lookup_eq_some_iff.mp hlookup
    have hle := hc (path, text) (by simp)
    simp only [ofFile, hy] at hle
    exact ⟨hfiles path text hlookup y hy, by omega⟩

/-! ## Programs without loops -/

/-- More fuel than there are lists adds nothing to the text of a value. -/
theorem Store.write_eq_render (s : Store) (style : Style) {n : Nat} (hn : s.lists.size < n)
    (v : Value) : s.write style n [] v = s.render style v :=
  (Store.Alike.refl s).write_eq (fun h h' => by rw [h, h']) style .nil (.nil s) (.nil s) hn
    (Nat.lt_succ_self _) (.refl (fun _ => rfl) v)

/-- Where nothing at hand has a loop, the evaluation of a tree ends, and so do its run as a program
and every call, and printing does as well. -/
theorem loopFree_ends {x : Node} (hx : x.LoopFree) {m : Machine MemoryHost}
    (hstore : m.store.Closures (·.body.LoopFree))
    (hfiles : ∀ path text, m.host.files.lookup path = some text →
      ∀ y, Node.ofSource ⟨path, text⟩ = .ok y → y.LoopFree) :
    (∀ env, ∃ r, Ends .spent (fun n => visit n x env) m r ∧ Eval.Concludes r) ∧
    (∀ name, ∃ r, Ends .outOfFuel (fun n => Visit.runProgram (visit n) name x) m r ∧
      Run.Concludes r) ∧
    ∀ style v n, m.store.lists.size < n → m.store.write style n [] v = m.store.render style v := by
  obtain ⟨bound, hx, hstore, hfiles⟩ := Node.exists_small hx hstore hfiles
  have hhost := MemoryHost.upholds hfiles
  have hm : m.Upholds (·.body.Small bound) (fun h : MemoryHost => h.files = m.host.files) m.depth :=
    ⟨hstore, rfl, rfl⟩
  have hvisit (env : Env) :=
    visit_upholds hhost hx (Nat.lt_succ_self (fuelFor bound m.depth x)) env hm
  refine ⟨fun env => Eval.ends_of_endsIn (hvisit env), fun name => ?_,
    fun style v n hn => m.store.write_eq_render style hn v⟩
  have hrun := Run.noteEnd_upholds (Eval.toRun_upholds (hvisit Visit.programEnv)
    (fun _ _ f _ => ⟨f, rfl⟩) Visit.programEnv.trace fun _ hv => hv) (.finished name)
  exact Run.ends_of_endsIn (f := fun n => Visit.runProgram (visit n) name x) hrun

/-- A new session holds no functions but the built-in ones. -/
theorem Session.startStore_closures (C : Closure → Prop) : startStore.Closures C := by
  refine startStore_induction ⟨fun t x v hv => ?_, fun l v hv => ?_⟩ fun s x v hp hs =>
    hs.bind .globals x ?_
  · have hnone : (Store.start.table t)[x]? = none := by
      obtain - | t := t <;> rfl
    rw [hnone] at hv
    cases hv
  · exact absurd hv (Array.not_mem_empty v)
  · obtain ⟨n, hn⟩ | ⟨b, hb⟩ := datum_prelude hp
    · exact .of_not_function (by rw [hn]; rfl)
    · exact .of_not_function (by rw [hb]; rfl)

/-- A function that calls itself and a script that includes itself. -/
theorem loopFree_ends_recursion :
    let s : Span := default
    let x : Node := .list [.function (some "f") [] (.call (.ident "f" s) [] s) true s,
      .call (.ident "RUN" s) [.text "a" s] s, .call (.ident "f" s) [] s] s
    let m : Machine MemoryHost := Session.start (.ofInput [] [("a", "RUN(\"a\")")])
    (∀ env, ∃ r, Ends .spent (fun n => visit n x env) m r ∧ Eval.Concludes r) ∧
    (∀ name, ∃ r, Ends .outOfFuel (fun n => Visit.runProgram (visit n) name x) m r ∧
      Run.Concludes r) ∧
    ∀ style v n, m.store.lists.size < n →
      m.store.write style n [] v = m.store.render style v := by
  intro s x m
  have hname (name : String) (s : Span) : (Node.ident name s).LoopFree := .mk rfl nofun
  have hcall (s : Span) : (Node.call (.ident "f" s) [] s).LoopFree :=
    .mk rfl (by simp [hname])
  have hrun (s s' s'' : Span) : (Node.call (.ident "RUN" s) [.text "a" s'] s'').LoopFree := by
    have htext : (Node.text "a" s').LoopFree := .mk rfl nofun
    exact .mk rfl (by simp [hname, htext])
  have hfunction : (Node.function (some "f") [] (.call (.ident "f" s) [] s) true s).LoopFree :=
    .mk rfl (by simp [hcall])
  have hx : x.LoopFree := .mk rfl (by simp [x, hfunction, hrun, hcall])
  refine loopFree_ends hx (Session.startStore_closures _) fun path text hlookup y hy => ?_
  obtain ⟨rfl, rfl⟩ : path = "a" ∧ "RUN(\"a\")" = text := by
    change (match path == "a" with | true => some "RUN(\"a\")" | false => none) = some text
      at hlookup
    cases hpath : path == "a" with
    | true =>
        rw [hpath] at hlookup
        exact ⟨by simpa using hpath, Option.some.inj hlookup⟩
    | false =>
        rw [hpath] at hlookup
        cases hlookup
  obtain ⟨s, left, s', right, finish, htokens⟩ : ∃ s left s' right finish,
      Source.tokens ⟨"a", "RUN(\"a\")"⟩ = .ok
        [⟨.identifier, some (.text "RUN"), s⟩, ⟨.leftParen, none, left⟩,
          ⟨.string, some (.text "a"), s'⟩, ⟨.rightParen, none, right⟩,
          ⟨.endOfInput, none, finish⟩] := ⟨_, _, _, _, _, by with_unfolding_all rfl⟩
  obtain ⟨s'', t, hprogram⟩ : ∃ s'' t, Node.ofSource ⟨"a", "RUN(\"a\")"⟩ =
      .ok (.list [.call (.ident "RUN" s) [.text "a" s'] s''] t) :=
    ⟨_, _, by rw [Node.ofSource, htokens]; rfl⟩
  obtain rfl := Except.ok.inj (hprogram.symm.trans hy)
  exact .mk rfl (by simp [hrun])

end BasicScript
