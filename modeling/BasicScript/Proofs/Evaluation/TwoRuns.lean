import BasicScript.Proofs.Evaluation.Alike

/-! # Evaluations of trees that are alike

Two evaluations of trees that are alike, in one scope and on machines that are alike, end in one
way. If this holds of the nodes below a node, it holds of the node. -/

namespace BasicScript

variable {H : Type} {L : Linking} {n : Nat}

namespace Visit

/-! ## What a node does itself -/

theorem newList_matches (env env' : Env) (span span' : Span) {vs vs' : List Value}
    (h : Value.AllAlike (L.links n) vs vs') :
    Eval.Matches L Value.Alike n (newList env span vs : Eval H Value)
      (newList env' span' vs') := by
  refine .bind (V := fun ρ l l' => ρ l l') (Eval.Matches.store fun s s' hn hs => ?_)
    fun k l l' hk hl => .pure fun k' hk' => .list (L.mono hk' hl)
  have hsize := s.size_newList vs.toArray
  refine ⟨by omega, ?_, Linking.newList hs (h.mono (L.mono hn))⟩
  rw [hsize]
  exact L.fresh hs.1

theorem bindName_matches {env env' : Env} (hscope : env.scope = env'.scope) (x : String)
    {v v' : Value} (hv : v.Alike (L.links n) v') :
    Eval.Matches L (fun _ => Eq) n (bindName env x v : Eval H Unit) (bindName env' x v') := by
  refine .change fun s s' hn hs => ⟨Nat.le_refl _, hs.1, ?_⟩
  rw [← hscope]
  exact hs.2.bind env.scope x (hv.mono (L.mono hn))

theorem holds_matches {v v' : Value} (hv : v.Alike (L.links n) v') :
    Eval.Matches L (fun _ => Eq) n (Eval.inspect (·.holds v) : Eval H Bool)
      (Eval.inspect (·.holds v')) :=
  .inspect fun _ _ hn hs => hs.2.holds (hv.mono (L.mono hn))

theorem ident_matches {env env' : Env} (hscope : env.scope = env'.scope) (x : String)
    (span span' : Span) :
    Eval.Matches L Value.Alike n (ident env x span : Eval H Value) (ident env' x span') := by
  refine .bind (V := fun ρ => Option.Rel (Value.Alike ρ))
    (Eval.Matches.inspect fun s s' _ hs => ?_) ?_
  · rw [← hscope]
    exact hs.2.lookup env.scope x
  · intro k v v' hk hv
    cases hv with
    | none => exact Eval.Matches.fail ⟨rfl, rfl, rfl⟩
    | some hv => exact .pure fun k' hk' => hv.mono (L.mono hk')

theorem function_matches {env env' : Env} (hscope : env.scope = env'.scope)
    (name : Option String) (params : List String) {body body' : Node} (h : body.Alike body')
    (arrow : Bool) (span span' : Span) :
    Eval.Matches L Value.Alike n (function env name params body arrow span : Eval H Value)
      (function env' name params body' arrow span') := by
  have hv (ρ : ListRef → ListRef → Prop) :
      (env.made (.function ⟨name.getD "<anonymous>", params, body, arrow, env.scope⟩) span).Alike ρ
        (env'.made (.function ⟨name.getD "<anonymous>", params, body', arrow, env'.scope⟩)
          span') := by
    rw [← hscope]
    exact .function h
  cases name with
  | none => exact .pure fun _ _ => hv _
  | some x =>
      exact .bind (bindName_matches hscope x (hv _)) fun _ _ _ _ _ => .pure fun _ _ => hv _

theorem collected_matches (env env' : Env) {b b' : Branch Node} (h : b.Alike b')
    (span span' : Span) {vs vs' : List Value} (hvs : Value.AllAlike (L.links n) vs vs') :
    Eval.Matches L Value.Alike n (collected env b span vs : Eval H Value)
      (collected env' b' span' vs') := by
  unfold collected
  rw [← h.block]
  exact .ite (.pure fun _ _ => .null) (newList_matches env env' span span' (List.rel_reverse hvs))

/-! ## What a node does with those below it -/

variable {self self' : Visit H}
  (hself : ∀ {x x' : Node} {env env' : Env}, x.Alike x' → env.scope = env'.scope →
    Eval.Matches L Value.Alike 0 (self x env) (self' x' env'))

include hself

section

variable {env env' : Env} (hscope : env.scope = env'.scope)

include hscope

theorem self_matches {x x' : Node} (h : x.Alike x') :
    Eval.Matches L Value.Alike n (self x env) (self' x' env') :=
  (hself h hscope).of_le (Nat.zero_le n)

theorem all_matches {xs xs' : List Node} (h : List.Forall₂ Node.Alike xs xs')
    {done done' : List Value} (hdone : Value.AllAlike (L.links n) done done') :
    Eval.Matches L Value.AllAlike n (all self env done xs) (all self' env' done' xs') := by
  induction h generalizing n done done' with
  | nil => exact .pure fun k hk => List.rel_reverse (hdone.mono (L.mono hk))
  | cons hx _ ih =>
      exact .bind (self_matches hself hscope hx) fun k v v' hk hv =>
        ih (.cons hv (hdone.mono (L.mono hk)))

theorem declaration_matches (tag : Tag) (name : String) {x x' : Node} (h : x.Alike x')
    (span span' : Span) :
    Eval.Matches L Value.Alike n (declaration self env tag name x span)
      (declaration self' env' tag name x' span') := by
  refine .bind (self_matches hself hscope h) fun k v v' hk hv => ?_
  rw [Datum.Alike.conforms hv tag, Datum.Alike.typeName hv]
  refine .ite ?_ (Eval.Matches.fail ⟨rfl, rfl, rfl⟩)
  exact .bind (bindName_matches hscope name hv) fun k' _ _ hk' _ =>
    .pure fun k'' hk'' => hv.mono (L.mono (Nat.le_trans hk' hk''))

theorem binary_matches (op : BinaryOp) {x x' y y' : Node} (hx : x.Alike x') (hy : y.Alike y')
    (span span' : Span) :
    Eval.Matches L Value.Alike n (binary self env op x y span)
      (binary self' env' op x' y' span') := by
  refine .bind (self_matches hself hscope hx) fun k a a' hk ha => ?_
  refine .bind (self_matches hself hscope hy) fun k b b' hk hb => ?_
  refine .bind (Eval.Matches.operation (Operation.binary_matches (ha.mono (L.mono hk)) hb op)) ?_
  exact fun k v v' hk hv => .pure fun k' hk' => hv.mono (L.mono hk')

theorem unary_matches (op : UnaryOp) {x x' : Node} (h : x.Alike x') (span span' : Span) :
    Eval.Matches L Value.Alike n (unary self env op x span) (unary self' env' op x' span') := by
  refine .bind (self_matches hself hscope h) fun k a a' hk ha => ?_
  refine .bind (V := Value.Alike) ?_ fun k v v' hk hv => .pure fun k' hk' => hv.mono (L.mono hk')
  cases op with
  | negate => exact Eval.Matches.operation (Operation.multiply_matches ha (.number _))
  | not => exact Eval.Matches.operation (Operation.not_matches ha)

theorem branch_matches {b b' : Branch Node} (h : b.Alike b') :
    Eval.Matches L Value.Alike n (branch self env b) (branch self' env' b') := by
  refine .bind (self_matches hself hscope h.body) fun k v v' hk hv => .pure fun k' hk' => ?_
  rw [← h.block]
  split
  · exact .null
  · exact hv.mono (L.mono hk')

theorem choice_matches {otherwise otherwise' : Option (Branch Node)}
    (hotherwise : Option.Rel Branch.Alike otherwise otherwise') {arms arms' : List (Arm Node)}
    (harms : List.Forall₂ Arm.Alike arms arms') :
    Eval.Matches L Value.Alike n (choice self env otherwise arms)
      (choice self' env' otherwise' arms') := by
  induction harms generalizing n with
  | nil =>
      cases hotherwise with
      | none => exact .pure fun _ _ => .null
      | some hb => exact branch_matches hself hscope hb
  | cons harm _ ih =>
      refine .bind (self_matches hself hscope harm.condition) fun k c c' hk hc => ?_
      refine .bind (holds_matches hc) fun k holds holds' hk heq => ?_
      subst heq
      exact .ite (branch_matches hself hscope harm.branch) ih

theorem bound_matches {x x' : Node} (h : x.Alike x') :
    Eval.Matches L (fun _ => Eq) n (bound self env x) (bound self' env' x') := by
  refine .bind (self_matches hself hscope h) fun k v v' hk hv => ?_
  rw [hv.number?_eq, Datum.Alike.typeName hv]
  cases v'.number? with
  | none => exact Eval.Matches.fail ⟨rfl, rfl, rfl⟩
  | some i => exact .pure fun _ _ => rfl

theorem forTurns_matches (name : String) (last step : Number) (span span' : Span)
    {body body' : Node} (h : body.Alike body') (limit : Nat) (i : Number)
    {done done' : List Value} (hdone : Value.AllAlike (L.links n) done done') :
    Eval.Matches L Value.AllAlike n
      (forTurns self env ⟨name, last, step, span⟩ body limit i done)
      (forTurns self' env' ⟨name, last, step, span'⟩ body' limit i done') := by
  induction limit generalizing n i done done' with
  | zero => exact .throw fun _ _ => .halt .outOfFuel
  | succ limit ih =>
      unfold forTurns
      refine .ite ?_ (.pure fun k hk => hdone.mono (L.mono hk))
      refine .bind (bindName_matches hscope name (.number i)) fun k _ _ hk _ => ?_
      refine .bind (self_matches hself hscope h).turn fun k' t t' hk' ht => ?_
      have hdone' := hdone.mono (L.mono (Nat.le_trans hk hk'))
      cases ht with
      | value hv => exact ih _ (.cons hv hdone')
      | continued => exact ih _ hdone'
      | broken => exact .pure fun k'' hk'' => hdone'.mono (L.mono hk'')

theorem forLoop_matches (limit : Nat) (name : String) {first first' last last' : Node}
    (hfirst : first.Alike first') (hlast : last.Alike last') {step step' : Option Node}
    (hstep : Option.Rel Node.Alike step step') {b b' : Branch Node} (hb : b.Alike b')
    (span span' : Span) :
    Eval.Matches L Value.Alike n (forLoop self limit env name first last step b span)
      (forLoop self' limit env' name first' last' step' b' span') := by
  refine .bind (bound_matches hself hscope hfirst) fun k i i' hk hi => ?_
  refine .bind (bound_matches hself hscope hlast) fun k l l' hk hl => ?_
  refine .bind (V := fun _ => Eq) ?_ fun k s s' hk hs => ?_
  · cases hstep with
    | none => exact .pure fun _ _ => rfl
    | some h => exact bound_matches hself hscope h
  · subst hi hl hs
    exact .bind (forTurns_matches hself hscope name l s span span' hb.body limit i .nil)
      fun k vs vs' hk hvs => collected_matches env env' hb span span' hvs

theorem whileTurns_matches {c c' body body' : Node} (hc : c.Alike c') (h : body.Alike body')
    (limit : Nat) {done done' : List Value} (hdone : Value.AllAlike (L.links n) done done') :
    Eval.Matches L Value.AllAlike n (whileTurns self env c body limit done)
      (whileTurns self' env' c' body' limit done') := by
  induction limit generalizing n done done' with
  | zero => exact .throw fun _ _ => .halt .outOfFuel
  | succ limit ih =>
      refine .bind (self_matches hself hscope hc) fun k v v' hk hv => ?_
      refine .bind (holds_matches hv) fun k' holds holds' hk' heq => ?_
      subst heq
      have hdone' := hdone.mono (L.mono (Nat.le_trans hk hk'))
      refine .ite ?_ (.pure fun k'' hk'' => hdone'.mono (L.mono hk''))
      refine .bind (self_matches hself hscope h).turn fun k'' t t' hk'' ht => ?_
      have hdone'' := hdone'.mono (L.mono hk'')
      cases ht with
      | value hv => exact ih (.cons hv hdone'')
      | continued => exact ih hdone''
      | broken => exact .pure fun _ hle => hdone''.mono (L.mono hle)

theorem returnWith_matches {x x' : Option Node} (h : Option.Rel Node.Alike x x') :
    Eval.Matches L Value.Alike n (returnWith self env x) (returnWith self' env' x') := by
  cases h with
  | none => exact .throw fun _ _ => .returned .null
  | some h =>
      exact .bind (self_matches hself hscope h) fun k v v' hk hv =>
        .throw fun k' hk' => .returned (hv.mono (L.mono hk'))

end

end Visit

/-! ## Built-in functions -/

namespace CallSite

theorem failure_same (site site' : CallSite) (message : String) :
    (site.failure message).Same (site'.failure message) :=
  ⟨rfl, rfl, rfl⟩

theorem hostFailure_same (site site' : CallSite) (f : Host.Fault) :
    (site.hostFailure f).Same (site'.hostFailure f) :=
  ⟨rfl, rfl, rfl⟩

end CallSite

namespace Builtin

theorem loadFailure_same (site site' : CallSite) (path : String) (f : Host.Fault) :
    (loadFailure site path f).Same (loadFailure site' path f) :=
  ⟨rfl, rfl, rfl⟩

theorem listArg_matches (site site' : CallSite) (which : String) {v v' : Value}
    (hv : v.Alike (L.links n) v') :
    Run.Matches L (fun ρ l l' => ρ l l') n (listArg site which v : Run H ListRef)
      (listArg site' which v') := by
  have hl := hv.list?_rel
  unfold listArg
  generalize v.list? = l at hl ⊢
  generalize v'.list? = l' at hl ⊢
  cases hl with
  | none => exact Run.Matches.fail (site.failure_same site' _)
  | some hl => exact .pure fun k hk => L.mono hk hl

theorem elements_matches {l l' : ListRef} (hl : L.links n l l') :
    Run.Matches L (fun ρ xs xs' => Value.AllAlike ρ xs.toList xs'.toList) n
      (Run.inspect (·.elements l) : Run H (Array Value)) (Run.inspect (·.elements l')) :=
  .inspect fun _ _ hn hs => hs.2.elements (L.mono hn hl)

theorem display_matches {v v' : Value} (hv : v.Alike (L.links n) v') :
    Run.Matches L (fun _ => Eq) n (Run.inspect (·.display v) : Run H String)
      (Run.inspect (·.display v')) :=
  .inspect fun _ _ hn hs => hs.2.display_eq L.injective (hv.mono (L.mono hn))

theorem modifyList_matches {l l' : ListRef} (hl : L.links n l l')
    {f f' : Array Value → Array Value}
    (hf : ∀ k xs xs', n ≤ k → Value.AllAlike (L.links k) xs.toList xs'.toList →
      Value.AllAlike (L.links k) (f xs).toList (f' xs').toList) :
    Run.Matches L (fun _ => Eq) n (Run.change (·.modifyList l f) : Run H Unit)
      (Run.change (·.modifyList l' f')) := by
  refine .change fun s s' hn hs => ⟨?_, ?_⟩
  · exact Nat.le_of_eq Array.size_modify.symm
  · exact Linking.modifyList hs (L.mono hn hl) fun xs xs' hxs => hf _ xs xs' hn hxs

theorem popAt_matches (site site' : CallSite) {l l' : ListRef} (hl : L.links n l l')
    (i : Number) :
    Run.Matches L Value.Alike n (popAt site l i : Run H Value) (popAt site' l' i) := by
  refine .bind (elements_matches hl) fun k xs xs' hk hxs => ?_
  rw [hxs.size_eq]
  cases i.toInt?.bind (resolveIndex xs'.size) with
  | none => exact Run.Matches.fail (site.failure_same site' _)
  | some p =>
      refine .bind (modifyList_matches (L.mono hk hl) fun _ _ _ _ hys => hys.eraseIdx p) ?_
      intro k' _ _ hk' _
      exact .pure fun k'' hk'' => (hxs.mono (L.mono (Nat.le_trans hk' hk''))).getD p

theorem scriptFailure_alike (site site' : CallSite) (path : String) {d d' : Diagnostic}
    (h : d.Alike d') : (scriptFailure site path d).Alike (scriptFailure site' path d') :=
  .script h

theorem miscount_matches (b : Builtin) (site site' : CallSite) (count : Nat) :
    Run.Matches L Value.Alike n (Run.fail (site.failure (b.miscount count)) : Run H Value)
      (Run.fail (site'.failure (b.miscount count))) :=
  .fail (site.failure_same site' _)

variable [Host H] {run run' : Source → Run H Value}
  (hrun : ∀ source, Run.Matches L Value.Alike 0 (run source) (run' source))

include hrun

theorem runFile_matches (site site' : CallSite) (path : String) :
    Run.Matches L Value.Alike n (runFile run site path) (runFile run' site' path) := by
  refine .bind (Run.Matches.ask (loadFailure_same site site' path) _)
    fun k text text' hk htext => ?_
  subst htext
  refine .bind (Run.Matches.note _) fun k _ _ hk _ => ?_
  refine .bind (V := Value.Alike) ?_ fun k _ _ hk _ => .pure fun _ _ => .null
  exact Run.Matches.mapFailure ((hrun _).of_le (Nat.zero_le k))
    (scriptFailure_alike site site' path)

theorem execute_matches (b : Builtin) (site site' : CallSite) {args args' : List Value}
    (hargs : Value.AllAlike (L.links n) args args') :
    Run.Matches L Value.Alike n (b.execute run site args) (b.execute run' site' args') := by
  cases hargs with
  | nil =>
      cases b with
      | input =>
          exact .bind (Run.Matches.ask (site.hostFailure_same site') _) fun _ _ _ _ h =>
            .pure fun _ _ => h ▸ .ofText _
      | inputNum =>
          exact .bind (Run.Matches.ask (site.hostFailure_same site') _) fun _ _ _ _ h =>
            .pure fun _ _ => h ▸ .ofNumber _
      | clear => exact .bind (Run.Matches.tell _) fun _ _ _ _ _ => .pure fun _ _ => .null
      | _ => exact miscount_matches _ site site' _
  | cons hv hargs =>
      cases hargs with
      | nil =>
          cases b with
          | print =>
              refine .bind (display_matches hv) fun _ line line' _ h => ?_
              subst h
              exact .bind (Run.Matches.tell _) fun _ _ _ _ _ => .pure fun _ _ => .null
          | printRet =>
              exact .bind (display_matches hv) fun _ _ _ _ h => .pure fun _ _ => h ▸ .ofText _
          | isNum => exact .pure fun _ _ => hv.number?_eq ▸ .ofNumber _
          | isStr => exact .pure fun _ _ => hv.text?_eq ▸ .ofNumber _
          | isList => exact .pure fun _ _ => Value.Alike.isSome_list?_eq hv ▸ .ofNumber _
          | isFun => exact .pure fun _ _ => Datum.Alike.isCallable hv ▸ .ofNumber _
          | len =>
              refine .bind (listArg_matches site site' _ hv) fun _ l l' _ hl => ?_
              refine .bind (elements_matches hl) fun _ xs xs' _ hxs => .pure fun _ _ => ?_
              rw [hxs.size_eq]
              exact .ofNumber _
          | run =>
              simp only [execute]
              rw [hv.text?_eq]
              split
              · exact Run.Matches.fail (site.failure_same site' _)
              · exact runFile_matches hrun site site' _
          | _ => exact miscount_matches _ site site' _
      | cons hw hargs =>
          cases hargs with
          | nil =>
              cases b with
              | append =>
                  refine .bind (listArg_matches site site' _ hv) fun k l l' hk hl => ?_
                  refine .bind (modifyList_matches hl fun k' _ _ hk' hxs => ?_)
                    fun _ _ _ _ _ => .pure fun _ _ => .null
                  exact hxs.push (hw.mono (L.mono (Nat.le_trans hk hk')))
              | pop =>
                  refine .bind (listArg_matches site site' _ hv) fun k l l' hk hl => ?_
                  rw [hw.number?_eq]
                  split
                  · exact Run.Matches.fail (site.failure_same site' _)
                  · exact popAt_matches site site' hl _
              | extend =>
                  refine .bind (listArg_matches site site' _ hv) fun k a a' hk ha => ?_
                  refine .bind (listArg_matches site site' _ (hw.mono (L.mono hk)))
                    fun k' b b' hk' hb => ?_
                  refine .bind (elements_matches hb) fun k'' xs xs' hk'' hxs => ?_
                  have ha'' := L.mono (Nat.le_trans hk' hk'') ha
                  refine .bind (modifyList_matches ha'' fun k' _ _ hk' hys => ?_)
                    fun _ _ _ _ _ => .pure fun _ _ => .null
                  exact hys.append (hxs.mono (L.mono hk'))
              | _ => exact miscount_matches _ site site' _
          | cons _ hargs =>
              rename_i args args' _ _ _
              have hlength := hargs.length_eq
              simp only [execute, List.length_cons, hlength]
              exact miscount_matches _ site site' _

end Builtin

/-! ## Calls -/

namespace Visit

theorem checkCount_matches {callee callee' : Value} (h : callee.Alike (L.links n) callee')
    (expected got : Nat) :
    Run.Matches L (fun _ => Eq) n (checkCount callee expected got : Run H Unit)
      (checkCount callee' expected got) := by
  refine .ite (.pure fun _ _ => rfl) (.bind (Builtin.display_matches h) fun _ shown _ _ hs => ?_)
  subst hs
  exact Run.Matches.fail (Value.failure_same callee callee' _ _ _)

/-- What enters a function makes its scope and binds the parameters there. -/
theorem entering_matches (scope : Scope) (params : List String) {args args' : List Value}
    (hargs : Value.AllAlike (L.links n) args args') :
    Run.Matches L (fun _ => Eq) n
      (Run.store fun s =>
        let (scope, s) := s.child scope
        (scope, s.bindAll scope params args) : Run H Scope)
      (Run.store fun s =>
        let (scope, s) := s.child scope
        (scope, s.bindAll scope params args')) := by
  refine .store fun s s' hn hs => ?_
  obtain ⟨hsizes, hs⟩ := hs
  have hscope : (s.child scope).1 = (s'.child scope).1 := by
    simp only [Store.child, hs.tables]
  have hlists (s : Store) (args : List Value) :
      ((s.child scope).2.bindAll (s.child scope).1 params args).lists.size = s.lists.size := by
    rw [Store.lists_bindAll]
    rfl
  have hentered := (hs.child scope).bindAll (s.child scope).1 params (hargs.mono (L.mono hn))
  refine ⟨Nat.le_of_eq (hlists s args).symm, hscope, ?_, ?_⟩
  · show L.sizes (Store.bindAll _ _ params args).lists.size
      (Store.bindAll _ _ params args').lists.size
    rw [hlists, hlists]
    exact hsizes
  · show Store.Alike (L.links (Store.bindAll _ _ params args).lists.size) _
      (Store.bindAll _ (s'.child scope).1 params args')
    rw [hlists, ← hscope]
    exact hentered

section

variable {self self' : Visit H}
  (hself : ∀ {x x' : Node} {env env' : Env}, x.Alike x' → env.scope = env'.scope →
    Eval.Matches L Value.Alike 0 (self x env) (self' x' env'))

include hself

theorem runSource_matches (source : Source) :
    Run.Matches L Value.Alike 0 (runSource self source) (runSource self' source) := by
  refine .bind (Run.Matches.note _) fun k _ _ hk _ => ?_
  cases Node.ofSource source with
  | error d => exact Run.Matches.fail ⟨rfl, rfl, rfl⟩
  | ok program =>
      refine Run.Matches.noteEnd (Eval.Matches.toRun ?_ _ _ fun hv => hv) _
      exact self_matches hself rfl (.refl program)

theorem callClosure_matches {callee callee' : Value} (h : callee.Alike (L.links n) callee')
    (name : String) (params : List String) {body body' : Node} (hbody : body.Alike body')
    (arrow : Bool) (scope : Scope) {args args' : List Value}
    (hargs : Value.AllAlike (L.links n) args args') :
    Run.Matches L Value.Alike n
      (callClosure self callee ⟨name, params, body, arrow, scope⟩ args)
      (callClosure self' callee' ⟨name, params, body', arrow, scope⟩ args') := by
  unfold callClosure
  rw [hargs.length_eq]
  refine .bind (checkCount_matches h _ _) fun k _ _ hk _ => ?_
  refine .bind (Run.Matches.note _) fun k' _ _ hk' _ => ?_
  refine .bind (entering_matches scope params (hargs.mono (L.mono (Nat.le_trans hk hk'))))
    fun k _ _ hk hscope => ?_
  refine Eval.Matches.toRun (self_matches hself hscope hbody) _ _ fun hv => ?_
  split
  · exact hv
  · exact .null

variable [Host H]

theorem callBuiltin_matches {callee callee' : Value} (h : callee.Alike (L.links n) callee')
    (b : Builtin) {args args' : List Value} (hargs : Value.AllAlike (L.links n) args args') :
    Run.Matches L Value.Alike n (callBuiltin self callee b args)
      (callBuiltin self' callee' b args') := by
  unfold callBuiltin
  rw [hargs.length_eq]
  refine .bind (checkCount_matches h _ _) fun k _ _ hk _ => ?_
  refine .bind (Run.Matches.note _) fun k' _ _ hk' _ => ?_
  exact Builtin.execute_matches (runSource_matches hself) b _ _
    (hargs.mono (L.mono (Nat.le_trans hk hk')))

/-- Two calls of values that are alike end in one way, wherever the callers stand. -/
theorem apply_matches {callee callee' : Value} (h : callee.Alike (L.links n) callee')
    {args args' : List Value} (hargs : Value.AllAlike (L.links n) args args') :
    Run.Matches L Value.Alike n (apply self callee args) (apply self' callee' args') := by
  have henter : Run.Matches L Value.Alike n (enter self callee args)
      (enter self' callee' args') := by
    obtain ⟨d, span, trace⟩ := callee
    obtain ⟨d', span', trace'⟩ := callee'
    have hd : d.Alike (L.links n) d' := h
    cases hd with
    | function hbody => exact callClosure_matches hself h _ _ hbody _ _ hargs
    | builtin b => exact callBuiltin_matches hself h b hargs
    | _ => exact Run.Matches.fail (Operation.illegal_same _ _ _ _)
  intro m m' hn hm
  obtain ⟨hs, hhost, hdepth, hlog⟩ := hm
  have hleft {m m' : Machine H} (hm : m.Paired L m') :
      Machine.Paired L { m with depth := m.depth - 1 } { m' with depth := m'.depth - 1 } :=
    ⟨hm.store, hm.host, congrArg (· - 1) hm.depth, hm.log⟩
  unfold apply
  rw [← hdepth]
  split
  · exact .error ⟨Nat.le_refl _, .failure (.same (Value.failure_same _ _ _ _ _))⟩
      ⟨hs, hhost, hdepth, hlog⟩
  · have hr := henter { m with depth := m.depth + 1 } { m' with depth := m.depth + 1 } hn
      ⟨hs, hhost, rfl, hlog⟩
    generalize enter self callee args _ = q at hr ⊢
    generalize enter self' callee' args' _ = q' at hr ⊢
    cases hr with
    | ok hv hm => exact .ok hv (hleft hm)
    | error he hm => exact .error he (hleft hm)

/-! ## Nodes -/

theorem step_matches (limit : Nat) {x x' : Node} {env env' : Env} (h : x.Alike x')
    (hscope : env.scope = env'.scope) :
    Eval.Matches L Value.Alike 0 (step self limit x env) (step self' limit x' env') := by
  cases x with
  | number i span =>
      obtain ⟨span', rfl⟩ := h.of_number
      exact .pure fun _ _ => .number i
  | text s span =>
      obtain ⟨span', rfl⟩ := h.of_text
      exact .pure fun _ _ => .text s
  | list xs span =>
      obtain ⟨xs', span', rfl, hxs⟩ := h.of_list
      exact .bind (all_matches hself hscope hxs .nil) fun k vs vs' _ hvs =>
        newList_matches env env' span span' hvs
  | ident name span =>
      obtain ⟨span', rfl⟩ := h.of_ident
      exact ident_matches hscope name span span'
  | declaration tag name v span =>
      obtain ⟨v', span', rfl, hv⟩ := h.of_declaration
      exact declaration_matches hself hscope tag name hv span span'
  | binary op l r span =>
      obtain ⟨l', r', span', rfl, hl, hr⟩ := h.of_binary
      exact binary_matches hself hscope op hl hr span span'
  | unary op v span =>
      obtain ⟨v', span', rfl, hv⟩ := h.of_unary
      exact unary_matches hself hscope op hv span span'
  | choice arms otherwise span =>
      obtain ⟨arms', otherwise', span', rfl, harms, hotherwise⟩ := h.of_choice
      exact choice_matches hself hscope hotherwise harms
  | forLoop name first last step b span =>
      obtain ⟨first', last', step', b', span', rfl, hfirst, hlast, hstep, hb⟩ := h.of_forLoop
      exact forLoop_matches hself hscope limit name hfirst hlast hstep hb span span'
  | whileLoop c b span =>
      obtain ⟨c', b', span', rfl, hc, hb⟩ := h.of_whileLoop
      exact .bind (whileTurns_matches hself hscope hc hb.body limit .nil) fun k vs vs' _ hvs =>
        collected_matches env env' hb span span' hvs
  | function name params body arrow span =>
      obtain ⟨body', span', rfl, hbody⟩ := h.of_function
      exact function_matches hscope name params hbody arrow span span'
  | call callee args span =>
      obtain ⟨callee', args', span', rfl, hcallee, hargs⟩ := h.of_call
      refine .bind (self_matches hself hscope hcallee) fun k f f' hk hf => ?_
      refine .bind (all_matches hself hscope hargs .nil) fun k' vs vs' hk' hvs => ?_
      have hplaced : (f.withSpan span).Alike (L.links k') (f'.withSpan span') :=
        hf.mono (L.mono hk')
      refine .bind (Eval.Matches.ofRun (apply_matches hself hplaced hvs)) ?_
      exact fun k v v' hk hv => .pure fun k' hk' => hv.mono (L.mono hk')
  | returnWith v span =>
      obtain ⟨v', span', rfl, hv⟩ := h.of_returnWith
      exact returnWith_matches hself hscope hv
  | continueLoop span =>
      obtain ⟨span', rfl⟩ := h.of_continueLoop
      exact .throw fun _ _ => .continued span span'
  | breakLoop span =>
      obtain ⟨span', rfl⟩ := h.of_breakLoop
      exact .throw fun _ _ => .broken span span'

end

end Visit

/-- Two evaluations of trees that are alike, in one scope and on machines that belong together, end
in one way. -/
theorem visit_matches [Host H] (L : Linking) (fuel : Nat) {x x' : Node} {env env' : Env}
    (h : x.Alike x') (hscope : env.scope = env'.scope) :
    Eval.Matches L Value.Alike 0 (visit fuel x env : Eval H Value) (visit fuel x' env') := by
  induction fuel generalizing x x' env env' with
  | zero => exact .throw fun _ _ => .halt .outOfFuel
  | succ fuel ih => exact Visit.step_matches (fun h hscope => ih h hscope) fuel h hscope

end BasicScript
