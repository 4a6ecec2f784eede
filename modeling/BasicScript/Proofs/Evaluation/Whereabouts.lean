import BasicScript.Proofs.Evaluation.Kinds
import BasicScript.Proofs.Evaluation.Termination
import BasicScript.Proofs.Evaluation.Tracebacks
import BasicScript.Proofs.Grammar.Locating

/-! # Where failures point

A failure of a program points into the text of a program that has been evaluated in the session, and
its traceback starts with a line there, as long as no operator and no call takes the null of a
construct without a value, which has no place and no frames. -/

namespace BasicScript

/-- What the failure points to is in the source: its excerpt starts with a line of it, which the
first line of the traceback names. -/
structure Diagnostic.PointsInto (d : Diagnostic) (s : Source) : Prop where
  source : d.span.start.source = s ∧ d.span.stop.source = s
  offset : d.span.start.offset ≤ d.span.stop.offset ∧ d.span.stop.offset ≤ s.text.length
  line : d.span.start.line < s.lines.length
  excerpt : d.span.excerptRows.head? = some (s.line d.span.start.line)
  frame : ∃ name, d.frames.head? =
    some ("File " ++ s.name ++ ", line " ++ toString (d.span.start.line + 1) ++ ", in " ++ name)

theorem Span.head?_excerptRows (span : Span) :
    span.excerptRows.head? = some (span.start.source.line span.start.line) := by
  have hrows : span.lastLine + 1 - span.start.line = span.lastLine - span.start.line + 1 :=
    Nat.succ_sub (Nat.le_max_right _ _)
  unfold excerptRows
  rw [hrows, List.range'_succ]
  simp [Source.line]

theorem Span.LiesIn.pointsInto {d : Diagnostic} {s : Source} (h : d.span.LiesIn s)
    (htrace : d.trace ≠ []) : d.PointsInto s where
  source := h.source
  offset := h.offset_le
  line := h.line_lt
  excerpt := by rw [Span.head?_excerptRows, h.source.1]
  frame := by
    obtain ⟨frame, outer, htrace⟩ := List.exists_cons_of_ne_nil htrace
    refine ⟨frame.name, ?_⟩
    rw [Diagnostic.frames, htrace, ← h.source.1]
    rfl

variable {H : Type}

/-! ## Nodes of evaluated programs -/

/-- A node, in its form, of a program that one of the sources spells. -/
def Source.Spells (S : Source → Prop) (q : Form × Node) : Prop :=
  ∃ s x, S s ∧ Node.ofSource s = .ok x ∧ Node.Occurs (.block, x) q

/-- The body of the function is a node of such a program. -/
def Source.Defines (S : Source → Prop) (f : Closure) : Prop :=
  Spells S (if f.arrow then .phrase else .block, f.body)

namespace Source.Spells

open Node

variable {S : Source → Prop} {x y : Node} {form : Form}

theorem mono {S' : Source → Prop} {q : Form × Node} (h : Spells S q) (hS : ∀ s, S s → S' s) :
    Spells S' q := by
  obtain ⟨s, x, hs, hx, hq⟩ := h
  exact ⟨s, x, hS s hs, hx, hq⟩

theorem piece {q : Form × Node} (h : Spells S (form, x)) (hq : q ∈ x.pieces) : Spells S q := by
  obtain ⟨s, z, hs, hz, hx⟩ := h
  exact ⟨s, z, hs, hz, hx.tail hq⟩

theorem part (h : Spells S (form, x)) (hy : y ∈ x.parts) : ∃ form', Spells S (form', y) := by
  obtain ⟨form', hy⟩ := exists_mem_pieces hy
  exact ⟨form', h.piece hy⟩

theorem exposed (h : Spells S (form, x)) (hy : x.Exposes y) : ∃ form', Spells S (form', y) := by
  induction hy with
  | refl => exact ⟨form, h⟩
  | tail _ hnext ih =>
      obtain ⟨form', ih⟩ := ih
      exact ih.part (parts_of_openParts hnext)

theorem liesIn (h : Spells S (.phrase, x)) : ∃ s, S s ∧ x.span.LiesIn s := by
  obtain ⟨s, z, hs, hz, hx⟩ := h
  exact ⟨s, hs, liesIn_of_occurs hz hx⟩

/-- Only lists make up blocks. -/
theorem liesIn_of_ne_list (h : Spells S (form, x)) (hx : ∀ xs s, x ≠ .list xs s) :
    ∃ s, S s ∧ x.span.LiesIn s := by
  cases form with
  | phrase => exact h.liesIn
  | block =>
      obtain ⟨s, z, -, hz, hocc⟩ := h
      obtain ⟨lines, span, rfl⟩ := listed_of_occurs hz hocc
      exact absurd rfl (hx lines span)

end Source.Spells

open Source (Spells Defines)

/-! ## Failures and the places of operands -/

variable [Host H]

namespace Moment

/-- A program is run from this source. -/
def Evaluates (p : Moment H) (s : Source) : Prop :=
  ∃ n m calls, p.Reaches ⟨n, .program s, m, calls⟩

/-- An operator refuses its operands by `d`, which starts or ends at the place of one of them, and
that one is the null of a construct without a value and has no place. -/
inductive Misplaces (d : Diagnostic) : Moment H → Prop
  | mk {n x env m calls y m₁ v m₂ z} (hraises : Visit.Raises (visit n) env x m d)
      (hy : Visit.Makes (visit n) env n x m y m₁) (hv : visit n y env m₁ = .ok v m₂)
      (hz : y.Origin z) (hnone : z.Valueless) (hspan : v.span = default)
      (hd : d.span.start = v.span.start ∨ d.span.stop = v.span.stop) :
      Misplaces d ⟨n + 1, .node x env, m, calls⟩

/-- An operator or a call fails with `d` and takes a value that carries no frames, so that `d` has
none. -/
inductive Unframed (d : Diagnostic) : Moment H → Prop
  | mk {n x env m calls y v m₁} (hfails : (visit (n + 1) x env).Fails m d)
      (hy : x.subject? = some y) (hv : visit n y env m = .ok v m₁) (htrace : v.trace = [])
      (hd : d.trace = []) : Unframed d ⟨n + 1, .node x env, m, calls⟩

/-- A failure with a traceback points into one of the sources, or to where an operand would be that
has no place. -/
def Places (S : Source → Prop) (p : Moment H) (d : Diagnostic) : Prop :=
  d.kind.traced → (∃ s, S s ∧ d.span.LiesIn s) ∨ ∃ q, p.Reaches q ∧ q.Misplaces d

section

variable {S : Source → Prop} {p : Moment H} {n : Nat} {x : Node} {form : Form} {env : Env}
  {m : Machine H} {calls : List Value} {d : Diagnostic}

theorem Places.of_liesIn (h : ∃ s, S s ∧ d.span.LiesIn s) : p.Places S d :=
  fun _ => .inl h

theorem Places.of_span {span : Span} (h : ∃ s, S s ∧ span.LiesIn s) (hd : d.span = span) :
    p.Places S d :=
  .of_liesIn (hd ▸ h)

/-- An operand has the place of a phrase in it, or else its null is taken. -/
theorem place_of_operand {y : Node} {v : Value} {m₁ m₂ : Machine H}
    (hp : p.Reaches ⟨n + 1, .node x env, m, calls⟩) (hraises : Visit.Raises (visit n) env x m d)
    (hy : Visit.Makes (visit n) env n x m y m₁) (hv : visit n y env m₁ = .ok v m₂)
    (hd : d.span.start = v.span.start ∨ d.span.stop = v.span.stop) :
    (∃ z, Node.Occurs (.phrase, y) (.phrase, z) ∧ v.span = z.span) ∨
      ∃ q, p.Reaches q ∧ q.Misplaces d := by
  obtain ⟨z, hz, hspan | ⟨hnone, hspan⟩⟩ := visit_comesFrom hv
  · exact .inl ⟨z, hz.occurs, hspan⟩
  · exact .inr ⟨_, hp, hraises, hy, hv, hz, hnone, hspan, hd⟩

/-- What a node itself fails with points into the source of the node, unless an operand has no
place. -/
theorem places_of_raises (hx : Spells S (form, x)) (hp : p.Reaches ⟨n + 1, .node x env, m, calls⟩)
    (h : Visit.Raises (visit n) env x m d) : p.Places S d := by
  have own (hne : ∀ xs s, x ≠ .list xs s) : ∃ s, S s ∧ x.span.LiesIn s := hx.liesIn_of_ne_list hne
  have operand {y : Node} {v : Value} {m₁ m₂ : Machine H}
      (hy : Visit.Makes (visit n) env n x m y m₁) (hv : visit n y env m₁ = .ok v m₂)
      (hd : d.span.start = v.span.start ∨ d.span.stop = v.span.stop) :=
    place_of_operand hp h hy hv hd
  cases h with
  | ident hd => exact .of_span (own nofun) hd
  | declaration hd => exact .of_span (own nofun) hd
  | bound hy hd =>
      refine .of_span (Source.Spells.liesIn (hx.piece (List.mem_append_left _ ?_))) hd
      simpa using hy
  | @binary op l r span _ m₁ m₂ a b _ s ha hb ho =>
      obtain ⟨s, z, hs, hz, hocc⟩ := hx
      have hright : Node.Occurs (.block, z) (.phrase, r) :=
        hocc.tail (List.mem_cons_of_mem _ List.mem_cons_self)
      rcases (Operation.binary_computes op a b).blames ho with hd | hd
      · obtain ⟨y, hy, hay⟩ | hq := operand (.subject rfl) ha (.inl (by rw [hd]; rfl))
        · obtain ⟨y', hy', hby⟩ | hq := operand (.right ha) hb (.inr (by rw [hd]; rfl))
          · rw [hay, hby] at hd
            exact .of_span ⟨s, hs, Node.liesIn_of_binary hz hocc hy hy'⟩ hd
          · exact fun _ => .inr hq
        · exact fun _ => .inr hq
      · obtain ⟨y, hy, hby⟩ | hq := operand (.right ha) hb (.inl (by rw [hd]))
        · exact .of_span ⟨s, hs, Node.liesIn_of_occurs hz (hright.trans hy)⟩ (hd.trans hby)
        · exact fun _ => .inr hq
  | @negate y span _ m₁ a _ s ha ho =>
      rcases (Operation.multiply_computes a _).blames ho with hd | hd
      · obtain ⟨z, hz, haz⟩ | hq := operand (.subject rfl) ha (.inl (by rw [hd]; rfl))
        · obtain ⟨s, w, hs, hw, hocc⟩ := hx
          rw [haz] at hd
          exact .of_span ⟨s, hs, Node.liesIn_of_unary hw hocc hz⟩ hd
        · exact fun _ => .inr hq
      · exact .of_span (own nofun) hd
  | @not y span _ m₁ a _ s ha ho =>
      have hd : d.span = a.span := by
        rcases (Operation.not_computes a).blames ho with hd | hd <;> exact hd
      obtain ⟨z, hz, haz⟩ | hq := operand (.subject rfl) ha (.inl (by rw [hd]))
      · obtain ⟨s, w, hs, hw, hocc⟩ := hx
        exact .of_span ⟨s, hs, Node.liesIn_of_occurs hw
          ((hocc.tail List.mem_cons_self).trans hz)⟩ (hd.trans haz)
      · exact fun _ => .inr hq

end

end Moment

/-! ## The failures of a run -/

/-- Every failure is placed, and the store goes on to hold no functions but those of evaluated
programs. -/
abbrev Run.Places (S : Source → Prop) (p : Moment H) (d : Nat) :
    EStateM.Result Halt (Machine H) Value → Prop :=
  Run.Upholds (Defines S) (fun _ => True) (Halt.Tells (p.Places S)) d (·.Closures (Defines S))

/-- The same of the evaluation of a node. -/
abbrev Eval.Places (S : Source → Prop) (p : Moment H) (d : Nat) :
    EStateM.Result Interrupt (Machine H) Value → Prop :=
  Eval.Upholds (Defines S) (fun _ => True) (Halt.Tells (p.Places S)) d (·.Closures (Defines S))

namespace Moment

variable {S : Source → Prop} {p : Moment H} (hp : ∀ s, p.Evaluates s → S s)

section

variable {n depth : Nat} {m : Machine H} {calls : List Value}
  (ih : ∀ {x form env m calls depth}, Spells S (form, x) → p.Reaches ⟨n, .node x env, m, calls⟩ →
    m.Upholds (Defines S) (fun _ => True) depth → Eval.Places S p depth (visit n x env m))

include ih

/-- A body or a program fails where its nodes do, or at a loop signal that gets to its edge. -/
theorem edge_places {x : Node} {form : Form} {env : Env} (hx : Spells S (form, x))
    (hreach : p.Reaches ⟨n, .node x env, m, calls⟩)
    (hm : m.Upholds (Defines S) (fun _ => True) depth) (trace : Trace) {finish : Value → Value}
    (hfinish : ∀ v, v.Closures (Defines S) → (finish v).Closures (Defines S)) :
    Run.Places S p depth ((visit n x env).toRun trace finish m) := by
  refine Eval.toRun_upholds (ih hx hreach hm) (fun s hstops f hf => ?_) trace hfinish
  have exposed {y : Node} (hy : x.Exposes y) (hlist : ∀ xs s, y ≠ .list xs s) :
      ∃ s, S s ∧ y.span.LiesIn s := by
    obtain ⟨form', hy⟩ := hx.exposed hy
    exact hy.liesIn_of_ne_list hlist
  rcases hstops with hstops | hstops
  · exact .of_span (exposed ((visit_staysIn n x env).of_stops trivial hstops) nofun) hf
  · exact .of_span (exposed ((visit_staysIn n x env).of_stops trivial hstops) nofun) hf

include hp

theorem program_places {source : Source} (hreach : p.Reaches ⟨n, .program source, m, calls⟩)
    (hm : m.Upholds (Defines S) (fun _ => True) depth) :
    Run.Places S p depth (Visit.runSource (visit n) source m) := by
  refine Visit.runSource_upholds hm (fun f hf hkind => ?_) fun x hx hstarted => ?_
  · rw [Node.untraced_of_ofSource hf] at hkind
    cases hkind
  · have hspells : Spells S (.block, x) := ⟨source, x, hp source ⟨_, _, _, hreach⟩, hx, .refl _⟩
    exact edge_places ih hspells (hreach.tail (.program hx)) hstarted _ fun _ hv => hv

/-- What a call itself fails with points to the call. -/
theorem call_places {g : Value} {values : List Value}
    (hreach : p.Reaches ⟨n, .call g values, m, calls⟩)
    (hm : m.Upholds (Defines S) (fun _ => True) depth) (hspan : ∃ s, S s ∧ g.span.LiesIn s)
    (hg : g.Closures (Defines S)) (hvalues : ∀ v ∈ values, v.Closures (Defines S)) :
    Run.Places S p depth (Visit.apply (visit n) g values m) := by
  have hfail (f : Diagnostic) (hf : f.span = g.span) : p.Places S f := .of_span hspan hf
  refine Visit.apply_upholds hfail hm fun hdepth hentered => ?_
  have hinside := hreach.tail (.enter hdepth)
  refine Visit.enter_upholds hfail (Host.upholds_nothing fun _ => trivial) hentered hvalues
    (fun f hf hcount hbody => ?_) fun v path text hrun hargs hpath hload hscript => ?_
  · refine edge_places ih (hg f hf) (hinside.tail (.body hf hcount)) hbody _ fun v hv => ?_
    split
    · exact hv
    · exact .of_not_function rfl
  · subst hargs
    exact EndsIn.imp_error
      (program_places hp ih (hinside.tail (.script hrun hpath hload)) hscript) fun _ => .of

end

include hp in
/-- The evaluation of a node of an evaluated program fails only where it points into such a program,
unless an operand has no place. -/
theorem visit_places {n : Nat} {x : Node} {form : Form} {env : Env} {m : Machine H}
    {calls : List Value} {depth : Nat} (hx : Spells S (form, x))
    (hreach : p.Reaches ⟨n, .node x env, m, calls⟩)
    (hm : m.Upholds (Defines S) (fun _ => True) depth) :
    Eval.Places S p depth (visit n x env m) := by
  induction n generalizing x form env m calls depth with
  | zero => exact ⟨hm, trivial⟩
  | succ n ih =>
      refine Visit.step_upholds hm (fun y m' hy hm' => ?_) (fun g values m' hcalls hg hvalues hm' => ?_)
        ?_ (fun f hf => places_of_raises hx hreach hf) fun _ => trivial
      · obtain ⟨form', hspells⟩ := hx.part hy.mem_parts
        exact ih hspells (hreach.tail (.part hy)) hm'
      · cases hcalls with
        | mk hg₀ hargs =>
            exact call_places hp ih (hreach.tail (.call hg₀ hargs)) hm' (hx.liesIn_of_ne_list nofun)
              hg hvalues
      · rintro name params body arrow span rfl
        exact hx.piece List.mem_cons_self

end Moment

/-! ## Failures without frames -/

namespace Point

variable {p q : Point H} {d : Diagnostic}

/-- The moment at which the evaluation at a point starts. -/
def moment (p : Point H) (calls : List Value) : Moment H :=
  ⟨p.fuel, .node p.node p.env, p.machine, calls⟩

theorem Next.moment (h : p.Next q) (calls : List Value) :
    ∃ calls', (p.moment calls).Reaches (q.moment calls') := by
  cases h with
  | inside h => exact ⟨calls, .single (.part h)⟩
  | body h =>
      obtain ⟨hg, hargs, hdepth, hf, hcount⟩ := h
      exact ⟨_, .tail (.tail (.single (.call hg hargs)) (.enter hdepth)) (.body hf hcount)⟩

theorem Reaches.moment (h : p.Reaches q) (calls : List Value) :
    ∃ calls', (p.moment calls).Reaches (q.moment calls') := by
  induction h with
  | refl => exact ⟨calls, .refl⟩
  | tail _ hnext ih =>
      obtain ⟨calls', ih⟩ := ih
      obtain ⟨calls'', hnext⟩ := hnext.moment calls'
      exact ⟨calls'', ih.trans hnext⟩

/-- A body is evaluated in a frame of its own. -/
theorem Reaches.trace_ne_nil (h : p.Reaches q) (hp : p.env.trace ≠ []) : q.env.trace ≠ [] := by
  induction h with
  | refl => exact hp
  | tail _ hnext ih =>
      cases hnext with
      | inside h => exact ih
      | body h =>
          cases h
          exact List.cons_ne_nil _ _

theorem FailsItself.unframed (h : p.FailsItself d) (hp : p.env.trace ≠ []) (hd : d.trace = [])
    (calls : List Value) : (p.moment calls).Unframed d := by
  obtain ⟨n, x, env, m, as⟩ := p
  cases n with
  | zero => cases stops_throw.mp h.fails
  | succ n =>
      obtain ⟨y, m', hy, hfails⟩ | ⟨a, y, env', m', hy, hfails⟩ | ⟨as, t, -, ht, htrace⟩ :=
        Visit.fails_of_step h.fails
      · exact absurd hfails (h.next _ (.inside hy) d)
      · exact absurd hfails (h.next _ (.body hy) d)
      · rw [hd] at htrace
        have hnil : t = [] := (List.append_eq_nil_iff.mp htrace.symm).2
        cases ht with
        | node _ => exact absurd hnil hp
        | subject hy ha => exact .mk h.fails hy ha hnil hd

end Point

/-! ## Sessions -/

namespace Session

variable {S : Source → Prop} {m : Machine H} {n : Nat} {source : Source} {d : Diagnostic}

/-- The sources in `S`, and those that are evaluated when a program is run. -/
def evaluated (S : Source → Prop) (n : Nat) (source : Source) (m : Machine H) (s : Source) : Prop :=
  S s ∨ Moment.Evaluates ⟨n, .program source, m, []⟩ s

/-- A session comes to `m` by runs that have evaluated the sources in `S`. What the host is like may
change in between. -/
inductive History : (Source → Prop) → Machine H → Prop
  | start (host : H) : History (fun _ => False) (start host)
  | host {S : Source → Prop} {m : Machine H} (h : History S m) (host : H) : History S { m with host }
  | run {S : Source → Prop} {m : Machine H} (h : History S m) (n : Nat) (source : Source) :
      History (evaluated S n source m) (.ofResult (run n source m))

theorem run_places (hm : m.store.Closures (Defines S)) (n : Nat) (source : Source) :
    Run.Places (evaluated S n source m) ⟨n, .program source, m, []⟩ m.depth (run n source m) := by
  have hevaluated (s : Source) (hs : Moment.Evaluates ⟨n, .program source, m, []⟩ s) :
      evaluated S n source m s := .inr hs
  have hdefines (f : Closure) (hf : Defines S f) : Defines (evaluated S n source m) f :=
    hf.mono fun _ => .inl
  exact Moment.program_places hevaluated (Moment.visit_places hevaluated) .refl
    ⟨hm.mono hdefines, trivial, rfl⟩

/-- A session holds no functions but those of the programs that it has evaluated. -/
theorem History.closures (h : History S m) : m.store.Closures (Defines S) := by
  induction h with
  | start host => exact startStore_closures _
  | host _ host ih => exact ih
  | @run S m h n source ih => exact (run_places ih n source).ofResult.store

/-- A program fails without frames only where a value is taken that carries none. -/
theorem unframed_of_run {x : Node} (hx : Node.ofSource source = .ok x)
    (h : Stops (run n source) m (.failure d)) (hd : d.trace = []) :
    ∃ q, Moment.Reaches ⟨n, .program source, m, []⟩ q ∧ q.Unframed d := by
  rcases Eval.fails_of_toRun (fails_of_run hx h) with hfails | htrace
  · obtain ⟨q, hq, hitself⟩ := Point.exists_failsItself (p := outset n x source m) hfails
    obtain ⟨calls, hreach⟩ := hq.moment []
    exact ⟨_, .head (.program hx) hreach,
      hitself.unframed (hq.trace_ne_nil (List.cons_ne_nil _ _)) hd calls⟩
  · rw [hd] at htrace
    cases htrace

/-- In a session of any runs, a failure with a traceback points into the source of a program that
has been evaluated, unless an operator takes the null of a construct without a value, which has no
place, or an operator or a call takes a value that carries no frames. A file is run like its text.
-/
theorem failures_point_into_sources (hm : History S m) (n : Nat) :
    (∀ source d m', run n source m = .error (.failure d) m' → d.kind.traced →
      (∃ s, evaluated S n source m s ∧ d.PointsInto s) ∨
        ∃ q, Moment.Reaches ⟨n, .program source, m, []⟩ q ∧ (q.Misplaces d ∨ q.Unframed d)) ∧
    ∀ path text, Host.load m.host path = .answer text →
      runFile n path m = run n ⟨path, text⟩ m := by
  refine ⟨fun source d m' h hkind => ?_, fun path text hload => ?_⟩
  · have hends := run_places hm.closures n source
    rw [h] at hends
    cases hx : Node.ofSource source with
    | error d₀ =>
        obtain rfl := (fails_run_of_error hx).mp ⟨m', h⟩
        rw [Node.untraced_of_ofSource hx] at hkind
        cases hkind
    | ok x =>
        rcases hends.2 hkind with ⟨s, hs, hlies⟩ | ⟨q, hq, hmisplaces⟩
        · by_cases htrace : d.trace = []
          · obtain ⟨q, hq, hunframed⟩ := unframed_of_run hx ⟨m', h⟩ htrace
            exact .inr ⟨q, hq, .inr hunframed⟩
          · exact .inl ⟨s, hs, hlies.pointsInto htrace⟩
        · exact .inr ⟨q, hq, .inl hmisplaces⟩
  · exact bind_of_ok (Run.ask_of_load hload _)

/-- A function that one program defines and the next one calls fails where it is written. -/
theorem failures_point_into_sources_earlier :
    let first : Source := ⟨"a", "FN f(x) -> x + \"s\""⟩
    let second : Source := ⟨"b", "f(1)"⟩
    let m : Machine MemoryHost := start (.ofInput [] [])
    let m₁ : Machine MemoryHost := .ofResult (run 20 first m)
    let S := evaluated (fun _ => False) 20 first m
    History S m₁ ∧ ∃ d m', run 20 second m₁ = .error (.failure d) m' ∧ d.kind.traced ∧
      d.span.start.source = first ∧ d.span.excerpt = "FN f(x) -> x + \"s\"\n           ^^^^^^^" ∧
      ((∃ s, evaluated S 20 second m₁ s ∧ d.PointsInto s) ∨
        ∃ q, Moment.Reaches ⟨20, .program second, m₁, []⟩ q ∧ (q.Misplaces d ∨ q.Unframed d)) := by
  intro first second m m₁ S
  have hhistory : History S m₁ := .run (.start _) 20 first
  have hends : toldOf? (fun d _ => (d.kind, d.span.start.source, d.span.excerpt))
      (run 20 second m₁) =
        some (.runtime, first, "FN f(x) -> x + \"s\"\n           ^^^^^^^") := by decide +kernel
  obtain ⟨d, m', hrun, htold⟩ := fails_of_toldOf? hends
  obtain ⟨hkind, hsource, hexcerpt⟩ : d.kind = .runtime ∧ d.span.start.source = first ∧ _ := by
    simpa using htold
  have htraced : d.kind.traced := by rw [hkind]; rfl
  exact ⟨hhistory, d, m', hrun, htraced, hsource, hexcerpt,
    (failures_point_into_sources hhistory 20).1 second d m' hrun htraced⟩

/-- The null of an `IF` without a branch is a zero without a place, so a division by it is told of a
program that has no name, and no program that has been started has the line that is shown. -/
theorem failures_point_into_sources_nowhere :
    ∃ d m', run 20 ⟨"t", "1 / IF 0 THEN 1"⟩ (start (MemoryHost.ofInput [] [])) =
        .error (.failure d) m' ∧ d.kind.traced ∧ m'.log = [.finished "t" false, .started "t"] ∧
      d.frames = ["File , line 1, in <program>"] ∧
      ∀ s, .started s.name ∈ m'.log → ¬ d.PointsInto s := by
  have hends : toldOf? (fun d m => (d.kind, m.log, d.frames, d.span.start.source.name))
      (run 20 ⟨"t", "1 / IF 0 THEN 1"⟩ (start (MemoryHost.ofInput [] []))) =
        some (.runtime, [.finished "t" false, .started "t"], ["File , line 1, in <program>"], "") := by
    decide +kernel
  obtain ⟨d, m', hrun, htold⟩ := fails_of_toldOf? hends
  obtain ⟨hkind, hlog, hframes, hname⟩ : d.kind = .runtime ∧
      m'.log = [.finished "t" false, .started "t"] ∧ d.frames = ["File , line 1, in <program>"] ∧
      d.span.start.source.name = "" := by
    simpa using htold
  refine ⟨d, m', hrun, by rw [hkind]; rfl, hlog, hframes, fun s hs hpoints => ?_⟩
  rw [hpoints.source.1] at hname
  rw [hlog, hname] at hs
  simp at hs

end Session

end BasicScript
