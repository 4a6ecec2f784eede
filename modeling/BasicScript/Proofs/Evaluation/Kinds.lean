import BasicScript.Proofs.Console.Asking
import BasicScript.Proofs.Evaluation.Including
import BasicScript.Proofs.Evaluation.Signals
import BasicScript.Proofs.Grammar.FirstError

/-! # Kinds of failures

A text that is cut into no tokens, or whose tokens make no program, is told of before anything is
carried out. All that fails later is a runtime error, unless the program itself asks for input that
there is none of. -/

namespace BasicScript

/-! ## Failures of a task -/

variable {H α : Type} {m : Machine H} {d : Diagnostic}

theorem Run.fails_ask {onFault : Host.Fault → Diagnostic} {f : H → Host.Reply α × H} :
    Stops (ask onFault f) m (.failure d) ↔
      ∃ fault host, f m.host = (.fault fault, host) ∧ onFault fault = d := by
  constructor
  · rintro ⟨m', h⟩
    unfold ask at h
    split at h
    · cases h
    · cases h
      exact ⟨_, _, ‹_›, rfl⟩
    · cases h
  · rintro ⟨fault, host, hf, rfl⟩
    exact ⟨{ m with host }, by rw [ask, hf]⟩

variable [Host H]

namespace Builtin

variable {run : Source → Run H Value} {site : CallSite}

theorem fails_input : Stops (input.execute run site []) m (.failure d) ↔
    ∃ fault host, Host.readLine m.host = (.fault fault, host) ∧ site.hostFailure fault = d := by
  simp only [execute, stops_bind, Run.fails_ask, not_stops_pure, and_false, exists_false, or_false]

theorem fails_inputNum : Stops (inputNum.execute run site []) m (.failure d) ↔
    ∃ fault host, Host.readNumber m.host = (.fault fault, host) ∧ site.hostFailure fault = d := by
  simp only [execute, stops_bind, Run.fails_ask, not_stops_pure, and_false, exists_false, or_false]

theorem fails_of_execute {b : Builtin} {args : List Value} (hcount : b.params.length = args.length)
    (h : Stops (b.execute run site args) m (.failure d)) :
    d.kind = .runtime ∨ d.kind = .internal ∧ args = [] ∧
      (b = .input ∧ (∃ fault host, Host.readLine m.host = (.fault fault, host)) ∨
        b = .inputNum ∧ ∃ fault host, Host.readNumber m.host = (.fault fault, host)) := by
  by_cases hreads : b.readsInput
  · right
    cases b with
    | input =>
        obtain rfl := List.length_eq_zero_iff.mp hcount.symm
        rcases fails_input.mp h with ⟨fault, host, hread, rfl⟩
        exact ⟨rfl, rfl, .inl ⟨rfl, fault, host, hread⟩⟩
    | inputNum =>
        obtain rfl := List.length_eq_zero_iff.mp hcount.symm
        rcases fails_inputNum.mp h with ⟨fault, host, hread, rfl⟩
        exact ⟨rfl, rfl, .inr ⟨rfl, fault, host, hread⟩⟩
    | _ => cases hreads
  · left
    have hrefuses : Run.Refuses (·.kind = .runtime) (b.execute run site args) :=
      execute_refuses (fun _ => rfl) (fun h => absurd h hreads) run args
    exact hrefuses.of_stops trivial h

end Builtin

namespace Moment

/-- Carrying out the task fails with `d`. -/
def Fails (p : Moment H) (d : Diagnostic) : Prop :=
  match p.task with
  | .node x env => (visit p.fuel x env).Fails p.machine d
  | .call g args => Stops (Visit.apply (visit p.fuel) g args) p.machine (.failure d)
  | .inside g args => Stops (Visit.enter (visit p.fuel) g args) p.machine (.failure d)
  | .program source => Stops (Visit.runSource (visit p.fuel) source) p.machine (.failure d)

/-- Carrying out a task comes to carry out another, which is no script that is included. -/
def OwnNext (p q : Moment H) : Prop :=
  p.Next q ∧ ∀ source, q.task ≠ .program source

/-- Carrying out a task comes to carry out another in the end, and not in an included script. -/
def OwnReaches (p q : Moment H) : Prop :=
  Relation.ReflTransGen OwnNext p q

/-- A call of `input` or `input_num` is carried out, and the host has no answer. -/
inductive Faults : Moment H → Prop
  | input {n g m calls f h} (hg : g.datum = .builtin .input)
      (hread : Host.readLine m.host = (.fault f, h)) : Faults ⟨n, .inside g [], m, calls⟩
  | inputNum {n g m calls f h} (hg : g.datum = .builtin .inputNum)
      (hread : Host.readNumber m.host = (.fault f, h)) : Faults ⟨n, .inside g [], m, calls⟩

/-! ## From a part to the whole -/

variable {p q : Moment H}

/-- A task fails where one fails that it comes to. -/
theorem OwnNext.fails (h : p.OwnNext q) (hq : q.Fails d) : p.Fails d := by
  rcases h with ⟨h, hown⟩
  cases h with
  | part hy => exact hy.fails hq
  | call hg hargs => exact Visit.fails_call.mpr (.inr ⟨_, _, hg, .inr ⟨_, _, hargs, hq⟩⟩)
  | enter hdepth => exact (Visit.fails_apply hdepth).mpr hq
  | body hf hcount => exact Visit.fails_enter_of_body hf hcount hq
  | script => exact absurd rfl (hown _)
  | program hx => exact (Visit.fails_runSource hx).mpr (Eval.Fails.toRun hq _ _)

theorem OwnReaches.fails (h : p.OwnReaches q) (hq : q.Fails d) : p.Fails d := by
  induction h using Relation.ReflTransGen.head_induction_on with
  | refl => exact hq
  | head hnext _ ih => exact hnext.fails ih

/-- A script that fails is told of by a runtime error of the call that includes it. -/
theorem fails_of_script {n : Nat} {g v : Value} {path text : String} {m : Machine H}
    {calls : List Value} (hg : g.datum = .builtin .run) (hpath : v.text? = some path)
    (hload : Host.load m.host path = .answer text)
    (h : Fails ⟨n, .program ⟨path, text⟩, included path m, calls⟩ d) :
    ∃ e, Fails ⟨n, .inside g [v], m, calls⟩ e ∧ e.kind = .runtime := by
  rcases h with ⟨m', h⟩
  refine ⟨Builtin.scriptFailure ⟨g.span, Visit.entered g "RUN"⟩ path d, ⟨m', ?_⟩, rfl⟩
  have hmapped : (Visit.runSource (visit n) ⟨path, text⟩).mapFailure
      (Builtin.scriptFailure ⟨g.span, Visit.entered g "RUN"⟩ path) (included path m) =
        .error (.failure (Builtin.scriptFailure ⟨g.span, Visit.entered g "RUN"⟩ path d)) m' := by
    rw [Run.mapFailure, h]
  exact (Visit.enter_run hg hpath hload).trans (bind_of_error hmapped)

theorem Next.fails (h : p.Next q) (hq : q.Fails d) :
    ∃ e, p.Fails e ∧ (e = d ∨ e.kind = .runtime) := by
  by_cases hown : ∀ source, q.task ≠ .program source
  · exact ⟨d, OwnNext.fails ⟨h, hown⟩ hq, .inl rfl⟩
  · cases h with
    | script hg hpath hload =>
        rcases fails_of_script hg hpath hload hq with ⟨e, he, hkind⟩
        exact ⟨e, he, .inr hkind⟩
    | _ => exact absurd nofun hown

theorem Reaches.fails (h : p.Reaches q) (hq : q.Fails d) (hd : d.kind = .runtime) :
    ∃ e, p.Fails e ∧ e.kind = .runtime := by
  induction h using Relation.ReflTransGen.head_induction_on with
  | refl => exact ⟨d, hq, hd⟩
  | head hnext _ ih =>
      rcases ih with ⟨e, he, hkind⟩
      rcases hnext.fails he with ⟨e', he', rfl | hkind'⟩
      · exact ⟨e', he', hkind⟩
      · exact ⟨e', he', hkind'⟩

theorem Faults.fails (h : p.Faults) : ∃ d, p.Fails d ∧ d.kind = .internal := by
  cases h with
  | @input n g m calls fault host hg hread =>
      refine ⟨CallSite.hostFailure ⟨g.span, Visit.entered g "input"⟩ fault, ?_, rfl⟩
      exact Visit.fails_enter_of_builtin hg rfl (Builtin.fails_input.mpr ⟨fault, host, hread, rfl⟩)
  | @inputNum n g m calls fault host hg hread =>
      refine ⟨CallSite.hostFailure ⟨g.span, Visit.entered g "input_num"⟩ fault, ?_, rfl⟩
      exact Visit.fails_enter_of_builtin hg rfl
        (Builtin.fails_inputNum.mpr ⟨fault, host, hread, rfl⟩)

/-! ## From the whole to a part -/

/-- How much there may be left to carry out. -/
def weight (p : Moment H) : Nat :=
  match p.task with
  | .node .. => 3 * p.fuel
  | .inside .. => 3 * p.fuel + 1
  | .call .. => 3 * p.fuel + 2
  | .program _ => 3 * p.fuel + 1

theorem OwnNext.weight_lt (h : p.OwnNext q) : q.weight < p.weight := by
  rcases h with ⟨h, hown⟩
  cases h with
  | script => exact absurd rfl (hown _)
  | _ => simp [weight]; try omega

theorem fails_cases (h : p.Fails d) (hp : ∀ source, p.task ≠ .program source) :
    (∃ q, p.OwnNext q ∧ q.Fails d) ∨ d.kind = .runtime ∨ d.kind = .internal ∧ p.Faults := by
  obtain ⟨n, task, m, calls⟩ := p
  cases task with
  | node x env =>
      cases n with
      | zero => cases stops_throw.mp h
      | succ n =>
          rcases Visit.fails_parts h with ⟨y, m', hy, h⟩ | ⟨g, values, m', hcalls, h⟩ | ⟨-, t, -, h⟩
          · exact .inl ⟨⟨n, .node y env, m', calls⟩, ⟨.part hy, nofun⟩, h⟩
          · rcases hcalls with ⟨hg, hargs⟩
            exact .inl ⟨⟨n, .call _ values, m', calls⟩, ⟨.call hg hargs, nofun⟩, h⟩
          · exact .inr (.inl h.kind)
  | call g values =>
      by_cases hdepth : m.depth < maxDepth
      · exact .inl ⟨_, ⟨.enter hdepth, nofun⟩, (Visit.fails_apply hdepth).mp h⟩
      · exact .inr (.inl (Visit.raised_of_deep_apply hdepth h).kind)
  | inside g values =>
      rcases Visit.fails_of_enter h with ⟨f, hf, hcount, h⟩ | ⟨b, hb, hcount, h⟩ | ⟨name, -, h⟩ |
        ⟨-, h⟩
      · exact .inl ⟨_, ⟨.body hf hcount, nofun⟩, h⟩
      · rcases Builtin.fails_of_execute hcount h with hkind | ⟨hkind, rfl, hread⟩
        · exact .inr (.inl hkind)
        · rcases hread with ⟨rfl, fault, host, hread⟩ | ⟨rfl, fault, host, hread⟩
          · exact .inr (.inr ⟨hkind, .input hb hread⟩)
          · exact .inr (.inr ⟨hkind, .inputNum hb hread⟩)
      · exact .inr (.inl h.kind)
      · exact .inr (.inl h.kind)
  | program source => exact absurd rfl (hp source)

/-- What fails otherwise than by a runtime error comes to a call that the host has no answer for. -/
theorem Fails.exists_faults (h : p.Fails d) (hp : ∀ source, p.task ≠ .program source)
    (hd : d.kind ≠ .runtime) : d.kind = .internal ∧ ∃ q, p.OwnReaches q ∧ q.Faults := by
  induction hweight : p.weight using Nat.strongRecOn generalizing p with
  | ind w ih =>
      rcases fails_cases h hp with ⟨q, hq, h⟩ | hkind | ⟨hkind, hfaults⟩
      · rcases ih q.weight (hweight ▸ hq.weight_lt) h hq.2 rfl with ⟨hkind, r, hr, hfaults⟩
        exact ⟨hkind, r, .head hq hr, hfaults⟩
      · exact absurd hkind hd
      · exact ⟨hkind, p, .refl, hfaults⟩

end Moment

/-! ## Input from memory -/

namespace MemoryHost

theorem readLine_faults {h : MemoryHost} :
    (∃ fault h', Host.readLine h = (.fault fault, h')) ↔ h.input = [] := by
  cases hinput : h.input with
  | nil => simp [readLine_nil hinput]
  | cons line rest => simp [readLine_cons hinput]

/-- A number is asked for in vain if no line that is left is one. -/
theorem readNumber_faults {h : MemoryHost} :
    (∃ fault h', Host.readNumber h = (.fault fault, h')) ↔
      ∀ line ∈ h.input, Number.ofText? line = none := by
  obtain ⟨refused, line, rest, x, hinput, hrefused, hx⟩ | hnone := Number.first_line h.input
  · have hline : line ∈ h.input := by simp [hinput]
    rw [readNumber_of_number hinput hrefused hx]
    refine iff_of_false (by simp) fun hnone => ?_
    simp [hnone line hline] at hx
  · rw [readNumber_of_none hnone]
    exact iff_of_true ⟨_, _, rfl⟩ hnone

end MemoryHost

/-- A call of `input` finds no line left, or a call of `input_num` no number in the lines that are
left. -/
inductive Moment.Exhausts : Moment MemoryHost → Prop
  | input {n g m calls} (hg : g.datum = .builtin .input) (hinput : m.host.input = []) :
      Exhausts ⟨n, .inside g [], m, calls⟩
  | inputNum {n g m calls} (hg : g.datum = .builtin .inputNum)
      (hinput : ∀ line ∈ m.host.input, Number.ofText? line = none) :
      Exhausts ⟨n, .inside g [], m, calls⟩

theorem Moment.faults_iff {p : Moment MemoryHost} : p.Faults ↔ p.Exhausts := by
  constructor
  · rintro (⟨hg, hread⟩ | ⟨hg, hread⟩)
    · exact .input hg (MemoryHost.readLine_faults.mp ⟨_, _, hread⟩)
    · exact .inputNum hg (MemoryHost.readNumber_faults.mp ⟨_, _, hread⟩)
  · rintro (⟨hg, hinput⟩ | ⟨hg, hinput⟩)
    · obtain ⟨fault, h', hread⟩ := MemoryHost.readLine_faults.mpr hinput
      exact .input hg hread
    · obtain ⟨fault, h', hread⟩ := MemoryHost.readNumber_faults.mpr hinput
      exact .inputNum hg hread

/-! ## Runs -/

namespace Session

variable {n : Nat} {source : Source}

/-- A run of a program that cannot be read fails with what is told of it. -/
theorem fails_run_of_error {d₀ : Diagnostic} (h : Node.ofSource source = .error d₀) :
    Stops (run n source) m (.failure d) ↔ d = d₀ := by
  have hrun : run n source m = _ := Visit.runSource_of_error h
  simp [Stops, hrun, eq_comm]

/-- A program that can be read fails by a runtime error, or where the host has no answer for it. -/
theorem kind_of_run {x : Node} (hx : Node.ofSource source = .ok x)
    (h : Stops (run n source) m (.failure d)) :
    d.kind = .runtime ∨ d.kind = .internal ∧
      ∃ q, Moment.OwnReaches ⟨n, .program source, m, []⟩ q ∧ q.Faults := by
  rcases Eval.raised_of_toRun ((Visit.fails_runSource hx).mp h) with hnode | hraised
  · by_cases hkind : d.kind = .runtime
    · exact .inl hkind
    · rcases Moment.Fails.exists_faults
        (p := ⟨n, .node x Visit.programEnv, { m with log := .started source.name :: m.log }, []⟩)
        hnode nofun hkind with ⟨hinternal, q, hq, hfaults⟩
      exact .inr ⟨hinternal, q, .head ⟨.program hx, nofun⟩ hq, hfaults⟩
  · exact .inl hraised.kind

/-- What a failure of a run tells of the phase in which it comes up. -/
theorem phase_of_fails (h : Stops (run n source) m (.failure d)) :
    source.tokens = .error d ∨ (∃ ts, source.tokens = .ok ts ∧ Node.ofTokens ts = .error d) ∨
    d.kind = .runtime ∨ d.kind = .internal ∧
      ∃ q, Moment.OwnReaches ⟨n, .program source, m, []⟩ q ∧ q.Faults := by
  cases hsource : Node.ofSource source with
  | error d₀ =>
      obtain rfl := (fails_run_of_error hsource).mp h
      rcases Node.ofSource_eq_error.mp hsource with htokens | hparse
      · exact .inl htokens
      · exact .inr (.inl hparse)
  | ok x => exact .inr (.inr (kind_of_run hsource h))

theorem fails_lexically_iff :
    (∃ d, Stops (run n source) m (.failure d) ∧
        (d.kind = .illegalCharacter ∨ d.kind = .expectedCharacter)) ↔
      ∃ d, source.tokens = .error d := by
  constructor
  · rintro ⟨d, h, hkind⟩
    rcases phase_of_fails h with htokens | ⟨ts, -, hparse⟩ | hruntime | ⟨hinternal, -⟩
    · exact ⟨d, htokens⟩
    · simp [Node.kind_of_ofTokens hparse] at hkind
    · simp [hruntime] at hkind
    · simp [hinternal] at hkind
  · rintro ⟨d, htokens⟩
    have hsource : Node.ofSource source = .error d := Node.ofSource_eq_error.mpr (.inl htokens)
    exact ⟨d, (fails_run_of_error hsource).mpr rfl, Source.kind_of_tokens htokens⟩

theorem fails_syntactically_iff :
    (∃ d, Stops (run n source) m (.failure d) ∧ d.kind = .invalidSyntax) ↔
      ∃ ts d, source.tokens = .ok ts ∧ Node.ofTokens ts = .error d := by
  constructor
  · rintro ⟨d, h, hkind⟩
    rcases phase_of_fails h with htokens | ⟨ts, hts, hparse⟩ | hruntime | ⟨hinternal, -⟩
    · simpa [hkind] using Source.kind_of_tokens htokens
    · exact ⟨ts, d, hts, hparse⟩
    · simp [hruntime] at hkind
    · simp [hinternal] at hkind
  · rintro ⟨ts, d, hts, hparse⟩
    have hsource : Node.ofSource source = .error d :=
      Node.ofSource_eq_error.mpr (.inr ⟨ts, hts, hparse⟩)
    exact ⟨d, (fails_run_of_error hsource).mpr rfl, Node.kind_of_ofTokens hparse⟩

theorem fails_internally_iff :
    (∃ d, Stops (run n source) m (.failure d) ∧ d.kind = .internal) ↔
      ∃ q, Moment.OwnReaches ⟨n, .program source, m, []⟩ q ∧ q.Faults := by
  constructor
  · rintro ⟨d, h, hkind⟩
    rcases phase_of_fails h with htokens | ⟨ts, -, hparse⟩ | hruntime | ⟨-, hfaults⟩
    · simpa [hkind] using Source.kind_of_tokens htokens
    · simp [Node.kind_of_ofTokens hparse] at hkind
    · simp [hruntime] at hkind
    · exact hfaults
  · rintro ⟨q, hq, hfaults⟩
    rcases hfaults.fails with ⟨d, hd, hkind⟩
    exact ⟨d, hq.fails hd, hkind⟩

end Session

/-- A run fails by a lexical error if and only if its text is cut into no tokens, and by a syntax
error if and only if the tokens make no program; nothing is changed then. Any other failure is a
runtime error, or an internal error, which it is if and only if the program itself asks for input
that there is none of. A script that fails while it is included is a runtime error of the run. -/
theorem failures_show_their_phase (n : Nat) (source : Source) (m : Machine MemoryHost) :
    let start : Moment MemoryHost := ⟨n, .program source, m, []⟩
    ((∃ d, Stops (Session.run n source) m (.failure d) ∧
        (d.kind = .illegalCharacter ∨ d.kind = .expectedCharacter)) ↔
      ∃ d, source.tokens = .error d) ∧
    ((∃ d, Stops (Session.run n source) m (.failure d) ∧ d.kind = .invalidSyntax) ↔
      ∃ ts d, source.tokens = .ok ts ∧ Node.ofTokens ts = .error d) ∧
    (∀ d, Node.ofSource source = .error d →
      ∃ m', Session.run n source m = .error (.failure d) m' ∧ m'.store = m.store ∧
        m'.host = m.host) ∧
    (∀ x d, Node.ofSource source = .ok x → Stops (Session.run n source) m (.failure d) →
      d.kind = .runtime ∨ d.kind = .internal) ∧
    ((∃ d, Stops (Session.run n source) m (.failure d) ∧ d.kind = .internal) ↔
      ∃ q, start.OwnReaches q ∧ q.Exhausts) ∧
    ∀ k g v path text m₁ calls d, start.Reaches ⟨k, .inside g [v], m₁, calls⟩ →
      g.datum = .builtin .run → v.text? = some path → Host.load m₁.host path = .answer text →
      Stops (Session.run k ⟨path, text⟩) (Moment.included path m₁) (.failure d) →
      ∃ e, Stops (Session.run n source) m (.failure e) ∧ e.kind = .runtime := by
  intro start
  refine ⟨Session.fails_lexically_iff, Session.fails_syntactically_iff, fun d hd => ?_,
    fun x d hx h => ?_, ?_, ?_⟩
  · exact ⟨_, Visit.runSource_of_error hd, rfl, rfl⟩
  · exact (Session.kind_of_run hx h).imp_right And.left
  · apply Session.fails_internally_iff.trans
    simp only [Moment.faults_iff, start]
  · intro k g v path text m₁ calls d hreaches hg hpath hload h
    rcases Moment.fails_of_script hg hpath hload h with ⟨e, he, hkind⟩
    exact hreaches.fails he hkind

/-- A script asks in vain for input, and the run that includes it fails by a runtime error. -/
example :
    let m : Machine MemoryHost := Session.start (.ofInput [] [("p", "input()")])
    (match Session.run 20 ⟨"t", "RUN(\"p\")"⟩ m with
      | .error (.failure d) _ => some d.kind
      | _ => none) = some .runtime := by decide +kernel

end BasicScript
