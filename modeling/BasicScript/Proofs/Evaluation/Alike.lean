import BasicScript.Evaluation.Visit
import BasicScript.Proofs.Data.Rendering
import BasicScript.Proofs.Evaluation.Operators

/-! # Evaluations side by side

Machines are alike when their stores are and they agree on the host and on the number of active
calls. What halts or interrupts an evaluation may differ in the places it carries. -/

namespace BasicScript

variable {H α β : Type}

/-- The same report but for its places. A failure of a script that `RUN` includes quotes the report
of that script, places and all. -/
inductive Diagnostic.Alike : Diagnostic → Diagnostic → Prop
  | same {d d' : Diagnostic} (h : d.Same d') : Alike d d'
  | script {site site' : CallSite} {path : String} {d d' : Diagnostic} (h : Alike d d') :
      Alike (Builtin.scriptFailure site path d) (Builtin.scriptFailure site' path d')

inductive Halt.Alike : Halt → Halt → Prop
  | failure {d d' : Diagnostic} (h : d.Alike d') : Alike (.failure d) (.failure d')
  | awaits (q : Host.Query) : Alike (.awaits q) (.awaits q)
  | outOfFuel : Alike .outOfFuel .outOfFuel

inductive Interrupt.Alike (ρ : ListRef → ListRef → Prop) : Interrupt → Interrupt → Prop
  | halt {e e' : Halt} (h : e.Alike e') : Alike ρ (.halt e) (.halt e')
  | returned {v v' : Value} (h : v.Alike ρ v') : Alike ρ (.returned v) (.returned v')
  | continued (span span' : Span) : Alike ρ (.continued span) (.continued span')
  | broken (span span' : Span) : Alike ρ (.broken span) (.broken span')

theorem Interrupt.Alike.mono {ρ ρ' : ListRef → ListRef → Prop} {i i' : Interrupt}
    (h : i.Alike ρ i') (hρ : ∀ {l l'}, ρ l l' → ρ' l l') : i.Alike ρ' i' := by
  cases h with
  | halt h => exact .halt h
  | returned h => exact .returned (h.mono hρ)
  | continued span span' => exact .continued span span'
  | broken span span' => exact .broken span span'

/-- Machines that differ in nothing but places, and perhaps in the events they have noted. -/
structure Machine.Alike (ρ : ListRef → ListRef → Prop) (m m' : Machine H) : Prop where
  store : m.store.Alike ρ m'.store
  host : m.host = m'.host
  depth : m.depth = m'.depth

/-- Machines whose stores and logs belong together and that agree on all else. -/
structure Machine.Paired (L : Linking) (m m' : Machine H) : Prop where
  store : L.stores.Paired m.store m'.store
  host : m.host = m'.host
  depth : m.depth = m'.depth
  log : L.logs m.log m'.log

theorem Machine.Paired.alike {L : Linking} {m m' : Machine H} (h : m.Paired L m') :
    m.Alike (L.links m.store.lists.size) m' :=
  ⟨h.store.2, h.host, h.depth⟩

/-- Evaluations of nodes that end in one way, where `ρ n` tells which of the `n` lists of the first
stand for which of the second. -/
abbrev Eval.EndAlike (ρ : Nat → ListRef → ListRef → Prop) :
    EStateM.Result Interrupt (Machine H) Value →
      EStateM.Result Interrupt (Machine H) Value → Prop :=
  EndsAlike (fun t => Value.Alike (ρ t.store.lists.size))
    (fun t => Interrupt.Alike (ρ t.store.lists.size))
    (fun t => Machine.Alike (ρ t.store.lists.size) t)

/-- Calls or programs that end in one way. -/
abbrev Run.EndAlike (ρ : Nat → ListRef → ListRef → Prop) :
    EStateM.Result Halt (Machine H) Value → EStateM.Result Halt (Machine H) Value → Prop :=
  EndsAlike (fun t => Value.Alike (ρ t.store.lists.size)) (fun _ => Halt.Alike)
    (fun t => Machine.Alike (ρ t.store.lists.size) t)

def Linking.machines (L : Linking) : Pairing (Machine H) where
  size m := m.store.lists.size
  Paired := Machine.Paired L

/-- Evaluations of nodes that end in one way. -/
abbrev Eval.Matches (L : Linking) (V : (ListRef → ListRef → Prop) → α → β → Prop) (n : Nat)
    (r : Eval H α) (r' : Eval H β) : Prop :=
  BasicScript.Matches L L.machines Interrupt.Alike V n r r'

/-- Calls or programs that end in one way. -/
abbrev Run.Matches (L : Linking) (V : (ListRef → ListRef → Prop) → α → β → Prop) (n : Nat)
    (r : Run H α) (r' : Run H β) : Prop :=
  BasicScript.Matches L L.machines (fun _ => Halt.Alike) V n r r'

namespace Eval.Matches

variable {L : Linking} {V : (ListRef → ListRef → Prop) → α → β → Prop} {n : Nat}

theorem fail {d d' : Diagnostic} (h : d.Same d') :
    Eval.Matches L V n (Eval.fail d : Eval H α) (Eval.fail d' : Eval H β) :=
  .throw fun _ _ => .halt (.failure (.same h))

theorem inspect {f : Store → α} {f' : Store → β}
    (hf : ∀ s s', n ≤ s.lists.size → L.stores.Paired s s' →
      V (L.links s.lists.size) (f s) (f' s')) :
    Eval.Matches L V n (Eval.inspect f : Eval H α) (Eval.inspect f') :=
  fun _ _ hn hm => .ok ⟨Nat.le_refl _, hf _ _ hn hm.store⟩ hm

/-- What is done to the store keeps it paired, and what is read there is related. -/
theorem store {f : Store → α × Store} {f' : Store → β × Store}
    (hf : ∀ s s', n ≤ s.lists.size → L.stores.Paired s s' →
      s.lists.size ≤ (f s).2.lists.size ∧ V (L.links (f s).2.lists.size) (f s).1 (f' s').1 ∧
        L.stores.Paired (f s).2 (f' s').2) :
    Eval.Matches L V n (Eval.store f : Eval H α) (Eval.store f') := by
  intro m m' hn hm
  obtain ⟨hsize, hv, hs⟩ := hf _ _ hn hm.store
  exact .ok ⟨hsize, hv⟩ ⟨hs, hm.host, hm.depth, hm.log⟩

theorem change {f f' : Store → Store}
    (hf : ∀ s s', n ≤ s.lists.size → L.stores.Paired s s' →
      s.lists.size ≤ (f s).lists.size ∧ L.stores.Paired (f s) (f' s')) :
    Eval.Matches L (fun _ => Eq) n (Eval.change f : Eval H Unit) (Eval.change f') := by
  intro m m' hn hm
  obtain ⟨hsize, hs⟩ := hf _ _ hn hm.store
  exact .ok ⟨hsize, rfl⟩ ⟨hs, hm.host, hm.depth, hm.log⟩

theorem operation {o : Operation α} {o' : Operation β} (h : Operation.Matches L V n o o') :
    Eval.Matches L V n (Eval.operation o : Eval H α) (Eval.operation o') := by
  intro m m' hn hm
  have ho := h m.store m'.store hn hm.store
  unfold Eval.operation
  generalize o m.store = r at ho ⊢
  generalize o' m'.store = r' at ho ⊢
  cases ho with
  | ok hv hs => exact .ok hv ⟨hs, hm.host, hm.depth, hm.log⟩
  | error he hs =>
      exact .error ⟨he.1, .halt (.failure (.same he.2))⟩ ⟨hs, hm.host, hm.depth, hm.log⟩

theorem ofRun {r : Run H α} {r' : Run H β} (h : Run.Matches L V n r r') :
    Eval.Matches L V n (Eval.ofRun r) (Eval.ofRun r') := by
  intro m m' hn hm
  have hr := h m m' hn hm
  unfold Eval.ofRun
  generalize r m = q at hr ⊢
  generalize r' m' = q' at hr ⊢
  cases hr with
  | ok hv hm => exact .ok hv hm
  | error he hm => exact .error ⟨he.1, .halt he.2⟩ hm

/-- Turns of a loop that end in one way. -/
inductive TurnAlike (ρ : ListRef → ListRef → Prop) : Eval.Turn → Eval.Turn → Prop
  | value {v v' : Value} (h : v.Alike ρ v') : TurnAlike ρ (.value v) (.value v')
  | continued : TurnAlike ρ .continued .continued
  | broken : TurnAlike ρ .broken .broken

theorem turn {r r' : Eval H Value} (h : Eval.Matches L Value.Alike n r r') :
    Eval.Matches L TurnAlike n (Eval.turn r) (Eval.turn r') := by
  intro m m' hn hm
  have hr := h m m' hn hm
  unfold Eval.turn
  generalize r m = q at hr ⊢
  generalize r' m' = q' at hr ⊢
  cases hr with
  | ok hv hm => exact .ok ⟨hv.1, .value hv.2⟩ hm
  | error he hm =>
      obtain ⟨hsize, he⟩ := he
      cases he with
      | halt h => exact .error ⟨hsize, .halt h⟩ hm
      | returned h => exact .error ⟨hsize, .returned h⟩ hm
      | continued span span' => exact .ok ⟨hsize, .continued⟩ hm
      | broken span span' => exact .ok ⟨hsize, .broken⟩ hm

theorem toRun {r r' : Eval H Value} (h : Eval.Matches L Value.Alike n r r') (trace trace' : Trace)
    {finish finish' : Value → Value}
    (hfinish : ∀ {ρ v v'}, Value.Alike ρ v v' → (finish v).Alike ρ (finish' v')) :
    Run.Matches L Value.Alike n (r.toRun trace finish) (r'.toRun trace' finish') := by
  intro m m' hn hm
  have hr := h m m' hn hm
  unfold Eval.toRun
  generalize r m = q at hr ⊢
  generalize r' m' = q' at hr ⊢
  cases hr with
  | ok hv hm => exact .ok ⟨hv.1, hfinish hv.2⟩ hm
  | error he hm =>
      obtain ⟨hsize, he⟩ := he
      cases he with
      | halt h => exact .error ⟨hsize, h⟩ hm
      | returned h => exact .ok ⟨hsize, h⟩ hm
      | continued span span' => exact .error ⟨hsize, .failure (.same ⟨rfl, rfl, rfl⟩)⟩ hm
      | broken span span' => exact .error ⟨hsize, .failure (.same ⟨rfl, rfl, rfl⟩)⟩ hm

end Eval.Matches

namespace Run.Matches

variable {L : Linking} {V : (ListRef → ListRef → Prop) → α → β → Prop} {n : Nat}

theorem fail {d d' : Diagnostic} (h : d.Same d') :
    Run.Matches L V n (Run.fail d : Run H α) (Run.fail d' : Run H β) :=
  .throw fun _ _ => .failure (.same h)

theorem inspect {f : Store → α} {f' : Store → β}
    (hf : ∀ s s', n ≤ s.lists.size → L.stores.Paired s s' →
      V (L.links s.lists.size) (f s) (f' s')) :
    Run.Matches L V n (Run.inspect f : Run H α) (Run.inspect f') :=
  fun _ _ hn hm => .ok ⟨Nat.le_refl _, hf _ _ hn hm.store⟩ hm

theorem store {f : Store → α × Store} {f' : Store → β × Store}
    (hf : ∀ s s', n ≤ s.lists.size → L.stores.Paired s s' →
      s.lists.size ≤ (f s).2.lists.size ∧ V (L.links (f s).2.lists.size) (f s).1 (f' s').1 ∧
        L.stores.Paired (f s).2 (f' s').2) :
    Run.Matches L V n (Run.store f : Run H α) (Run.store f') := by
  intro m m' hn hm
  obtain ⟨hsize, hv, hs⟩ := hf _ _ hn hm.store
  exact .ok ⟨hsize, hv⟩ ⟨hs, hm.host, hm.depth, hm.log⟩

theorem change {f f' : Store → Store}
    (hf : ∀ s s', n ≤ s.lists.size → L.stores.Paired s s' →
      s.lists.size ≤ (f s).lists.size ∧ L.stores.Paired (f s) (f' s')) :
    Run.Matches L (fun _ => Eq) n (Run.change f : Run H Unit) (Run.change f') := by
  intro m m' hn hm
  obtain ⟨hsize, hs⟩ := hf _ _ hn hm.store
  exact .ok ⟨hsize, rfl⟩ ⟨hs, hm.host, hm.depth, hm.log⟩

theorem note (e : Event) :
    Run.Matches L (fun _ => Eq) n (Run.note e : Run H Unit) (Run.note e) :=
  fun _ _ _ hm => .ok ⟨Nat.le_refl _, rfl⟩ ⟨hm.store, hm.host, hm.depth, L.note e hm.log⟩

theorem tell (f : H → H) : Run.Matches L (fun _ => Eq) n (Run.tell f) (Run.tell f) :=
  fun _ _ _ hm =>
    .ok ⟨Nat.le_refl _, rfl⟩ ⟨hm.store, congrArg f hm.host, hm.depth, hm.log⟩

theorem ask {onFault onFault' : Host.Fault → Diagnostic} (h : ∀ e, (onFault e).Same (onFault' e))
    (f : H → Host.Reply α × H) :
    Run.Matches L (fun _ => Eq) n (Run.ask onFault f) (Run.ask onFault' f) := by
  intro m m' hn hm
  obtain ⟨hs, hhost, hdepth, hlog⟩ := hm
  unfold Run.ask
  rw [← hhost]
  split
  · exact .ok ⟨Nat.le_refl _, rfl⟩ ⟨hs, rfl, hdepth, hlog⟩
  · exact .error ⟨Nat.le_refl _, .failure (.same (h _))⟩ ⟨hs, rfl, hdepth, hlog⟩
  · exact .error ⟨Nat.le_refl _, .awaits _⟩ ⟨hs, rfl, hdepth, hlog⟩

theorem mapFailure {r : Run H α} {r' : Run H β} (h : Run.Matches L V n r r')
    {f f' : Diagnostic → Diagnostic} (hf : ∀ {d d'}, d.Alike d' → (f d).Alike (f' d')) :
    Run.Matches L V n (r.mapFailure f) (r'.mapFailure f') := by
  intro m m' hn hm
  have hr := h m m' hn hm
  unfold Run.mapFailure
  generalize r m = q at hr ⊢
  generalize r' m' = q' at hr ⊢
  cases hr with
  | ok hv hm => exact .ok hv hm
  | error he hm =>
      obtain ⟨hsize, he⟩ := he
      cases he with
      | failure h => exact .error ⟨hsize, .failure (hf h)⟩ hm
      | awaits q => exact .error ⟨hsize, .awaits q⟩ hm
      | outOfFuel => exact .error ⟨hsize, .outOfFuel⟩ hm

theorem noteEnd {r : Run H α} {r' : Run H β} (h : Run.Matches L V n r r') (e : Bool → Event) :
    Run.Matches L V n (r.noteEnd e) (r'.noteEnd e) := by
  intro m m' hn hm
  have hr := h m m' hn hm
  have noted {m m' : Machine H} (hm : m.Paired L m') (ok : Bool) :
      Machine.Paired L { m with log := e ok :: m.log } { m' with log := e ok :: m'.log } :=
    ⟨hm.store, hm.host, hm.depth, L.note _ hm.log⟩
  unfold Run.noteEnd
  generalize r m = q at hr ⊢
  generalize r' m' = q' at hr ⊢
  cases hr with
  | ok hv hm => exact .ok hv (noted hm true)
  | error he hm =>
      obtain ⟨hsize, he⟩ := he
      cases he with
      | failure h => exact .error ⟨hsize, .failure h⟩ (noted hm false)
      | awaits q => exact .error ⟨hsize, .awaits q⟩ hm
      | outOfFuel => exact .error ⟨hsize, .outOfFuel⟩ hm

end Run.Matches

end BasicScript
