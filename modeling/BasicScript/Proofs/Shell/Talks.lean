import BasicScript.Console.Terminal
import BasicScript.Proofs.Evaluation.Footprint

/-! # What programs say and hear

Four built-in functions turn to the terminal. What an evaluation shows and which lines it takes is
what its calls of these functions show and take, one call after another, and the log tells of each
of them. -/

namespace BasicScript

/-- A call of a built-in function that turns to the terminal, with the lines that it takes as they
came in. At the end of input there is none to take, and `inputNum` refuses lines up to a number. -/
inductive Talk where
  | print (line : String)
  | clear
  | input (line : Option String)
  | inputNum (refused : List String) (line : Option String)

namespace Talk

def builtin : Talk → Builtin
  | print _ => .print
  | clear => .clear
  | input _ => .input
  | inputNum .. => .inputNum

def taken : Talk → List String
  | print _ | clear => []
  | input line => line.toList
  | inputNum refused line => refused ++ line.toList

def shown : Talk → List Emission
  | print line => [.out (line ++ "\n")]
  | clear => [.out "\x1b[2J\x1b[1;1H"]
  | input _ => []
  | inputNum refused _ =>
    refused.map fun line => .out (Host.complaint (Terminal.chomp line) ++ "\n")

/-- Whether the input has come to its end. -/
def atEnd : Talk → Bool
  | print _ | clear => false
  | input line | inputNum _ line => line.isNone

/-- The lines that are refused are no numbers, and the one that is not refused is one. -/
def Proper : Talk → Prop
  | inputNum refused line =>
    (∀ l ∈ refused, Number.ofText? (Terminal.chomp l) = none) ∧
      ∀ l ∈ line, (Number.ofText? (Terminal.chomp l)).isSome
  | _ => True

/-- The event that the log notes. -/
def event (k : Talk) : Event :=
  .calling k.builtin k.builtin.params.length

theorem turnsToHost_event (k : Talk) : k.event.turnsToHost = true := by
  cases k <;> rfl

end Talk

/-- Every line that waits is text. -/
def Terminal.Decoded (t : Terminal) : Prop :=
  ∀ line ∈ t.input, line.isSome

instance (t : Terminal) : Decidable t.Decoded :=
  inferInstanceAs (Decidable (∀ line ∈ t.input, line.isSome))

/-- `t` comes to `t'` by these calls, and by nothing else. -/
structure Terminal.Serves (t : Terminal) (talks : List Talk) (t' : Terminal) : Prop where
  input : t.input = (talks.flatMap Talk.taken).map some ++ t'.input
  shown : t'.shown.toList = t.shown.toList ++ talks.flatMap Talk.shown
  closed : t'.closed = t.closed
  files : t'.files = t.files
  proper : ∀ k ∈ talks, k.Proper
  atEnd : ∀ k ∈ talks, k.atEnd → t'.input = []

namespace Terminal

variable {t t' t'' : Terminal} {talks talks' : List Talk}

theorem Serves.refl (t : Terminal) : t.Serves [] t :=
  ⟨rfl, by simp, rfl, rfl, by simp, by simp⟩

theorem Serves.trans (h : t.Serves talks t') (h' : t'.Serves talks' t'') :
    t.Serves (talks ++ talks') t'' where
  input := by rw [h.input, h'.input, List.flatMap_append, List.map_append, List.append_assoc]
  shown := by rw [h'.shown, h.shown, List.flatMap_append, List.append_assoc]
  closed := h'.closed.trans h.closed
  files := h'.files.trans h.files
  proper k hk := (List.mem_append.mp hk).elim (h.proper k) (h'.proper k)
  atEnd k hk hend := by
    rcases List.mem_append.mp hk with hk | hk
    · have hnil := h'.input
      rw [h.atEnd k hk hend] at hnil
      exact (List.append_eq_nil_iff.mp hnil.symm).2
    · exact h'.atEnd k hk hend

theorem Serves.decoded (h : t.Serves talks t') (ht : t.Decoded) : t'.Decoded := by
  intro line hline
  refine ht line ?_
  rw [h.input]
  exact List.mem_append_right _ hline

theorem serves_print (t : Terminal) (line : String) :
    t.Serves [.print line] (Host.writeLine line t) :=
  ⟨rfl, by simp [Talk.shown, Host.writeLine, emit], rfl, rfl, by simp [Talk.Proper],
    by simp [Talk.atEnd]⟩

theorem serves_clear (t : Terminal) : t.Serves [.clear] (Host.clear t) :=
  ⟨rfl, by simp [Talk.shown, Host.clear, emit], rfl, rfl, by simp [Talk.Proper],
    by simp [Talk.atEnd]⟩

/-- The next line goes to the call that asks for it, without its end. -/
theorem readLine_cons {line : String} {rest : List InputLine} (h : t.input = some line :: rest) :
    Host.readLine t = (.answer (chomp line), { t with input := rest }) := by
  simp [Host.readLine, takeLine, h]

theorem readLine_nil (h : t.input = []) :
    Host.readLine t = (if t.closed then .fault .endOfInput else .pending .line, t) := by
  cases hclosed : t.closed <;> simp [Host.readLine, takeLine, h, hclosed]

theorem serves_input (ht : t.Decoded) :
    ∃ line, t.Serves [.input line] (Host.readLine t).2 := by
  cases hinput : t.input with
  | nil =>
      refine ⟨none, ?_⟩
      rw [readLine_nil hinput]
      exact ⟨by simp [Talk.taken], by simp [Talk.shown], rfl, rfl, by simp [Talk.Proper],
        fun _ _ _ => hinput⟩
  | cons line rest =>
      obtain ⟨line, rfl⟩ := Option.isSome_iff_exists.mp (ht line (by simp [hinput]))
      refine ⟨some line, ?_⟩
      rw [readLine_cons hinput]
      exact ⟨by simp [Talk.taken, hinput], by simp [Talk.shown], rfl, rfl, by simp [Talk.Proper],
        by simp [Talk.atEnd]⟩

/-- A line that is refused makes the same call take one line more and complain about it. -/
theorem Serves.refuse {first : String} {refused : List String} {line : Option String}
    {rest : List InputLine} (hinput : t.input = some first :: rest)
    (hfirst : Number.ofText? (chomp first) = none)
    (h : Serves (Host.writeLine (Host.complaint (chomp first)) { t with input := rest })
      [.inputNum refused line] t') : t.Serves [.inputNum (first :: refused) line] t' where
  input := by
    have hrest : rest = _ := h.input
    rw [hinput, hrest]
    simp [Talk.taken]
  shown := by
    rw [h.shown]
    simp [Talk.shown, Host.writeLine, emit]
  closed := h.closed
  files := h.files
  proper := by
    have hproper := h.proper _ (List.mem_singleton_self _)
    simpa [Talk.Proper, hfirst] using hproper
  atEnd := by
    have hend := h.atEnd _ (List.mem_singleton_self _)
    simpa [Talk.atEnd] using hend

/-- Lines are taken one by one, up to the first number or to the end. -/
theorem serves_readNumberFrom (ht : t.Decoded) {n : Nat} (hn : t.input.length < n) :
    ∃ refused line, t.Serves [.inputNum refused line] (Host.readNumberFrom n t).2 := by
  induction n generalizing t with
  | zero => omega
  | succ n ih =>
      unfold Host.readNumberFrom
      cases hinput : t.input with
      | nil =>
          refine ⟨[], none, ?_⟩
          have hend : Serves t [.inputNum [] none] t :=
            ⟨by simp [Talk.taken], by simp [Talk.shown], rfl, rfl, by simp [Talk.Proper],
              fun _ _ _ => hinput⟩
          rw [readLine_nil hinput]
          cases t.closed <;> exact hend
      | cons line rest =>
          obtain ⟨line, rfl⟩ := Option.isSome_iff_exists.mp (ht line (by simp [hinput]))
          rw [readLine_cons hinput]
          cases hnumber : Number.ofText? (chomp line) with
          | some x =>
              refine ⟨[], some line, ?_⟩
              simp only [hnumber]
              exact ⟨by simp [Talk.taken, hinput], by simp [Talk.shown], rfl, rfl,
                by simp [Talk.Proper, hnumber], by simp [Talk.atEnd]⟩
          | none =>
              rw [hinput, List.length_cons] at hn
              have hrest : Decoded
                  (Host.writeLine (Host.complaint (chomp line)) { t with input := rest }) := by
                intro l hl
                exact ht l (hinput ▸ List.mem_cons_of_mem _ hl)
              obtain ⟨refused, last, h⟩ := ih hrest (Nat.lt_of_succ_lt_succ hn)
              simp only [hnumber]
              exact ⟨line :: refused, last, .refuse hinput hnumber h⟩

theorem serves_inputNum (ht : t.Decoded) :
    ∃ refused line, t.Serves [.inputNum refused line] (Host.readNumber t).2 :=
  serves_readNumberFrom ht (Nat.lt_succ_self _)

end Terminal

/-! ## Evaluations -/

/-- `m` comes to `m'` by these calls, as far as the terminal is concerned, and the log tells of each
of them in its turn. -/
structure Machine.Converses (m : Machine Terminal) (talks : List Talk) (m' : Machine Terminal) :
    Prop where
  serves : m.host.Serves talks m'.host
  logged : ∃ events, m'.log = events ++ m.log ∧
    events.reverse.filter Event.turnsToHost = talks.map Talk.event

namespace Machine.Converses

variable {m m' m'' : Machine Terminal} {talks talks' : List Talk}

theorem of_eq (hhost : m'.host = m.host) (hlog : m'.log = m.log) : m.Converses [] m' :=
  ⟨hhost ▸ .refl _, [], hlog, rfl⟩

theorem of_call {k : Talk} (h : m.host.Serves [k] m'.host) (hlog : m'.log = k.event :: m.log) :
    m.Converses [k] m' := by
  refine ⟨h, [k.event], hlog, ?_⟩
  rw [List.reverse_singleton, List.filter_cons_of_pos k.turnsToHost_event]
  rfl

theorem trans (h : m.Converses talks m') (h' : m'.Converses talks' m'') :
    m.Converses (talks ++ talks') m'' := by
  obtain ⟨events, hlog, hevents⟩ := h.logged
  obtain ⟨events', hlog', hevents'⟩ := h'.logged
  refine ⟨h.serves.trans h'.serves, events' ++ events, ?_, ?_⟩
  · rw [hlog', hlog, List.append_assoc]
  · rw [List.reverse_append, List.filter_append, List.map_append, hevents, hevents']

end Machine.Converses

/-- Where every line is text, what happens to the terminal is due to calls. -/
def Machine.Talks (m m' : Machine Terminal) : Prop :=
  m.host.Decoded → ∃ talks, m.Converses talks m'

namespace Machine.Talks

theorem of_eq {m m' : Machine Terminal} (hhost : m'.host = m.host) (hlog : m'.log = m.log) :
    m.Talks m' :=
  fun _ => ⟨[], .of_eq hhost hlog⟩

theorem callMotion : CallMotion Talks where
  refl _ := of_eq rfl rfl
  trans := by
    intro a b c h h' ha
    obtain ⟨talks, h⟩ := h ha
    obtain ⟨talks', h'⟩ := h' (h.serves.decoded ha)
    exact ⟨talks ++ talks', h.trans h'⟩
  note _ e he _ := ⟨[], .refl _, [e], rfl, by simp [he]⟩
  newList _ _ := of_eq rfl rfl
  modifyList _ _ _ := of_eq rfl rfl
  bind _ _ _ _ := of_eq rfl rfl
  child _ _ := of_eq rfl rfl
  depth _ _ := of_eq rfl rfl

/-- What is asked of the host is all that happens, whatever is made of the answer. -/
theorem ofResult_ask {α β : Type} (onFault : Host.Fault → Diagnostic)
    (f : Terminal → Host.Reply α × Terminal) (g : α → β) (m : Machine Terminal) :
    Machine.ofResult ((do return g (← Run.ask onFault f) : Run Terminal β) m) =
      { m with host := (f m.host).2 } := by
  have hask : Machine.ofResult (Run.ask onFault f m) = { m with host := (f m.host).2 } := by
    unfold Run.ask
    split <;> rename_i h <;> rw [h] <;> rfl
  rw [← hask]
  cases h : Run.ask onFault f m with
  | ok a m' =>
      rw [bind_of_ok h]
      rfl
  | error e m' =>
      rw [bind_of_error h]
      rfl

theorem hostCalls : HostCalls Talks := by
  intro b hb m runSource site args hcount ht
  cases b <;> try cases hb
  case print =>
    obtain ⟨v, rfl⟩ := List.length_eq_one_iff.mp hcount.symm
    exact ⟨_, .of_call (m.host.serves_print (m.store.display v)) rfl⟩
  case clear =>
    obtain rfl := List.length_eq_zero_iff.mp hcount.symm
    exact ⟨_, .of_call m.host.serves_clear rfl⟩
  case input =>
    obtain rfl := List.length_eq_zero_iff.mp hcount.symm
    obtain ⟨line, h⟩ := Terminal.serves_input ht
    rw [Builtin.execute, ofResult_ask]
    exact ⟨[.input line], .of_call h rfl⟩
  case inputNum =>
    obtain rfl := List.length_eq_zero_iff.mp hcount.symm
    obtain ⟨refused, line, h⟩ := Terminal.serves_inputNum ht
    rw [Builtin.execute, ofResult_ask]
    exact ⟨[.inputNum refused line], .of_call h rfl⟩

end Machine.Talks

end BasicScript
