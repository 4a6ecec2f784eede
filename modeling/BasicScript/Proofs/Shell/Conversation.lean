import BasicScript.Application
import BasicScript.Proofs.Evaluation.Joined
import BasicScript.Proofs.Evaluation.Scopes
import BasicScript.Proofs.Shell.Talks
import Mathlib.Data.List.Chain
import Mathlib.Logic.Relation

/-! # Conversations with the shell

The prompt and the programs behind it share one terminal. A conversation is told exchange by
exchange: the line that the prompt takes, what comes of it, and the calls that turn to the terminal
in between. The shell carries out the conversation that its input tells, and its lines are those of
the input, each of them once and in order. -/

namespace BasicScript

open Application (State)

/-- More is shown. -/
def Machine.shows (m : State) (es : List Emission) : State :=
  { m with host := es.foldl (fun t e => t.emit e) m.host }

/-- The prompt is shown, and the line behind it is taken. -/
def Machine.prompted (m : State) (rest : List InputLine) : State :=
  { m.shows [.out ">> "] with host := { (m.shows [.out ">> "]).host with input := rest } }

theorem Machine.input_shows (m : State) (es : List Emission) :
    (m.shows es).host.input = m.host.input := by
  unfold shows
  induction es generalizing m with
  | nil => rfl
  | cons e es ih => exact ih { m with host := m.host.emit e }

namespace Shell

/-- The lines that end the shell. -/
def Leaves (line : String) : Prop :=
  Text.trimBlanks line = "exit" ∨ Text.trimBlanks line = "quit"

instance (line : String) : Decidable (Leaves line) :=
  inferInstanceAs (Decidable (_ ∨ _))

/-! ## One line -/

section

variable {H : Type} [Host H]

/-- What comes of a line, and the machine that its evaluation leaves. -/
inductive Evaluates (line : String) (m : Machine H) : Outcome → Machine H → Prop
  | skip (h : Text.trimBlanks line = "") : Evaluates line m .skip m
  | exit (h : Leaves line) : Evaluates line m .exit m
  | value {v : Value} {m' : Machine H} (hne : Text.trimBlanks line ≠ "") (hstays : ¬Leaves line)
      (hrun : Session.Runs ⟨sourceName, Text.trimBlanks line⟩ m (.ok v m')) :
      Evaluates line m (.value (m'.store.display v)) m'
  | failure {d : Diagnostic} {m' : Machine H} (hne : Text.trimBlanks line ≠ "")
      (hstays : ¬Leaves line)
      (hrun : Session.Runs ⟨sourceName, Text.trimBlanks line⟩ m (.error (.failure d) m')) :
      Evaluates line m (.failure d) m'

variable {line : String} {m m' : Machine H} {o : Outcome}

theorem evaluateLine_of_blank (h : Text.trimBlanks line = "") (n : Nat) :
    evaluateLine n line m = .ok .skip m := by
  simp [evaluateLine, h]

theorem evaluateLine_of_leaves (h : Leaves line) (n : Nat) :
    evaluateLine n line m = .ok .exit m := by
  have hne : Text.trimBlanks line ≠ "" := by
    rcases h with h | h <;> simp [h]
  have hempty : (Text.trimBlanks line).isEmpty = false := by simpa using hne
  have hword : (Text.trimBlanks line == "exit" || Text.trimBlanks line == "quit") = true := by
    simpa [Leaves] using h
  simp only [evaluateLine, hempty, hword, if_true, Bool.false_eq_true, if_false]

theorem evaluateLine_of_program (hne : Text.trimBlanks line ≠ "") (hstays : ¬Leaves line)
    (n : Nat) (m : Machine H) :
    evaluateLine n line m =
      match Session.run n ⟨sourceName, Text.trimBlanks line⟩ m with
      | .ok v m => .ok (.value (m.store.display v)) m
      | .error (.failure d) m => .ok (.failure d) m
      | .error h m => .error h m := by
  have hempty : ¬ (Text.trimBlanks line).isEmpty = true := by simpa using hne
  have hword : ¬ (Text.trimBlanks line == "exit" || Text.trimBlanks line == "quit") = true := by
    simpa [Leaves] using hstays
  exact (if_neg hempty).trans (if_neg hword)

/-- With enough fuel a line is evaluated to what comes of it. -/
theorem Evaluates.exists_forall_ge (h : Evaluates line m o m') :
    ∃ n, ∀ k, n ≤ k → evaluateLine k line m = .ok o m' := by
  cases h with
  | skip h => exact ⟨0, fun k _ => evaluateLine_of_blank h k⟩
  | exit h => exact ⟨0, fun k _ => evaluateLine_of_leaves h k⟩
  | value hne hstays hrun =>
      obtain ⟨n, hn⟩ := hrun.exists_forall_ge (Session.run_extends _)
      exact ⟨n, fun k hk => by rw [evaluateLine_of_program hne hstays, hn k hk]⟩
  | failure hne hstays hrun =>
      obtain ⟨n, hn⟩ := hrun.exists_forall_ge (Session.run_extends _)
      exact ⟨n, fun k hk => by rw [evaluateLine_of_program hne hstays, hn k hk]⟩

theorem Evaluates.unique {o' : Outcome} {m'' : Machine H} (h : Evaluates line m o m')
    (h' : Evaluates line m o' m'') : o = o' ∧ m' = m'' := by
  obtain ⟨n, hn⟩ := h.exists_forall_ge
  obtain ⟨n', hn'⟩ := h'.exists_forall_ge
  have heq := (hn _ (Nat.le_max_left n n')).symm.trans (hn' _ (Nat.le_max_right n n'))
  cases heq
  exact ⟨rfl, rfl⟩

/-- What the evaluation of a program may do, the evaluation of a line may do. -/
theorem Evaluates.moves {R : Machine H → Machine H → Prop} (hR : CallMotion R)
    (hhost : HostCalls R) (h : Evaluates line m o m') : R m m' := by
  have hmoves (n : Nat) (source : Source) : Moves R (Session.run n source) :=
    hR.runSource_moves (fun program => hR.visit_moves hhost n program _) source
  cases h with
  | skip | exit => exact hR.refl m
  | value _ _ hrun | failure _ _ hrun =>
      obtain ⟨n, hn, -⟩ := hrun
      have hm := hmoves n ⟨sourceName, Text.trimBlanks line⟩ m
      have hn : Session.run n ⟨sourceName, Text.trimBlanks line⟩ m = _ := hn
      rw [hn] at hm
      exact hm

end

/-! ## One exchange after another -/

/-- What the shell shows of an outcome. -/
def announced (pretty : Bool) : Outcome → List Emission
  | .skip => []
  | .exit => [.out "Goodbye!\n"]
  | .value text => [.out (resultLine text ++ "\n")]
  | .failure d => [if pretty then .report d else .out (d.text ++ "\n")]

/-- A line that the prompt takes, the machine from which and the one to which it is evaluated, the
calls that turn to the terminal meanwhile, and what comes of it. -/
structure Exchange where
  line : String
  start : State
  talks : List Talk
  outcome : Outcome
  stop : State

namespace Exchange

/-- The lines that are taken, by the prompt first and then by the program. -/
def taken (e : Exchange) : List String :=
  e.line :: e.talks.flatMap Talk.taken

def shown (pretty : Bool) (e : Exchange) : List Emission :=
  .out ">> " :: (e.talks.flatMap Talk.shown ++ announced pretty e.outcome)

end Exchange

/-- What the shell does at the prompt, up to its end. -/
inductive Conversation (pretty : Bool) : State → List Exchange → State → Prop
  | endOfInput {m : State} (h : m.host.input = []) :
      Conversation pretty m [] (m.shows [.out ">> ", .out "\n"])
  | exit {m : State} {line : String} {rest : List InputLine}
      (hline : m.host.input = some line :: rest) (h : Leaves line) :
      Conversation pretty m [⟨line, m.prompted rest, [], .exit, m.prompted rest⟩]
        ((m.prompted rest).shows (announced pretty .exit))
  | next {m m₁ m' : State} {line : String} {rest : List InputLine} {talks : List Talk}
      {o : Outcome} {es : List Exchange} (hline : m.host.input = some line :: rest)
      (hstays : o ≠ .exit) (heval : Evaluates line (m.prompted rest) o m₁)
      (htalks : (m.prompted rest).Converses talks m₁)
      (h : Conversation pretty (m₁.shows (announced pretty o)) es m') :
      Conversation pretty m (⟨line, m.prompted rest, talks, o, m₁⟩ :: es) m'

/-- From one prompt to the next. -/
def Next (pretty : Bool) (m m' : State) : Prop :=
  ∃ line rest o m₁, m.host.input = some line :: rest ∧ o ≠ .exit ∧
    Evaluates line (m.prompted rest) o m₁ ∧ m' = m₁.shows (announced pretty o)

variable {pretty : Bool} {m m' : State} {es : List Exchange}

theorem Evaluates.talks {line : String} {o : Outcome} (h : Evaluates line m o m')
    (hm : m.host.Decoded) : ∃ talks, m.Converses talks m' :=
  h.moves Machine.Talks.callMotion Machine.Talks.hostCalls hm

namespace Conversation

/-- The lines that are taken are those of the input, in order. -/
theorem input (h : Conversation pretty m es m') :
    m.host.input = (es.flatMap Exchange.taken).map some ++ m'.host.input := by
  induction h with
  | endOfInput h => rw [Machine.input_shows]; rfl
  | exit hline _ =>
      rw [hline, Machine.input_shows]
      rfl
  | next hline _ _ htalks _ ih =>
      rw [Machine.input_shows] at ih
      have hrest := htalks.serves.input
      rw [ih] at hrest
      rw [hline, List.flatMap_cons, List.map_append, List.append_assoc, Exchange.taken,
        List.map_cons, List.cons_append]
      exact congrArg (_ :: ·) hrest

end Conversation

/-! ## Prompts -/

end Shell

end BasicScript
