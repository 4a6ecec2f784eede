import BasicScript.Evaluation.Library
import BasicScript.Proofs.Data.Outcomes

/-! # What is refused

What an operator refuses is a runtime error with the frames that its first operand carries. All that
a built-in function refuses comes with its own frame on top, and only a fault of the host that it
asks for input is no runtime error. -/

namespace BasicScript

variable {H α : Type}

/-- A runtime error in these frames. -/
structure Diagnostic.RaisedIn (t : Trace) (d : Diagnostic) : Prop where
  kind : d.kind = .runtime
  trace : d.trace = t

/-- What an operator refuses, and what it computes, is put down to its first operand. An element of
a list is the only value that does not get the frames of that operand. -/
theorem Operation.Computes.inFrames {i : Prop} {a b : Value} {o : Operation Value}
    (ho : o.Computes i a b) :
    Ensures (fun _ => True) (fun v => v.trace = a.trace ∨ i ∧ a.list?.isSome)
      (Diagnostic.RaisedIn a.trace) o := by
  intro s hs
  have h := ho s
  generalize o s = r at h
  cases h with
  | refused _ message => exact ⟨hs, rfl, rfl⟩
  | plain => exact ⟨hs, .inl rfl⟩
  | list => exact ⟨hs, .inl rfl⟩
  | element hi ha =>
      have hlist : a.list?.isSome := by simp [Value.list?, ha]
      exact ⟨hs, .inr ⟨hi, hlist⟩⟩

/-- A halt that is a failure is one of which `P` holds. -/
def Halt.Tells (P : Diagnostic → Prop) : Halt → Prop
  | .failure d => P d
  | _ => True

/-- Every failure is one of which `P` holds. -/
abbrev Run.Refuses (P : Diagnostic → Prop) (r : Run H α) : Prop :=
  Ensures (fun _ => True) (fun _ => True) (Halt.Tells P) r

namespace Run

variable {P : Diagnostic → Prop}

theorem fail_refuses {f : Diagnostic} (h : P f) : Refuses P (fail f : Run H α) :=
  .throw h

theorem inspect_refuses (f : Store → α) : Refuses P (inspect f : Run H α) :=
  fun _ hm => ⟨hm, hm⟩

theorem change_refuses (f : Store → Store) : Refuses P (change f : Run H Unit) :=
  fun _ hm => ⟨hm, hm⟩

theorem note_refuses (e : Event) : Refuses P (note e : Run H Unit) :=
  fun _ hm => ⟨hm, hm⟩

theorem tell_refuses (f : H → H) : Refuses P (tell f) :=
  fun _ hm => ⟨hm, hm⟩

theorem ask_refuses {onFault : Host.Fault → Diagnostic} (h : ∀ f, P (onFault f))
    (f : H → Host.Reply α × H) : Refuses P (ask onFault f) := by
  intro m hm
  unfold ask
  split
  · exact ⟨hm, hm⟩
  · exact ⟨hm, h _⟩
  · exact ⟨hm, hm⟩

theorem mapFailure_refuses {f : Diagnostic → Diagnostic} (h : ∀ d, P (f d)) (r : Run H α) :
    Refuses P (mapFailure f r) := by
  intro m hm
  unfold mapFailure
  split
  · exact ⟨hm, h _⟩
  · rename_i hother
    cases hr : r m with
    | ok a m' => exact ⟨hm, hm⟩
    | error e m' =>
        cases e with
        | failure d => exact absurd hr (hother d m')
        | _ => exact ⟨hm, hm⟩

end Run

/-- Whether a built-in function asks the host for input. -/
def Builtin.readsInput : Builtin → Bool
  | input | inputNum => true
  | _ => false

namespace Builtin

variable {P : Diagnostic → Prop} {site : CallSite} (hfailure : ∀ message, P (site.failure message))

include hfailure

theorem listArg_refuses (which : String) (v : Value) :
    Run.Refuses P (listArg site which v : Run H ListRef) := by
  unfold listArg
  split
  · exact .pure trivial
  · exact Run.fail_refuses (hfailure _)

theorem popAt_refuses (l : ListRef) (n : Number) :
    Run.Refuses P (popAt site l n : Run H Value) := by
  refine .bind (Run.inspect_refuses _) fun xs _ => ?_
  split
  · exact Run.fail_refuses (hfailure _)
  · exact .bind (Run.change_refuses _) fun _ _ => .pure trivial

variable [Host H]

theorem runFile_refuses (runSource : Source → Run H Value) (path : String) :
    Run.Refuses P (runFile runSource site path) :=
  .bind (Run.ask_refuses (fun _ => hfailure _) _) fun _ _ => .bind (Run.note_refuses _) fun _ _ =>
    .bind (Run.mapFailure_refuses (fun _ => hfailure _) _) fun _ _ => .pure trivial

/-- All that a built-in function refuses is told at the call, `RUN` included. -/
theorem execute_refuses {b : Builtin} (hfault : b.readsInput → ∀ f, P (site.hostFailure f))
    (runSource : Source → Run H Value) (args : List Value) :
    Run.Refuses P (b.execute runSource site args) := by
  unfold execute
  split
  · exact .bind (Run.inspect_refuses _) fun _ _ => .bind (Run.tell_refuses _) fun _ _ =>
      .pure trivial
  · exact .bind (Run.inspect_refuses _) fun _ _ => .pure trivial
  · exact .bind (Run.ask_refuses (hfault rfl) _) fun _ _ => .pure trivial
  · exact .bind (Run.ask_refuses (hfault rfl) _) fun _ _ => .pure trivial
  · exact .bind (Run.tell_refuses _) fun _ _ => .pure trivial
  · exact .pure trivial
  · exact .pure trivial
  · exact .pure trivial
  · exact .pure trivial
  · exact .bind (listArg_refuses hfailure _ _) fun _ _ => .bind (Run.change_refuses _) fun _ _ =>
      .pure trivial
  · refine .bind (listArg_refuses hfailure _ _) fun l _ => ?_
    split
    · exact Run.fail_refuses (hfailure _)
    · exact popAt_refuses hfailure _ _
  · exact .bind (listArg_refuses hfailure _ _) fun _ _ =>
      .bind (listArg_refuses hfailure _ _) fun _ _ => .bind (Run.inspect_refuses _) fun _ _ =>
      .bind (Run.change_refuses _) fun _ _ => .pure trivial
  · exact .bind (listArg_refuses hfailure _ _) fun _ _ => .bind (Run.inspect_refuses _) fun _ _ =>
      .pure trivial
  · split
    · exact Run.fail_refuses (hfailure _)
    · exact runFile_refuses hfailure _ _
  · exact Run.fail_refuses (hfailure _)

end Builtin

end BasicScript
