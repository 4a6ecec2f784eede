import BasicScript.Proofs.Shell.Conversation

/-! # The lines of a shell session

The shell and the programs behind it take the lines of the input one after another, and none of them
twice. The session ends with the input or with a line that says so; a line that fails leaves all
names bound that were. -/

namespace BasicScript

open Application (State)

/-! ## Between statements -/

namespace Session

variable {H : Type} [Host H]

/-- From `m` on, the run of a program comes past `m'` when its first statements have been
evaluated. -/
def Passes (source : Source) (m m' : Machine H) : Prop :=
  ∃ xs ys span n vs, Node.ofSource source = .ok (.list (xs ++ ys) span) ∧
    Visit.all (visit n) Visit.programEnv [] xs (m.noted (.started source.name)) = .ok vs m'

/-- From where a run comes past, it goes on as evaluations do. -/
theorem Passes.moves {R : Machine H → Machine H → Prop} (hR : CallMotion R) (hhost : HostCalls R)
    {source : Source} {m m₁ : Machine H} {r : EStateM.Result Halt (Machine H) Value}
    (h : Passes source m m₁) (hr : Runs source m r) : R m₁ (Machine.ofResult r) := by
  obtain ⟨xs, ys, span, n, vs, hsource, hxs⟩ := h
  obtain ⟨n', hn'⟩ := hr.exists_forall_ge (run_extends source)
  let k := max n n'
  have hvisit (x : Node) (env : Env) : Moves R (visit (H := H) k x env) :=
    hR.visit_moves hhost k x env
  have hnode : NodeMotion R Visit.programEnv :=
    ⟨hR.toMotion, hR.newList, fun m => hR.bind m Visit.programEnv.scope⟩
  -- what is evaluated from `m₁` on
  let behind : Eval H Value := do
    let ws ← Visit.all (visit k) Visit.programEnv [] ys
    Visit.newList Visit.programEnv span (vs ++ ws)
  have hbehind : Moves R behind :=
    .bind hR.toMotion (hnode.all_moves (fun x => hvisit x _) [] ys) fun ws => hnode.newList_moves _ _
  have hxs : Visit.all (visit k) Visit.programEnv [] xs (m.noted (.started source.name)) =
      .ok vs m₁ := by
    obtain heq | ⟨m', hm'⟩ := Visit.all_extends (visit_extends (Nat.le_max_left n n'))
      Visit.programEnv [] xs (m.noted (.started source.name))
    · rw [← heq]
      exact hxs
    · rw [hxs] at hm'
      cases hm'
  have hlist : visit (k + 1) (.list (xs ++ ys) span) Visit.programEnv
      (m.noted (.started source.name)) = behind m₁ := by
    have hall : Visit.all (visit k) Visit.programEnv [] (xs ++ ys) (m.noted (.started source.name)) =
        _ := Visit.all_append_of_ok _ _ hxs
    show (Visit.all (visit k) Visit.programEnv [] (xs ++ ys) >>=
        Visit.newList Visit.programEnv span) _ =
      (Visit.all (visit k) Visit.programEnv [] ys >>= fun ws =>
        Visit.newList Visit.programEnv span (vs ++ ws)) m₁
    cases hys : Visit.all (visit k) Visit.programEnv [] ys m₁ with
    | ok ws m₂ =>
        rw [bind_of_ok hys] at hall
        rw [bind_of_ok hall, bind_of_ok hys]
    | error i m₂ =>
        rw [bind_of_error hys] at hall
        rw [bind_of_error hall, bind_of_error hys]
  have hrun : r = Run.noteEnd (.finished source.name)
      (behind.toRun Visit.programEnv.trace id) m₁ := by
    have hr : run (k + 1) source m = r := hn' (k + 1) (by omega)
    rw [← hr, run_eq hsource]
    simp only [Run.noteEnd, Eval.toRun, hlist]
  rw [hrun]
  exact hR.noteEnd_moves (fun _ => rfl) (hbehind.toRun _ _) m₁

end Session

namespace Shell

variable {pretty : Bool} {m m' : State} {es : List Exchange}

end Shell

end BasicScript
