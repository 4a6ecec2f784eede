import BasicScript.Console.Memory
import BasicScript.Proofs.Evaluation.Fuel
import BasicScript.Proofs.Evaluation.TwoRuns
import BasicScript.Proofs.Grammar.Parsing

/-! # Places only feed reports

Nothing that a program computes depends on where it stands in its source, on how the source is
called or on who calls a function. -/

namespace BasicScript

variable {H : Type}

/-- What the tokens of a source are. -/
def Source.symbols (s : Source) : Except Diagnostic (List Symbol) :=
  s.tokens.map (·.map Token.symbol)

theorem Token.symbols_eq {ts us : List Token} (h : ts.map symbol = us.map symbol) :
    symbols ts = symbols us := by
  have htakeWhile (vs : List Token) :
      symbols vs = (vs.map symbol).takeWhile (·.kind != .endOfInput) := by
    rw [List.takeWhile_map]
    rfl
  rw [htakeWhile, htakeWhile, h]

/-- Sources that are cut into the same tokens are read as trees that are alike. -/
theorem Node.ofSource_alike {s s' : Source} {ss : List Symbol} (h : s.symbols = .ok ss)
    (h' : s'.symbols = .ok ss) {x : Node} (hx : ofSource s = .ok x) :
    ∃ y, ofSource s' = .ok y ∧ x.Alike y := by
  unfold Source.symbols at h h'
  unfold ofSource at hx ⊢
  cases hts : s.tokens with
  | error d => rw [hts] at h; cases h
  | ok ts =>
      cases hus : s'.tokens with
      | error d => rw [hus] at h'; cases h'
      | ok us =>
          rw [hts] at h hx
          rw [hus] at h'
          obtain ⟨⟩ := h
          have hsymbols : us.map Token.symbol = ts.map Token.symbol := Except.ok.inj h'
          exact ofTokens_alike (Token.symbols_eq hsymbols.symm) hx

theorem Store.Alike.size_lists_eq {s s' : Store} (h : s.Alike Eq s') :
    s.lists.size = s'.lists.size := by
  have hleft := h.present_iff (l := ⟨s.lists.size⟩) rfl
  have hright := h.present_iff (l := ⟨s'.lists.size⟩) rfl
  simp only [Nat.lt_irrefl, false_iff, iff_false] at hleft hright
  omega

theorem Store.Alike.refl (s : Store) : s.Alike Eq s where
  tables := rfl
  bindings t x := by
    cases (s.table t)[x]? with
    | none => exact .none
    | some v => exact .some (.refl (fun _ => rfl) v)
  lists {l l'} h := by
    subst h
    cases s.lists[l.index]? with
    | none => exact .none
    | some xs => exact .some (List.forall₂_same.mpr fun v _ => .refl (fun _ => rfl) v)

theorem Machine.Alike.refl (m : Machine H) : m.Alike Eq m :=
  ⟨.refl m.store, rfl, rfl⟩

theorem Machine.Alike.paired {m m' : Machine H} (h : m.Alike Eq m') :
    Linking.same.machines.Paired m m' :=
  ⟨⟨h.store.size_lists_eq, h.store⟩, h.host, h.depth, trivial⟩

theorem Halt.Alike.eq_outOfFuel_iff {e e' : Halt} (h : e.Alike e') :
    e = .outOfFuel ↔ e' = .outOfFuel := by
  cases h <;> simp

theorem Interrupt.Alike.eq_spent_iff {ρ : ListRef → ListRef → Prop} {i i' : Interrupt}
    (h : i.Alike ρ i') : i = .spent ↔ i' = .spent := by
  cases h with
  | halt h => simpa using h.eq_outOfFuel_iff
  | _ => simp

/-- Sources that are cut into the same tokens are read as trees that are alike. Trees that are
alike, evaluated in one scope on machines that are alike, end in one way or do not end at all, and
so do calls of functions that are alike with arguments that are alike. -/
theorem places_only_feed_reports [Host H] :
    (∀ (s s' : Source) (ss : List Symbol), s.symbols = .ok ss → s'.symbols = .ok ss →
      ∀ x, Node.ofSource s = .ok x → ∃ y, Node.ofSource s' = .ok y ∧ x.Alike y) ∧
    (∀ (x y : Node) (env env' : Env) (m m' : Machine H), x.Alike y → env.scope = env'.scope →
      m.Alike Eq m' →
      EndTogether .spent (Eval.EndAlike fun _ => Eq) (fun n => visit n x env)
        (fun n => visit n y env') m m') ∧
    ∀ (f f' : Value) (args args' : List Value) (m m' : Machine H), f.Alike Eq f' →
      Value.AllAlike Eq args args' → m.Alike Eq m' →
      EndTogether .outOfFuel (Run.EndAlike fun _ => Eq) (fun n => Visit.apply (visit n) f args)
        (fun n => Visit.apply (visit n) f' args') m m' := by
  refine ⟨fun s s' ss h h' x hx => Node.ofSource_alike h h' hx, ?_, ?_⟩
  · intro x y env env' m m' hx hscope hm
    refine .of_forall_ge (visit_extends · x env) (visit_extends · y env')
      (·.error_iff Interrupt.Alike.eq_spent_iff) 0 fun n _ => ?_
    have hends := visit_matches (H := H) .same n hx hscope m m' (Nat.zero_le _) hm.paired
    exact hends.imp (fun _ h => h.2) (fun _ h => h.2) Machine.Paired.alike
  · intro f f' args args' m m' hf hargs hm
    refine .of_forall_ge (apply_extends · f args) (apply_extends · f' args')
      (·.error_iff Halt.Alike.eq_outOfFuel_iff) 0 fun n _ => ?_
    have hends := Visit.apply_matches (fun h hscope => visit_matches (H := H) .same n h hscope)
      hf hargs m m' (Nat.zero_le _) hm.paired
    exact hends.imp (fun _ h => h.2) (fun _ h => h.2) Machine.Paired.alike

/-- A source with other blanks under another name, a list from elsewhere, and a call of `len` by
another caller. -/
theorem places_only_feed_reports_respaced :
    let place (name : String) : Span := .single (.start ⟨name, ""⟩)
    let env (name : String) : Env := ⟨.globals, [⟨name, none⟩]⟩
    let item (name : String) : Node := .list [.text "x" (place name)] (place name)
    let callee (name : String) : Value := ⟨.builtin .len, place name, (env name).trace⟩
    let m : Machine MemoryHost := ⟨.start, .ofInput [] [], 0, []⟩
    (∀ x, Node.ofSource ⟨"a", "f(x)"⟩ = .ok x →
      ∃ y, Node.ofSource ⟨"b", " f ( x ) # y"⟩ = .ok y ∧ x.Alike y) ∧
    EndTogether .spent (Eval.EndAlike fun _ => Eq)
      (fun n => visit n (item "a") (env "a")) (fun n => visit n (item "b") (env "b")) m m ∧
    EndTogether .outOfFuel (Run.EndAlike fun _ => Eq)
      (fun n => Visit.apply (visit n) (callee "a") [.ofText "x"])
      (fun n => Visit.apply (visit n) (callee "b") [.ofText "x"]) m m := by
  intro place env item callee m
  obtain ⟨hparse, hvisit, happly⟩ := places_only_feed_reports (H := MemoryHost)
  refine ⟨hparse _ _ (⟨.identifier, some (.text "f")⟩ :: ⟨.leftParen, none⟩ ::
    ⟨.identifier, some (.text "x")⟩ :: ⟨.rightParen, none⟩ :: [⟨.endOfInput, none⟩]) ?_ ?_, ?_, ?_⟩
  · with_unfolding_all rfl
  · with_unfolding_all rfl
  · exact hvisit _ _ _ _ m m (.list (.cons (.text "x") .nil)) rfl (.refl m)
  · exact happly _ _ _ _ m m (.builtin .len) (.cons (.ofText "x") .nil) (.refl m)

end BasicScript
