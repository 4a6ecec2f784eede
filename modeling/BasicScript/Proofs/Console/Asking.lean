import BasicScript.Console.Memory

/-! # Asking for a number

A number is asked for line by line. Each line that is none is refused with a complaint, until one is
a number or no line is left. -/

namespace BasicScript

/-- What asking for a number comes to, one line after another: the line taken is a number, or it is
refused and the next one is asked for, or no line can be taken. -/
inductive Host.Asks {H : Type} [Host H] : H → Reply Number × H → Prop
  | number {h h' : H} {line : String} {x : Number} (hline : readLine h = (.answer line, h'))
      (hx : Number.ofText? line = some x) : Asks h (.answer x, h')
  | refuse {h h' : H} {line : String} {r : Reply Number × H}
      (hline : readLine h = (.answer line, h')) (hx : Number.ofText? line = none)
      (next : Asks (writeLine (complaint line) h') r) : Asks h r
  | fault {h h' : H} {f : Fault} (hline : readLine h = (.fault f, h')) : Asks h (.fault f, h')
  | pending {h h' : H} {q : Query} (hline : readLine h = (.pending q, h')) :
      Asks h (.pending q, h')

theorem Host.Asks.unique {H : Type} [Host H] {h : H} {r r' : Reply Number × H} (hr : Asks h r)
    (hr' : Asks h r') : r = r' := by
  induction hr with
  | number hline hx => cases hr' <;> simp_all
  | refuse hline hx _ ih =>
      cases hr' with
      | refuse hline' _ next =>
          obtain ⟨hanswer, rfl⟩ := Prod.mk.inj (hline.symm.trans hline')
          cases hanswer
          exact ih next
      | _ => simp_all
  | fault hline => cases hr' <;> simp_all
  | pending hline => cases hr' <;> simp_all

namespace MemoryHost

/-- The host once the lines before the first number are refused, of which it complains one by one,
and `rest` is left. -/
def afterRefusing (h : MemoryHost) (refused rest : List String) : MemoryHost :=
  { h with input := rest, output := h.output ++ (refused.map Host.complaint).toArray }

theorem readLine_cons {h : MemoryHost} {line : String} {rest : List String}
    (hinput : h.input = line :: rest) :
    Host.readLine h = (.answer line, { h with input := rest }) := by
  simp [Host.readLine, hinput]

theorem readLine_nil {h : MemoryHost} (hinput : h.input = []) :
    Host.readLine h = (.fault .endOfInput, h) := by
  simp [Host.readLine, hinput]

/-- As many turns as there are lines, and one more, are enough. -/
theorem asks_readNumberFrom {h : MemoryHost} {n : Nat} (hn : h.input.length < n) :
    Host.Asks h (Host.readNumberFrom n h) := by
  induction n generalizing h with
  | zero => omega
  | succ n ih =>
      rw [Host.readNumberFrom]
      cases hinput : h.input with
      | nil =>
          rw [readLine_nil hinput]
          exact .fault (readLine_nil hinput)
      | cons line rest =>
          rw [readLine_cons hinput]
          cases hx : Number.ofText? line with
          | some x =>
              simp only [hx]
              exact .number (readLine_cons hinput) hx
          | none =>
              simp only [hx]
              rw [hinput, List.length_cons] at hn
              exact .refuse (readLine_cons hinput) hx (ih (Nat.lt_of_succ_lt_succ hn))

theorem asks_iff {h : MemoryHost} {r : Host.Reply Number × MemoryHost} :
    Host.Asks h r ↔ Host.readNumber h = r := by
  have hasks : Host.Asks h (Host.readNumber h) := asks_readNumberFrom (Nat.lt_succ_self _)
  exact ⟨hasks.unique, fun heq => heq ▸ hasks⟩

/-! ## The lines that are taken -/

/-- Refusing a line first and then others is refusing them all. -/
theorem afterRefusing_cons (h : MemoryHost) (line : String) (left refused rest : List String) :
    (Host.writeLine (Host.complaint line) { h with input := left }).afterRefusing refused rest =
      h.afterRefusing (line :: refused) rest := by
  simp [afterRefusing, Host.writeLine]

/-- Lines are taken up to the first number. -/
theorem readNumber_of_number {h : MemoryHost} {refused rest : List String} {line : String}
    {x : Number} (hinput : h.input = refused ++ line :: rest)
    (hrefused : ∀ l ∈ refused, Number.ofText? l = none) (hx : Number.ofText? line = some x) :
    Host.readNumber h = (.answer x, h.afterRefusing refused rest) := by
  refine asks_iff.mp ?_
  induction refused generalizing h with
  | nil =>
      have hafter : h.afterRefusing [] rest = { h with input := rest } := by simp [afterRefusing]
      rw [hafter]
      exact .number (readLine_cons hinput) hx
  | cons first refused ih =>
      obtain ⟨hfirst, hothers⟩ := List.forall_mem_cons.mp hrefused
      refine .refuse (readLine_cons hinput) hfirst ?_
      rw [← afterRefusing_cons h first (refused ++ line :: rest)]
      exact ih rfl hothers

/-- Without a number among them, all lines are taken. -/
theorem readNumber_of_none {h : MemoryHost} (hinput : ∀ l ∈ h.input, Number.ofText? l = none) :
    Host.readNumber h = (.fault .endOfInput, h.afterRefusing h.input []) := by
  refine asks_iff.mp ?_
  generalize hlines : h.input = lines at hinput ⊢
  induction lines generalizing h with
  | nil =>
      have hafter : h.afterRefusing [] [] = h := by
        obtain ⟨input, output, clears, files⟩ := h
        cases hlines
        simp [afterRefusing]
      rw [hafter]
      exact .fault (readLine_nil hlines)
  | cons first lines ih =>
      obtain ⟨hfirst, hothers⟩ := List.forall_mem_cons.mp hinput
      refine .refuse (readLine_cons hlines) hfirst ?_
      rw [← afterRefusing_cons h first lines]
      exact ih rfl hothers

end MemoryHost

/-- Some line is the first number, or none is one. -/
theorem Number.first_line (lines : List String) :
    (∃ refused line rest x, lines = refused ++ line :: rest ∧
      (∀ l ∈ refused, ofText? l = none) ∧ ofText? line = some x) ∨
    ∀ l ∈ lines, ofText? l = none := by
  induction lines with
  | nil => exact .inr (List.forall_mem_nil _)
  | cons first lines ih =>
      cases hfirst : ofText? first with
      | some x => exact .inl ⟨[], first, lines, x, rfl, List.forall_mem_nil _, hfirst⟩
      | none =>
          obtain ⟨refused, line, rest, x, rfl, hrefused, hx⟩ | hnone := ih
          · exact .inl ⟨first :: refused, line, rest, x, rfl,
              List.forall_mem_cons.mpr ⟨hfirst, hrefused⟩, hx⟩
          · exact .inr (List.forall_mem_cons.mpr ⟨hfirst, hnone⟩)

namespace MemoryHost

/-- One host is what another is once some lines are refused: it has complained about each of them,
`rest` is left of the input, and there is no other difference. -/
structure Refuses (h : MemoryHost) (refused rest : List String) (h' : MemoryHost) : Prop where
  input : h'.input = rest
  output : h'.output.toList = h.output.toList ++
    refused.map fun line => "'" ++ line ++ "' must be a number. Try again!"
  clears : h'.clears = h.clears
  files : h'.files = h.files

theorem afterRefusing_refuses (h : MemoryHost) (refused rest : List String) :
    h.Refuses refused rest (h.afterRefusing refused rest) :=
  ⟨rfl, by simp [afterRefusing, Host.complaint], rfl, rfl⟩

/-- Asking for a number ends. The lines up to the first number are taken and those before it
refused, or all lines are refused and the input is at its end. -/
theorem asks_up_to_number (h : MemoryHost) :
    ∃ answer h', (∀ r, Host.Asks h r ↔ r = (answer, h')) ∧ Host.readNumber h = (answer, h') ∧
      ((∃ refused line rest x, h.input = refused ++ line :: rest ∧
          (∀ l ∈ refused, Number.ofText? l = none) ∧ Number.ofText? line = some x ∧
          answer = .answer x ∧ h.Refuses refused rest h') ∨
        (∀ l ∈ h.input, Number.ofText? l = none) ∧
          answer = .fault .endOfInput ∧ h.Refuses h.input [] h') := by
  refine ⟨(Host.readNumber h).1, (Host.readNumber h).2, fun r => asks_iff.trans eq_comm, rfl, ?_⟩
  obtain ⟨refused, line, rest, x, hinput, hrefused, hx⟩ | hnone := Number.first_line h.input
  · rw [readNumber_of_number hinput hrefused hx]
    exact .inl ⟨refused, line, rest, x, hinput, hrefused, hx, rfl, h.afterRefusing_refuses _ _⟩
  · rw [readNumber_of_none hnone]
    exact .inr ⟨hnone, rfl, h.afterRefusing_refuses _ _⟩

end MemoryHost

end BasicScript
