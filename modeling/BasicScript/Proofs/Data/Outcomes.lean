import BasicScript.Data.Operation
import BasicScript.Proofs.Sequencing

/-! # What operators do

An operator refuses its operands, or it yields a number, a text, a new list or an element of a
list. What holds of all that it does is read off these cases. -/

namespace BasicScript

/-- Whether something is a number or a text. -/
def Datum.isPlain : Datum → Bool
  | .number _ | .text _ => true
  | _ => false

namespace Operation

variable {s : Store} {i : Prop} {a b : Value}

/-- What is refused of the operands `a` and `b` is put down to both or to the second one. -/
def Blames (a b : Value) (span : Span) : Prop :=
  span = a.span.through b.span ∨ span = b.span

/-- What comes of the operands `a` and `b` and the store `s`. Only if `i` holds may it be an element
of a list. -/
inductive Outcome (i : Prop) (a b : Value) (s : Store) :
    EStateM.Result Diagnostic Store Value → Prop
  | refused {span : Span} (h : Blames a b span) (message : String) :
      Outcome i a b s (.error (a.failure span message) s)
  | plain {d : Datum} (h : d.isPlain = true) : Outcome i a b s (.ok (derived a b d) s)
  | list {xs : Array Value} (h : ∀ v ∈ xs, v = b ∨ ∃ l, v ∈ s.elements l) :
      Outcome i a b s (derivedList a b xs s)
  | element {l : ListRef} (hi : i) (ha : a.datum = .list l) (p : Nat) :
      Outcome i a b s (.ok ((s.elements l)[p]?.getD default) s)

theorem Outcome.mono {j : Prop} (hij : i → j) {r : EStateM.Result Diagnostic Store Value}
    (h : Outcome i a b s r) : Outcome j a b s r := by
  cases h with
  | refused h message => exact .refused h message
  | plain h => exact .plain h
  | list h => exact .list h
  | element hi ha p => exact .element (hij hi) ha p

/-- The operator `o`, applied to `a` and `b`, does nothing else. -/
def Computes (i : Prop) (a b : Value) (o : Operation Value) : Prop :=
  ∀ s, Outcome i a b s (o s)

theorem Computes.blames {o : Operation Value} (ho : o.Computes i a b) {d : Diagnostic} {s' : Store}
    (h : o s = .error d s') : Blames a b d.span := by
  have hs := ho s
  rw [h] at hs
  cases hs with
  | refused hspan => exact hspan

/-! ## Parts of operators -/

theorem computes_throw {span : Span} (h : Blames a b span) (message : String) :
    Computes i a b (throw (a.failure span message)) :=
  fun _ => .refused h message

theorem computes_illegal : Computes i a b (throw (illegal a b)) :=
  computes_throw (.inl rfl) _

theorem computes_derived {d : Datum} (h : d.isPlain = true) :
    Computes i a b (return derived a b d) :=
  fun _ => .plain h

theorem computes_ite {c : Prop} [Decidable c] {o o' : Operation Value} (h : Computes i a b o)
    (h' : Computes i a b o') : Computes i a b (if c then o else o') := by
  split
  · exact h
  · exact h'

/-- What is refused of an index is put down to the list. -/
theorem position_cases (a b : Value) (length : Nat) (n : Number) (verb : String) (s : Store) :
    (∃ span message, Blames a b span ∧
      position a b length n verb s = .error (a.failure span message) s) ∨
    ∃ p, position a b length n verb s = .ok p s ∧ ∃ k, resolveIndex length k = some p := by
  unfold position
  cases n.toInt? with
  | none => exact .inl ⟨_, _, .inl rfl, rfl⟩
  | some k =>
      simp only [positionOf]
      cases hp : resolveIndex length k with
      | none => exact .inl ⟨_, _, .inr rfl, rfl⟩
      | some p => exact .inr ⟨p, rfl, k, hp⟩

theorem outcome_position {length : Nat} {n : Number} {verb : String} {f : Nat → Operation Value}
    (h : ∀ p, Outcome i a b s (f p s)) :
    Outcome i a b s ((position a b length n verb >>= f) s) := by
  obtain ⟨span, message, hspan, hrefused⟩ | ⟨p, hp, -⟩ := position_cases a b length n verb s
  · rw [bind_of_error hrefused]
    exact .refused hspan message
  · rw [bind_of_ok hp]
    exact h p

/-! ## The operators -/

theorem add_computes (a b : Value) : Computes False a b (add a b) := by
  unfold add
  split
  · exact computes_derived rfl
  · exact computes_derived rfl
  · rename_i l _
    refine fun s => .list fun v hv => ?_
    obtain hv | hv := Array.mem_push.mp hv
    · exact .inr ⟨l, hv⟩
    · exact .inl hv
  · exact computes_illegal

theorem subtract_computes (a b : Value) : Computes False a b (subtract a b) := by
  unfold subtract
  split
  · exact computes_derived rfl
  · rename_i l _ _ _
    exact fun s => outcome_position fun p => .list fun v hv => .inr ⟨l, by grind⟩
  · exact computes_illegal

theorem multiply_computes (a b : Value) : Computes False a b (multiply a b) := by
  unfold multiply
  split
  · exact computes_derived rfl
  · split
    · exact computes_illegal
    · exact computes_ite (computes_throw (.inl rfl) _)
        (computes_ite (computes_derived rfl) (computes_derived rfl))
  · rename_i l r _ _
    refine fun s => .list fun v hv => .inr ?_
    obtain hv | hv := Array.mem_append.mp hv
    · exact ⟨l, hv⟩
    · exact ⟨r, hv⟩
  · exact computes_illegal

theorem divide_computes (a b : Value) : Computes True a b (divide a b) := by
  unfold divide
  split
  · exact computes_ite (computes_throw (.inr rfl) _) (computes_derived rfl)
  · rename_i ha _
    exact fun s => outcome_position fun p => .element trivial ha p
  · exact computes_illegal

theorem onNumbers_computes (f : Number → Number → Number) (a b : Value) :
    Computes False a b (onNumbers f a b) := by
  unfold onNumbers
  split
  · exact computes_derived rfl
  · exact computes_illegal

theorem not_computes (a : Value) : Computes False a a (not a) := by
  unfold not
  split
  · exact computes_derived rfl
  · exact computes_illegal

/-- Only division takes elements of lists. -/
theorem binary_computes (op : BinaryOp) (a b : Value) :
    Computes (op = .divide) a b (binary op a b) := by
  have of_computes {o : Operation Value} (h : Computes False a b o) :
      Computes (op = .divide) a b o := fun s => (h s).mono False.elim
  cases op with
  | add => exact of_computes (add_computes a b)
  | subtract => exact of_computes (subtract_computes a b)
  | multiply => exact of_computes (multiply_computes a b)
  | divide => exact fun s => (divide_computes a b s).mono fun _ => rfl
  | _ => exact of_computes (onNumbers_computes _ a b)

end Operation

end BasicScript
