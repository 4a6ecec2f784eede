/-! # One step behind another

What a sequence of two steps comes down to, for readers of tokens, operators and runs on a machine
alike, and what can be told of all the ways in which a sequence ends. -/

namespace BasicScript

variable {ε σ α β : Type} {r : EStateM ε σ α} {f : α → EStateM ε σ β} {s s' : σ} {e : ε}

theorem bind_of_ok {a : α} (h : r s = .ok a s') : (r >>= f) s = f a s' := by
  simp only [bind, EStateM.bind, h]

theorem bind_of_error (h : r s = .error e s') : (r >>= f) s = .error e s' := by
  simp only [bind, EStateM.bind, h]

/-- Two sequences come to the same from `s` if their first steps do, and their second steps do
where these lead. -/
theorem bind_eq_bind {r' : EStateM ε σ α} {f' : α → EStateM ε σ β} (h : r' s = r s)
    (hf : ∀ a s₁, r s = .ok a s₁ → f' a s₁ = f a s₁) : (r' >>= f') s = (r >>= f) s := by
  cases hr : r s with
  | ok a s₁ => rw [bind_of_ok hr, bind_of_ok (h.trans hr), hf a s₁ hr]
  | error e s₁ => rw [bind_of_error hr, bind_of_error (h.trans hr)]

/-- What yields a value in two steps does so in each of them. -/
theorem ok_of_bind {b : β} (h : (r >>= f) s = .ok b s') :
    ∃ a s₁, r s = .ok a s₁ ∧ f a s₁ = .ok b s' := by
  simp only [bind, EStateM.bind] at h
  split at h
  · exact ⟨_, _, ‹_›, h⟩
  · cases h

/-! ## Mapped results -/

theorem ok_of_map {r : Except ε α} {f : α → β} {b : β} (h : r.map f = .ok b) :
    ∃ a, r = .ok a ∧ f a = b := by
  cases r with
  | error => cases h
  | ok a => exact ⟨a, rfl, Except.ok.inj h⟩

theorem error_of_map {r : Except ε α} {f : α → β} (h : r.map f = .error e) : r = .error e := by
  cases r with
  | ok => cases h
  | error => exact congrArg Except.error (Except.error.inj h)

/-! ## Stopping -/

/-- From `s` a step stops without a value, and `e` is the reason. -/
def Stops (r : EStateM ε σ α) (s : σ) (e : ε) : Prop :=
  ∃ s', r s = .error e s'

theorem Stops.unique {e' : ε} (h : Stops r s e) (h' : Stops r s e') : e = e' := by
  obtain ⟨s₁, h⟩ := h
  obtain ⟨s₂, h'⟩ := h'
  cases h.symm.trans h'
  rfl

@[simp]
theorem not_stops_pure (a : α) : ¬ Stops (pure a : EStateM ε σ α) s e :=
  fun ⟨_, h⟩ => by cases h

@[simp]
theorem stops_throw {e' : ε} : Stops (throw e' : EStateM ε σ α) s e ↔ e' = e := by
  constructor
  · rintro ⟨s', h⟩
    cases h
    rfl
  · rintro rfl
    exact ⟨s, rfl⟩

/-- Two steps stop where the first one does, or the second one behind it. -/
@[simp]
theorem stops_bind :
    Stops (r >>= f) s e ↔ Stops r s e ∨ ∃ a s₁, r s = .ok a s₁ ∧ Stops (f a) s₁ e := by
  constructor
  · rintro ⟨s', h⟩
    cases hr : r s with
    | ok a s₁ =>
        rw [bind_of_ok hr] at h
        exact .inr ⟨a, s₁, rfl, s', h⟩
    | error e' s₁ =>
        rw [bind_of_error hr] at h
        cases h
        exact .inl ⟨_, hr⟩
  · rintro (⟨s', h⟩ | ⟨a, s₁, hr, s', h⟩)
    · exact ⟨s', bind_of_error h⟩
    · exact ⟨s', by rw [bind_of_ok hr, h]⟩

@[simp]
theorem stops_map {g : α → β} : Stops (g <$> r) s e ↔ Stops r s e := by
  rw [map_eq_pure_bind, stops_bind]
  simp only [not_stops_pure, and_false, exists_false, or_false]

/-! ## Ending -/

/-- `I` holds of the state that is left, and `Q` of the value or `E` of the reason that there is
none. -/
def EndsIn (I : σ → Prop) (Q : α → Prop) (E : ε → Prop) : EStateM.Result ε σ α → Prop
  | .ok a s => I s ∧ Q a
  | .error e s => I s ∧ E e

/-- From where `I` holds a step leads to where it holds, by a value of which `Q` holds or a reason
of which `E` does. -/
def Ensures (I : σ → Prop) (Q : α → Prop) (E : ε → Prop) (r : EStateM ε σ α) : Prop :=
  ∀ s, I s → EndsIn I Q E (r s)

section

variable {I : σ → Prop} {Q : α → Prop} {S : β → Prop} {E E' : ε → Prop}

theorem EndsIn.bind (h : EndsIn I Q E (r s))
    (hf : ∀ a s', r s = .ok a s' → I s' → Q a → EndsIn I S E (f a s')) :
    EndsIn I S E ((r >>= f) s) := by
  cases hr : r s with
  | ok a s₁ =>
      rw [hr] at h
      rw [bind_of_ok hr]
      exact hf a s₁ hr h.1 h.2
  | error e s₁ =>
      rw [hr] at h
      rw [bind_of_error hr]
      exact h

theorem EndsIn.imp_error {res : EStateM.Result ε σ α} (h : EndsIn I Q E res)
    (hE : ∀ e, E e → E' e) : EndsIn I Q E' res := by
  cases res with
  | ok a s => exact h
  | error e s => exact ⟨h.1, hE e h.2⟩

namespace Ensures

theorem pure {a : α} (h : Q a) : Ensures I Q E (pure a) :=
  fun _ hs => ⟨hs, h⟩

theorem throw (h : E e) : Ensures I Q E (throw e) :=
  fun _ hs => ⟨hs, h⟩

theorem bind (h : Ensures I Q E r) (hf : ∀ a, Q a → Ensures I S E (f a)) :
    Ensures I S E (r >>= f) :=
  fun s hs => (h s hs).bind fun a s' _ hs' ha => hf a ha s' hs'

theorem of_ok {a : α} (h : Ensures I Q E r) (hs : I s) (hr : r s = .ok a s') : Q a := by
  have hends := h s hs
  rw [hr] at hends
  exact hends.2

theorem of_stops (h : Ensures I Q E r) (hs : I s) (hr : Stops r s e) : E e := by
  obtain ⟨s', hr⟩ := hr
  have hends := h s hs
  rw [hr] at hends
  exact hends.2

end Ensures

end

end BasicScript
