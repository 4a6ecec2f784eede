import BasicScript.Evaluation.Machine
import BasicScript.Proofs.Data.Alike

/-! # Two runs side by side

Two runs make lists in step, but need not have begun with the same number of them. A linking tells
which list of one stands for which of the other, and two computations match when they lead from
states that are alike to states that are alike, and end alike. -/

namespace BasicScript

/-- Which lists of one run stand for which of another, and what their logs have in common. -/
structure Linking where
  /-- The lists that stand for one another when the first store has so many. -/
  links : Nat → ListRef → ListRef → Prop
  /-- How many lists the two stores may have. -/
  sizes : Nat → Nat → Prop
  logs : List Event → List Event → Prop
  mono : ∀ {n k l l'}, n ≤ k → links n l l' → links k l l'
  injective : ∀ {n k k' l l'}, links n k k' → links n l l' → (k = l ↔ k' = l')
  grow : ∀ {n n'}, sizes n n' → sizes (n + 1) (n' + 1)
  fresh : ∀ {n n'}, sizes n n' → links (n + 1) ⟨n⟩ ⟨n'⟩
  old : ∀ {n n' l l'}, sizes n n' → links (n + 1) l l' → l = ⟨n⟩ ∨ links n l l'
  note : ∀ {a b} (e : Event), logs a b → logs (e :: a) (e :: b)

namespace Linking

/-- Every list stands for itself, whatever the logs. -/
def same : Linking where
  links _ := Eq
  sizes := Eq
  logs _ _ := True
  mono _ h := h
  injective h h' := by rw [h, h']
  grow h := by rw [h]
  fresh h := by rw [h]
  old _ h := .inr h
  note _ h := h

/-- Every list that there is stands for itself, and the same is noted. -/
def present : Linking where
  links n l l' := l = l' ∧ l.index < n
  sizes := Eq
  logs := Eq
  mono hn h := ⟨h.1, Nat.lt_of_lt_of_le h.2 hn⟩
  injective h h' := by rw [h.1, h'.1]
  grow h := by rw [h]
  fresh h := by simp [h]
  old {n n' l l'} _ h := by
    obtain ⟨h, hl⟩ := h
    by_cases heq : l.index = n
    · exact .inl (by rw [← heq])
    · exact .inr ⟨h, by omega⟩
  note _ h := by rw [h]

/-- Every list that there is stands for itself, but the second store lacks the list `k`, so those
made after it have moved up. -/
def without (k : Nat) : Linking where
  links n l l' :=
    l.index < n ∧ ((l.index < k ∧ l' = l) ∨ (k < l.index ∧ l'.index + 1 = l.index))
  sizes n n' := k < n ∧ n = n' + 1
  logs _ _ := True
  mono hn h := ⟨Nat.lt_of_lt_of_le h.1 hn, h.2⟩
  injective {n a a' l l'} h h' := by
    obtain ⟨a⟩ := a
    obtain ⟨a'⟩ := a'
    obtain ⟨l⟩ := l
    obtain ⟨l'⟩ := l'
    simp only [ListRef.mk.injEq] at h h' ⊢
    omega
  grow h := by omega
  fresh h := by
    simp only
    omega
  old {n n' l l'} _ h := by
    obtain ⟨hl, h⟩ := h
    by_cases heq : l.index = n
    · exact .inl (by rw [← heq])
    · exact .inr ⟨by omega, h⟩
  note _ h := h

theorem without_of_present {k n : Nat} {l l' : ListRef} (hn : k ≤ n)
    (h : present.links k l l') : (without k).links n l l' :=
  ⟨Nat.lt_of_lt_of_le h.2 hn, .inl ⟨h.2, h.1.symm⟩⟩

end Linking

/-! ## Matching computations -/

section

variable {σ ε α β : Type}

/-- The two end in one way: with values that `V` relates, or with errors that `E` relates, in states
that `S` relates. -/
inductive EndsAlike (V : σ → α → β → Prop) (E : σ → ε → ε → Prop) (S : σ → σ → Prop) :
    EStateM.Result ε σ α → EStateM.Result ε σ β → Prop
  | ok {a b s s'} (hv : V s a b) (hs : S s s') : EndsAlike V E S (.ok a s) (.ok b s')
  | error {e e' s s'} (he : E s e e') (hs : S s s') : EndsAlike V E S (.error e s) (.error e' s')

namespace EndsAlike

variable {V V' : σ → α → β → Prop} {E E' : σ → ε → ε → Prop} {S S' : σ → σ → Prop}
  {r : EStateM.Result ε σ α} {r' : EStateM.Result ε σ β}

theorem imp (h : EndsAlike V E S r r') (hV : ∀ {s s' a b}, S s s' → V s a b → V' s a b)
    (hE : ∀ {s s' e e'}, S s s' → E s e e' → E' s e e') (hS : ∀ {s s'}, S s s' → S' s s') :
    EndsAlike V' E' S' r r' := by
  cases h with
  | ok hv hs => exact .ok (hV hs hv) (hS hs)
  | error he hs => exact .error (hE hs he) (hS hs)

/-- If one of the two ends with an error of a certain kind, so does the other. -/
theorem error_iff {i : ε} (h : EndsAlike V E S r r')
    (hE : ∀ {s e e'}, E s e e' → (e = i ↔ e' = i)) :
    (∃ s, r = .error i s) ↔ ∃ s, r' = .error i s := by
  cases h with
  | ok => simp
  | error he => simp [hE he]

end EndsAlike

/-- When two states of two runs belong together, and how many lists the first of them has. -/
structure Pairing (σ : Type) where
  size : σ → Nat
  Paired : σ → σ → Prop

/-- From states that belong together and have `n` lists or more, the two end in one way. What `V`
and `E` say of the lists in a value or an error is said of the lists that are there at the end. -/
def Matches (L : Linking) (P : Pairing σ) (E : (ListRef → ListRef → Prop) → ε → ε → Prop)
    (V : (ListRef → ListRef → Prop) → α → β → Prop) (n : Nat) (r : EStateM ε σ α)
    (r' : EStateM ε σ β) : Prop :=
  ∀ s s', n ≤ P.size s → P.Paired s s' →
    EndsAlike (fun t a b => P.size s ≤ P.size t ∧ V (L.links (P.size t)) a b)
      (fun t e e' => P.size s ≤ P.size t ∧ E (L.links (P.size t)) e e') P.Paired (r s) (r' s')

namespace Matches

variable {L : Linking} {P : Pairing σ} {E : (ListRef → ListRef → Prop) → ε → ε → Prop}
  {V : (ListRef → ListRef → Prop) → α → β → Prop} {n : Nat} {r : EStateM ε σ α}
  {r' : EStateM ε σ β}

theorem of_le {k : Nat} (h : Matches L P E V n r r') (hk : n ≤ k) : Matches L P E V k r r' :=
  fun s s' hs => h s s' (Nat.le_trans hk hs)

theorem pure {a : α} {b : β} (h : ∀ k, n ≤ k → V (L.links k) a b) :
    Matches L P E V n (pure a) (pure b) :=
  fun s _ hn hs => .ok ⟨Nat.le_refl _, h (P.size s) hn⟩ hs

theorem throw {e e' : ε} (h : ∀ k, n ≤ k → E (L.links k) e e') :
    Matches L P E V n (throw e) (throw e') :=
  fun s _ hn hs => .error ⟨Nat.le_refl _, h (P.size s) hn⟩ hs

theorem bind {α' β' : Type} {W : (ListRef → ListRef → Prop) → α' → β' → Prop}
    {f : α → EStateM ε σ α'} {f' : β → EStateM ε σ β'} (h : Matches L P E V n r r')
    (hf : ∀ k a b, n ≤ k → V (L.links k) a b → Matches L P E W k (f a) (f' b)) :
    Matches L P E W n (r >>= f) (r' >>= f') := by
  intro s s' hn hs
  have hrun := h s s' hn hs
  simp only [Bind.bind, EStateM.bind]
  cases hr : r s with
  | ok a t =>
      cases hr' : r' s' with
      | ok b t' =>
          rw [hr, hr'] at hrun
          obtain ⟨⟨hle, hv⟩, ht⟩ := hrun
          have hrest := hf _ a b (Nat.le_trans hn hle) hv t t' (Nat.le_refl _) ht
          show EndsAlike _ _ _ (f a t) (f' b t')
          generalize f a t = q at hrest ⊢
          generalize f' b t' = q' at hrest ⊢
          cases hrest with
          | ok hv hu => exact .ok ⟨Nat.le_trans hle hv.1, hv.2⟩ hu
          | error he hu => exact .error ⟨Nat.le_trans hle he.1, he.2⟩ hu
      | error e' t' => rw [hr, hr'] at hrun; cases hrun
  | error e t =>
      cases hr' : r' s' with
      | ok b t' => rw [hr, hr'] at hrun; cases hrun
      | error e' t' =>
          rw [hr, hr'] at hrun
          obtain - | ⟨he, ht⟩ := hrun
          exact .error he ht

theorem ite {c : Prop} [Decidable c] {q : EStateM ε σ α} {q' : EStateM ε σ β}
    (h : Matches L P E V n r r') (h' : Matches L P E V n q q') :
    Matches L P E V n (if c then r else q) (if c then r' else q') := by
  split
  · exact h
  · exact h'

end Matches

end

end BasicScript
