import BasicScript.Proofs.Grammar.Progress

/-! # Reading one token ahead

A reader takes every decision by the next token. So what it takes on one cursor it takes on any
other where the same tokens stand, as long as the token behind them is the same or one that stops
it anyway; and when it fails, it fails at the first token that no continuation could have saved:
what stands in front of that token can be completed, and what stands behind it makes no
difference. -/

namespace BasicScript

namespace Cursor

variable {c : Cursor} {t : Token} {us : List Token}

/-- The tokens behind the cursor, and the end of input. -/
def tokens (c : Cursor) : List Token :=
  c.rest ++ [c.finish]

theorem exists_tokens_eq (c : Cursor) : ∃ us, c.tokens = c.peek :: us := by
  cases h : c.rest with
  | nil => exact ⟨[], by simp [tokens, peek, h]⟩
  | cons t r => exact ⟨r ++ [c.finish], by simp [tokens, peek, h]⟩

theorem peek_of_tokens (h : c.tokens = t :: us) : c.peek = t := by
  obtain ⟨vs, hvs⟩ := c.exists_tokens_eq
  exact (List.cons.inj (hvs.symm.trans h)).1

theorem tokens_advance (h : c.tokens = t :: us) (ht : t.kind ≠ .endOfInput) :
    c.advance.tokens = us := by
  cases hr : c.rest with
  | nil =>
      rw [tokens, hr, List.nil_append] at h
      rw [← (List.cons.inj h).1, c.kind_finish] at ht
      exact absurd rfl ht
  | cons u r =>
      rw [tokens, hr, List.cons_append] at h
      rw [advance_of_rest_cons hr]
      exact (List.cons.inj h).2

/-- The end of input stands behind all newlines. -/
theorem tokens_behindNewlines (c : Cursor) :
    c.behindNewlines.tokens = c.tokens.dropWhile (·.kind = .newline) := by
  have hfinish : [c.finish].dropWhile (·.kind = .newline) = [c.finish] := by
    rw [List.dropWhile_cons_of_neg (by simp [c.kind_finish])]
  rw [tokens, tokens, rest_behindNewlines, List.dropWhile_append, hfinish]
  split
  · rename_i hnil
    rw [List.isEmpty_iff.mp hnil]
    rfl
  · rfl

theorem kind_behindNewlines (c : Cursor) : c.behindNewlines.peek.kind ≠ .newline := by
  obtain ⟨us, hus⟩ := c.behindNewlines.exists_tokens_eq
  have hhead := List.head?_dropWhile_not (·.kind = .newline) c.tokens
  rw [← tokens_behindNewlines, hus] at hhead
  simpa using hhead

theorem tokens_eq_cons (h : c.peek.kind ≠ .endOfInput) : c.tokens = c.peek :: c.advance.tokens := by
  obtain ⟨us, hus⟩ := c.exists_tokens_eq
  rw [tokens_advance hus h, hus]

theorem peekSecond_of_tokens {u : Token} (h : c.tokens = t :: u :: us) : c.peekSecond = u := by
  unfold tokens at h
  match hr : c.rest with
  | [] =>
      rw [hr] at h
      cases h
  | [v] =>
      rw [hr] at h
      cases h
      simp [peekSecond, hr]
  | v :: w :: r =>
      rw [hr] at h
      cases h
      simp [peekSecond, hr]

theorem Reaches.length_tokens_le {c' : Cursor} {d : Nat} (h : c.Reaches d c') :
    c'.tokens.length + d ≤ c.tokens.length := by
  have hlen := h.length_le
  simp only [tokens, List.length_append, List.length_singleton]
  omega

end Cursor

namespace Grammar

variable {ι α β : Type} {c : Cursor} {t : Token} {ts us : List Token}

/-! ## What is left -/

/-- A reader succeeds and leaves the tokens `ts`. -/
def Leaves (r : Reader α) (c : Cursor) (ts : List Token) : Prop :=
  ∃ a c', r c = .ok a c' ∧ c'.tokens = ts

namespace Leaves

theorem bind {r : Reader α} {f : α → Reader β} (h : Leaves r c ts)
    (hf : ∀ a c', c'.tokens = ts → Leaves (f a) c' us) : Leaves (r >>= f) c us := by
  obtain ⟨a, c', hr, hc'⟩ := h
  obtain ⟨b, c'', hb, hc''⟩ := hf a c' hc'
  exact ⟨b, c'', (bind_of_ok hr).trans hb, hc''⟩

end Leaves

/-! ## Completion

A family of readers has a member for every index and every amount of fuel. -/

/-- With fuel `n` or more, all of `s` read `ts` and no more where a token of `T` follows. -/
def Takes (n : Nat) (T : List TokenKind) (s : ι → Nat → Reader α) (ts : List Token) : Prop :=
  ∀ i m, n ≤ m → ∀ c t us, c.tokens = ts ++ t :: us → t.kind ∈ T → Leaves (s i m) c (t :: us)

/-- With fuel `n` or more, all of `s` find the fault `e` at `t`, wherever it stands behind `ts`. -/
def Finds (n : Nat) (e : Diagnostic) (s : ι → Nat → Reader α) (ts : List Token) (t : Token) :
    Prop :=
  ∀ i m, n ≤ m → ∀ c us, c.tokens = ts ++ t :: us → Stops (s i m) c (.fault e)

/-- There are tokens that all of `s` read where a token of `T` follows, with enough fuel. The first
of them, or else the one that follows, is in `starts`. -/
def Satisfiable (starts T : List TokenKind) (s : ι → Nat → Reader α) : Prop :=
  ∃ w N, (∀ t ∈ w, t.kind ≠ .endOfInput) ∧
    (∀ t : Token, t.kind ∈ T → (w.head?.getD t).kind ∈ starts) ∧ Takes N T s w

/-- The tokens `ts` can be completed to what all of `s` read where a token of `T` follows. -/
def Completable (T : List TokenKind) (s : ι → Nat → Reader α) (ts : List Token) : Prop :=
  ∃ w N, (∀ t ∈ w, t.kind ≠ .endOfInput) ∧ Takes N T s (ts ++ w)

variable {n m d d' : Nat} {starts starts₂ T T' T₁ : List TokenKind} {s : ι → Nat → Reader α}
  {g : ι → Nat → α → Reader β}

theorem append_eq_cons (w : List Token) (t : Token) (us : List Token) :
    ∃ vs, w ++ t :: us = w.head?.getD t :: vs := by
  cases w with
  | nil => exact ⟨us, rfl⟩
  | cons u w => exact ⟨w ++ t :: us, rfl⟩

theorem peek_eq_head (h : c.tokens = ts ++ t :: us) : c.peek = ts.head?.getD t := by
  obtain ⟨vs, hvs⟩ := append_eq_cons ts t us
  exact Cursor.peek_of_tokens (h.trans hvs)

namespace Takes

theorem mono (h : Takes n T s ts) (hn : n ≤ m) (hT : T' ⊆ T) : Takes m T' s ts :=
  fun i k hk c t us hc ht => h i k (Nat.le_trans hn hk) c t us hc (hT ht)

theorem succ (h : Takes n T (fun i m => s i (m + 1)) ts) : Takes (n + 1) T s ts := by
  intro i m hm
  obtain ⟨m, rfl⟩ : ∃ k, m = k + 1 := ⟨m - 1, by omega⟩
  exact h i m (by omega)

/-- The first step stops where the second one goes on, if that starts with what stops it. -/
theorem bind (h : Takes n T₁ s ts) (hg : Takes n T (fun (p : ι × α) m => g p.1 m p.2) us)
    (hT : ∀ t : Token, t.kind ∈ T → (us.head?.getD t).kind ∈ T₁) :
    Takes n T (fun i m => s i m >>= g i m) (ts ++ us) := by
  intro i m hm c t vs hc ht
  obtain ⟨vs', hvs'⟩ := append_eq_cons us t vs
  rw [List.append_assoc, hvs'] at hc
  refine (h i m hm c _ vs' hc (hT t ht)).bind fun a c' hc' => ?_
  exact hg (i, a) m hm c' t vs (hc'.trans hvs'.symm) ht

/-! ### Single steps -/

theorem newlines {ts : List Token} (h : ∀ t ∈ ts, t.kind = .newline)
    (hT : TokenKind.newline ∉ T) : Takes n T (fun (_ : ι) _ => skipNewlines) ts := by
  intro i m _ c t us hc ht
  have hne : t.kind ≠ .newline := fun hk => hT (hk ▸ ht)
  refine ⟨(), c.behindNewlines, rfl, ?_⟩
  rw [Cursor.tokens_behindNewlines, hc, List.dropWhile_append_of_pos (by simpa using h),
    List.dropWhile_cons_of_neg (by simpa using hne)]

variable {k : TokenKind} {fault : GrammarFault} {u : Token}

theorem next (hu : u.kind ≠ .endOfInput) :
    Takes n T (fun (_ : ι) _ => Grammar.next) [u] :=
  fun _ _ _ c _ _ hc _ => ⟨c.peek, c.advance, rfl, Cursor.tokens_advance hc hu⟩

theorem expect (hk : u.kind = k) (hu : u.kind ≠ .endOfInput) :
    Takes n T (fun (_ : ι) _ => Grammar.expect k fault) [u] := by
  intro _ _ _ c t us hc _
  refine ⟨c.peek, c.advance, ?_, Cursor.tokens_advance hc hu⟩
  exact if_pos (by rwa [Cursor.peek_of_tokens hc])

end Takes

namespace Satisfiable

theorem succ (h : Satisfiable starts T (fun i m => s i (m + 1))) : Satisfiable starts T s := by
  obtain ⟨w, N, hw, hstarts, h⟩ := h
  exact ⟨w, N + 1, hw, hstarts, h.succ⟩

theorem bind (h : Satisfiable starts T₁ s)
    (hg : Satisfiable starts₂ T (fun (p : ι × α) m => g p.1 m p.2)) (hT : starts₂ ⊆ T₁) :
    Satisfiable starts T (fun i m => s i m >>= g i m) := by
  obtain ⟨w, N, hw, hstarts, h⟩ := h
  obtain ⟨w', M, hw', hstarts', hg⟩ := hg
  have hhead : ∀ t : Token, t.kind ∈ T → (w'.head?.getD t).kind ∈ T₁ :=
    fun t ht => hT (hstarts' t ht)
  refine ⟨w ++ w', max N M, List.forall_mem_append.mpr ⟨hw, hw'⟩, fun t ht => ?_, ?_⟩
  · have hfirst := hstarts _ (hhead t ht)
    cases w with
    | nil => exact hfirst
    | cons u w => exact hfirst
  · exact (h.mono (Nat.le_max_left N M) (List.Subset.refl _)).bind
      (hg.mono (Nat.le_max_right N M) (List.Subset.refl _)) hhead

/-- Steps that consume nothing. -/
theorem of_idle (hs : ∀ i m c, ∃ a, s i m c = .ok a c) : Satisfiable T T s :=
  ⟨[], 0, by simp, fun _ ht => ht, fun i m _ c _ _ hc _ => (hs i m c).imp fun _ ha => ⟨c, ha, hc⟩⟩

theorem pure {e : ι → Nat → α} : Satisfiable T T (fun i m => pure (e i m)) :=
  of_idle fun i m _ => ⟨e i m, rfl⟩

theorem peek : Satisfiable T T (fun (_ : ι) _ => peek) :=
  of_idle fun _ _ c => ⟨c.peek, rfl⟩

theorem skipNewlines (hT : TokenKind.newline ∉ T) :
    Satisfiable T T (fun (_ : ι) _ => skipNewlines) :=
  ⟨[], 0, by simp, fun _ ht => ht, .newlines (by simp) hT⟩

variable {k : TokenKind} {fault : GrammarFault}

theorem next (hne : k ≠ .endOfInput) : Satisfiable [k] T (fun (_ : ι) _ => next) :=
  ⟨[⟨k, none, default⟩], 0, by simpa using hne, fun _ _ => List.mem_singleton_self k, .next hne⟩

theorem expect (hne : k ≠ .endOfInput) :
    Satisfiable [k] T (fun (_ : ι) _ => expect k fault) :=
  ⟨[⟨k, none, default⟩], 0, by simpa using hne, fun _ _ => List.mem_singleton_self k,
    .expect rfl hne⟩

end Satisfiable

theorem Satisfiable.completable (h : Satisfiable starts T s) : Completable T s [] := by
  obtain ⟨w, N, hw, -, h⟩ := h
  exact ⟨w, N, hw, h⟩

theorem Completable.bind (h : Completable T₁ s ts)
    (hg : Satisfiable starts₂ T (fun (p : ι × α) m => g p.1 m p.2)) (hT : starts₂ ⊆ T₁) :
    Completable T (fun i m => s i m >>= g i m) ts := by
  obtain ⟨w, N, hw, h⟩ := h
  obtain ⟨w', M, hw', hstarts', hg⟩ := hg
  refine ⟨w ++ w', max N M, List.forall_mem_append.mpr ⟨hw, hw'⟩, ?_⟩
  rw [← List.append_assoc]
  exact (h.mono (Nat.le_max_left N M) (List.Subset.refl _)).bind
    (hg.mono (Nat.le_max_right N M) (List.Subset.refl _)) fun t ht => hT (hstarts' t ht)

/-! ## The first fault -/

/-- At `c` stands `q` and then `t`, where all of `s` find the fault `e`, whatever follows. In front
of it are `d` tokens at least, and those can be completed. -/
structure FirstFault (d n : Nat) (T : List TokenKind) (e : Diagnostic) (s : ι → Nat → Reader α)
    (c : Cursor) (q : List Token) (t : Token) : Prop where
  stands : ∃ us, c.tokens = q ++ t :: us
  behind : d ≤ q.length
  kind : e.kind = .invalidSyntax
  span : e.span = t.span
  finds : Finds n e s q t
  completable : q ≠ [] → Completable T s q

namespace FirstFault

variable {e : Diagnostic} {q : List Token}

theorem mono (h : FirstFault d n T e s c q t) (hd : d' ≤ d) : FirstFault d' n T e s c q t :=
  { h with behind := Nat.le_trans hd h.behind }

theorem narrow (h : FirstFault d n T e s c q t) (hT : T' ⊆ T) : FirstFault d n T' e s c q t :=
  { h with
    completable := fun hq => by
      obtain ⟨w, N, hw, h⟩ := h.completable hq
      exact ⟨w, N, hw, h.mono (Nat.le_refl N) hT⟩ }

theorem succ (h : FirstFault d n T e (fun i m => s i (m + 1)) c q t) :
    FirstFault d (n + 1) T e s c q t :=
  { h with
    finds := fun i m hm => by
      obtain ⟨m, rfl⟩ : ∃ k, m = k + 1 := ⟨m - 1, by omega⟩
      exact h.finds i m (by omega)
    completable := fun hq => by
      obtain ⟨w, N, hw, h⟩ := h.completable hq
      exact ⟨w, N + 1, hw, h.succ⟩ }

/-- The next token is the fault. -/
theorem here (hs : ∀ i m c₂, c₂.peek = c.peek → Stops (s i m) c₂ (.fault e))
    (hkind : e.kind = .invalidSyntax) (hspan : e.span = c.peek.span) :
    FirstFault 0 n T e s c [] c.peek where
  stands := c.exists_tokens_eq
  behind := Nat.le_refl 0
  kind := hkind
  span := hspan
  finds i m _ c₂ _ h₂ := hs i m c₂ (Cursor.peek_of_tokens h₂)
  completable h := absurd rfl h

theorem peek (h : FirstFault d n T e s c q t) : c.peek = q.head?.getD t := by
  obtain ⟨us, hus⟩ := h.stands
  exact peek_eq_head hus

/-- Readers that do the same find the same. -/
theorem congr {s' : ι → Nat → Reader α} (h : FirstFault d n T e s c q t)
    (hfinds : ∀ i m c₂ us, c₂.tokens = q ++ t :: us → s' i m c₂ = s i m c₂)
    (hcompletable : q ≠ [] → ∀ i m c₂ us, c₂.tokens = q ++ us → s' i m c₂ = s i m c₂) :
    FirstFault d n T e s' c q t :=
  { h with
    finds := fun i m hm c₂ us h₂ => by
      obtain ⟨c₂', hc₂'⟩ := h.finds i m hm c₂ us h₂
      exact ⟨c₂', (hfinds i m c₂ us h₂).trans hc₂'⟩
    completable := fun hq => by
      obtain ⟨w, N, hw, htakes⟩ := h.completable hq
      refine ⟨w, N, hw, fun i m hm c₂ u us h₂ hu => ?_⟩
      obtain ⟨a, c₂', ha, hc₂'⟩ := htakes i m hm c₂ u us h₂ hu
      rw [List.append_assoc] at h₂
      exact ⟨a, c₂', (hcompletable hq i m c₂ _ h₂).trans ha, hc₂'⟩ }

/-- What completes the first step goes on with what satisfies the second. -/
theorem bind_first (h : FirstFault d n T₁ e s c q t)
    (hg : Satisfiable starts₂ T (fun (p : ι × α) m => g p.1 m p.2)) (hT : starts₂ ⊆ T₁) :
    FirstFault d n T e (fun i m => s i m >>= g i m) c q t :=
  { h with
    finds := fun i m hm c₂ us h₂ => stops_bind.mpr (.inl (h.finds i m hm c₂ us h₂))
    completable := fun hq => (h.completable hq).bind hg hT }

/-- Behind what the first step reads, the second one finds a fault. -/
theorem bind_second {c' : Cursor} {p : List Token} (hp : c.tokens = p ++ c'.tokens)
    (hs : Takes n (c'.peek.kind :: T₁) s p)
    (h : FirstFault d' n T e (fun (p : ι × α) m => g p.1 m p.2) c' q t)
    (hg : Satisfiable starts₂ T (fun (p : ι × α) m => g p.1 m p.2)) (hT : starts₂ ⊆ T₁)
    (hd : d ≤ p.length + d') :
    FirstFault d n T e (fun i m => s i m >>= g i m) c (p ++ q) t where
  stands := by
    obtain ⟨us, hus⟩ := h.stands
    exact ⟨us, by rw [hp, hus, List.append_assoc]⟩
  behind := by
    have hlen := h.behind
    rw [List.length_append]
    omega
  kind := h.kind
  span := h.span
  finds i m hm c₂ us h₂ := by
    obtain ⟨vs, hvs⟩ := append_eq_cons q t us
    rw [List.append_assoc, hvs, ← h.peek] at h₂
    obtain ⟨a, c₂', ha, hc₂'⟩ := hs i m hm c₂ c'.peek vs h₂ List.mem_cons_self
    refine stops_bind.mpr (.inr ⟨a, c₂', ha, h.finds (i, a) m hm c₂' us ?_⟩)
    rw [hc₂', hvs, h.peek]
  completable _ := by
    cases q with
    | nil =>
        -- nothing is read by the second step, so what satisfies it completes the first one
        rw [List.append_nil]
        exact Completable.bind ⟨[], n, by simp, by rwa [List.append_nil]⟩ hg
          (List.subset_cons_of_subset _ hT)
    | cons u q =>
        obtain ⟨w, N, hw, hw'⟩ := h.completable (List.cons_ne_nil u q)
        refine ⟨w, max n N, hw, ?_⟩
        rw [List.append_assoc]
        refine (hs.mono (Nat.le_max_left n N) (List.Subset.refl _)).bind
          (hw'.mono (Nat.le_max_right n N) (List.Subset.refl _)) fun t' _ => ?_
        rw [h.peek]
        exact List.mem_cons_self

end FirstFault

/-! ## Prompt readers -/

/-- What `r` reads at `c` with fuel `n`, all of `s` take elsewhere, where the same kind of token
follows or one of `T`. Only where all of `T` are in `starts` may nothing be read. -/
def Repeats (starts T : List TokenKind) (r : Reader α) (s : ι → Nat → Reader α) (n : Nat)
    (c : Cursor) : Prop :=
  ∀ a c', r c = .ok a c' → ∃ p, c.tokens = p ++ c'.tokens ∧ (p = [] → T ⊆ starts) ∧
    Takes n (c'.peek.kind :: T) s p

/-- What `r` reads at `c` all of `s` read wherever the same tokens stand, as long as the one behind
them is of the same kind or one of `T`; and the fault it finds there is the first for all of `s`. -/
structure Prompt (d : Nat) (starts T : List TokenKind) (r : Reader α) (s : ι → Nat → Reader α)
    (n : Nat) (c : Cursor) : Prop where
  repeats : Repeats starts T r s n c
  refuses : ∀ e c', r c = .error (.fault e) c' → ∃ q t, FirstFault d n T e s c q t

/-- Prompt, and able to read something. -/
structure Steady (d : Nat) (starts T : List TokenKind) (r : Reader α) (s : ι → Nat → Reader α)
    (n : Nat) (c : Cursor) : Prop extends Prompt d starts T r s n c where
  satisfiable : Satisfiable starts T s

variable {r : Reader α} {f : α → Reader β}

theorem Repeats.bind (h : Repeats starts T₁ r s n c)
    (hf : ∀ a c', r c = .ok a c' →
      Repeats starts₂ T (f a) (fun (p : ι × α) m => g p.1 m p.2) n c')
    (hT : starts₂ ⊆ T₁) : Repeats starts T (r >>= f) (fun i m => s i m >>= g i m) n c := by
  intro b c'' hb
  obtain ⟨a, c', ha, hb⟩ := ok_of_bind hb
  obtain ⟨p, hp, hnil, h⟩ := h a c' ha
  obtain ⟨p', hp', hnil', hf⟩ := hf a c' ha b c'' hb
  refine ⟨p ++ p', by rw [hp, hp', List.append_assoc], fun hpp => ?_, h.bind hf fun t ht => ?_⟩
  · obtain ⟨hp, hp'⟩ := List.append_eq_nil_iff.mp hpp
    exact List.Subset.trans (hnil' hp') (List.Subset.trans hT (hnil hp))
  · obtain ⟨us, hus⟩ := c''.exists_tokens_eq
    rw [hus] at hp'
    rw [peek_eq_head hp']
    cases p' with
    | nil => exact List.mem_cons.mpr ((List.mem_cons.mp ht).imp_right fun ht => hT (hnil' rfl ht))
    | cons u p' => exact List.mem_cons_self

namespace Prompt

theorem mono (h : Prompt d starts T r s n c) (hd : d' ≤ d) : Prompt d' starts T r s n c where
  repeats := h.repeats
  refuses e c' he := by
    obtain ⟨q, t, h⟩ := h.refuses e c' he
    exact ⟨q, t, h.mono hd⟩

/-- What cannot be empty may start with anything. -/
theorem widen (h : Prompt d [] T r s n c) : Prompt d starts T r s n c where
  repeats a c' ha := by
    obtain ⟨p, hp, hnil, h⟩ := h.repeats a c' ha
    exact ⟨p, hp, fun hp => List.Subset.trans (hnil hp) (List.nil_subset starts), h⟩
  refuses := h.refuses

theorem busy_of (h : Prompt d starts T r s n c)
    (hread : ∀ a c', r c = .ok a c' → T ⊆ starts → c.tokens ≠ c'.tokens) :
    Prompt d [] T r s n c where
  repeats a c' ha := by
    obtain ⟨p, hp, hnil, h⟩ := h.repeats a c' ha
    refine ⟨p, hp, fun hpnil => ?_, h⟩
    rw [hpnil, List.nil_append] at hp
    exact absurd hp (hread a c' ha (hnil hpnil))
  refuses := h.refuses

/-- Something is read if what follows does not start with what is read. -/
theorem busy (h : Prompt d starts T r s n c) (hT : ¬ T ⊆ starts) : Prompt d [] T r s n c :=
  h.busy_of fun _ _ _ hsub => absurd hsub hT

theorem busy_of_advances (h : Prompt d starts T r s n c) (ha : Advances 1 r c) :
    Prompt d [] T r s n c :=
  h.busy_of fun a c' hr _ heq => by
    have hlen := (ha a c' hr).length_tokens_le
    rw [heq] at hlen
    omega

theorem narrow (h : Prompt d starts T r s n c) (hT : T' ⊆ T) : Prompt d starts T' r s n c where
  repeats a c' ha := by
    obtain ⟨p, hp, hnil, h⟩ := h.repeats a c' ha
    exact ⟨p, hp, fun hp => List.Subset.trans hT (hnil hp),
      h.mono (Nat.le_refl n) (List.cons_subset_cons _ hT)⟩
  refuses e c' he := by
    obtain ⟨q, t, h⟩ := h.refuses e c' he
    exact ⟨q, t, h.narrow hT⟩

theorem throw : Prompt d starts T (throw .fuel) s n c where
  repeats := by rintro _ _ ⟨⟩
  refuses := by rintro _ _ ⟨⟩

theorem fail {f : GrammarFault} :
    Prompt 0 starts T (fail f : Reader α) (fun (_ : ι) _ => fail f) n c where
  repeats := by rintro _ _ ⟨⟩
  refuses := by
    rintro _ _ ⟨⟩
    exact ⟨[], c.peek, .here (fun i m c₂ h₂ => ⟨c₂, by rw [← h₂]; rfl⟩) rfl rfl⟩

/-- The token that is looked at is the fault. -/
theorem reject {f : GrammarFault} {x : Reader β} {y : ι → Nat → Reader β}
    (hx : x c = (next >>= fun _ => failAt f c.peek.span) c)
    (hy : ∀ i m c₂, c₂.peek = c.peek → y i m c₂ = (next >>= fun _ => failAt f c.peek.span) c₂) :
    Prompt 0 starts T x y n c where
  repeats b c' hb := by
    rw [hx] at hb
    cases hb
  refuses e c' he := by
    rw [hx] at he
    cases he
    exact ⟨[], c.peek, .here (fun i m c₂ h₂ => ⟨c₂.advance, hy i m c₂ h₂⟩) rfl rfl⟩

theorem succ (h : Prompt d starts T r (fun i m => s i (m + 1)) n c) :
    Prompt d starts T r s (n + 1) c where
  repeats a c' ha := by
    obtain ⟨p, hp, hnil, h⟩ := h.repeats a c' ha
    exact ⟨p, hp, hnil, h.succ⟩
  refuses e c' he := by
    obtain ⟨q, t, h⟩ := h.refuses e c' he
    exact ⟨q, t, h.succ⟩

/-- The second step is satisfied behind what the first one reads, and behind whatever it takes to
complete that. -/
theorem bind_of_le {d₁ d₂ : Nat} (h : Prompt d₁ starts T₁ r s n c)
    (hf : ∀ a c', r c = .ok a c' →
      Prompt d₂ starts₂ T (f a) (fun (p : ι × α) m => g p.1 m p.2) n c')
    (hg : Satisfiable starts₂ T (fun (p : ι × α) m => g p.1 m p.2)) (hT : starts₂ ⊆ T₁)
    (hd₁ : d ≤ d₁) (hd₂ : ∀ p : List Token, (p = [] → T₁ ⊆ starts) → d ≤ p.length + d₂) :
    Prompt d starts T (r >>= f) (fun i m => s i m >>= g i m) n c where
  repeats := h.repeats.bind (fun a c' ha => (hf a c' ha).repeats) hT
  refuses e c'' he := by
    rcases stops_bind.mp ⟨c'', he⟩ with ⟨c', hr⟩ | ⟨a, c', ha, c'', he⟩
    · obtain ⟨q, t, hfirst⟩ := h.refuses e c' hr
      exact ⟨q, t, (hfirst.mono hd₁).bind_first hg hT⟩
    · obtain ⟨p, hp, hnil, htakes⟩ := h.repeats a c' ha
      obtain ⟨q, t, hfirst⟩ := (hf a c' ha).refuses e c'' he
      exact ⟨p ++ q, t, .bind_second hp htakes hfirst hg hT (hd₂ p hnil)⟩

/-! ### Looking ahead -/

/-- Where the next token is the same, or one that stops `x'` as well, `x` does what `x'` does. -/
theorem look {x x' : Reader β} {y y' : ι → Nat → Reader β} (h : Prompt d starts₂ T x' y' n c)
    (hx : x c = x' c) (hy : ∀ i m c₂, c₂.peek = c.peek → y i m c₂ = y' i m c₂)
    (hstop : T ⊆ starts₂ → T ⊆ starts ∧
      ∀ i m c₂, c₂.peek.kind ∈ c.peek.kind :: T → y i m c₂ = y' i m c₂) :
    Prompt d starts T x y n c where
  repeats b c' hb := by
    obtain ⟨p, hp, hnil, h⟩ := h.repeats b c' (hx ▸ hb)
    obtain ⟨vs, hvs⟩ := c'.exists_tokens_eq
    have hpeek : c.peek = p.head?.getD c'.peek :=
      peek_eq_head (hp.trans (congrArg (p ++ ·) hvs))
    refine ⟨p, hp, fun hp => (hstop (hnil hp)).1, fun i m hm c₂ t us h₂ ht => ?_⟩
    have hsame : y i m c₂ = y' i m c₂ := by
      cases p with
      | nil =>
          refine (hstop (hnil rfl)).2 i m c₂ ?_
          rwa [peek_eq_head h₂, hpeek]
      | cons u p => exact hy i m c₂ ((peek_eq_head h₂).trans hpeek.symm)
    obtain ⟨b₂, c₂', hb₂, hc₂'⟩ := h i m hm c₂ t us h₂ ht
    exact ⟨b₂, c₂', hsame.trans hb₂, hc₂'⟩
  refuses e c' he := by
    obtain ⟨q, t, h⟩ := h.refuses e c' (hx ▸ he)
    refine ⟨q, t, h.congr (fun i m c₂ us h₂ => ?_) fun hq i m c₂ us h₂ => ?_⟩
    · exact hy i m c₂ ((peek_eq_head h₂).trans h.peek.symm)
    · obtain ⟨u, q, rfl⟩ := List.exists_cons_of_ne_nil hq
      exact hy i m c₂ ((Cursor.peek_of_tokens h₂).trans h.peek.symm)

/-- The same where two tokens are looked at, and what `x'` refuses stands behind both of them. -/
theorem look_second {x x' : Reader β} {y y' : ι → Nat → Reader β} (h : Prompt 2 [] T x' y' n c)
    (hT : T ≠ []) (hx : x c = x' c)
    (hy : ∀ i m c₂, c₂.peek = c.peek → c₂.peekSecond.kind = c.peekSecond.kind →
      y i m c₂ = y' i m c₂)
    (hstop : Advances 2 x' c ∨
      ∀ i m c₂, c₂.peek = c.peek → c₂.peekSecond.kind ∈ T → y i m c₂ = y' i m c₂) :
    Prompt 2 [] T x y n c := by
  have hsame {u v us vs} (hc : c.tokens = u :: v :: us) (i m) {c₂ : Cursor}
      (h₂ : c₂.tokens = u :: v :: vs) : y i m c₂ = y' i m c₂ := by
    refine hy i m c₂ ((Cursor.peek_of_tokens h₂).trans (Cursor.peek_of_tokens hc).symm) ?_
    rw [Cursor.peekSecond_of_tokens h₂, Cursor.peekSecond_of_tokens hc]
  refine ⟨fun b c' hb => ?_, fun e c' he => ?_⟩
  · obtain ⟨p, hp, hnil, h⟩ := h.repeats b c' (hx ▸ hb)
    obtain ⟨vs, hvs⟩ := c'.exists_tokens_eq
    refine ⟨p, hp, hnil, fun i m hm c₂ t us h₂ ht => ?_⟩
    obtain ⟨b₂, c₂', hb₂, hc₂'⟩ := h i m hm c₂ t us h₂ ht
    refine ⟨b₂, c₂', Eq.trans ?_ hb₂, hc₂'⟩
    match p, hnil with
    | [], hnil => exact absurd (List.subset_nil.mp (hnil rfl)) hT
    | [u], _ =>
        rw [hvs] at hp
        have hfirst := (Cursor.peek_of_tokens h₂).trans (Cursor.peek_of_tokens hp).symm
        have hsecond := Cursor.peekSecond_of_tokens hp
        have hsecond₂ := Cursor.peekSecond_of_tokens h₂
        rcases List.mem_cons.mp ht with ht | ht
        · exact hy i m c₂ hfirst (by rw [hsecond, hsecond₂, ht])
        · rcases hstop with hadvances | hstop
          · have hlen := (hadvances b c' (hx ▸ hb)).length_tokens_le
            simp only [hp, hvs, List.length_append, List.length_cons, List.length_nil] at hlen
            omega
          · exact hstop i m c₂ hfirst (hsecond₂ ▸ ht)
    | u :: v :: p, _ => exact hsame hp i m h₂
  · obtain ⟨q, t, h⟩ := h.refuses e c' (hx ▸ he)
    obtain ⟨us, hc⟩ := h.stands
    match q, h.behind with
    | u :: v :: q, _ =>
        exact ⟨u :: v :: q, t, h.congr (fun i m c₂ us h₂ => hsame hc i m h₂)
          fun _ i m c₂ us h₂ => hsame hc i m h₂⟩

/-- A token that is there is read. -/
theorem next (hne : c.peek.kind ≠ .endOfInput) :
    Prompt d [] (.endOfInput :: T) next (fun (_ : ι) _ => next) n c where
  repeats a c' h := by
    cases h
    exact ⟨[c.peek], Cursor.tokens_eq_cons hne, fun h => absurd h (List.cons_ne_nil _ _),
      .next hne⟩
  refuses e c' h := by cases h

theorem next_bind_at {f : Token → Reader β} {g : ι → Nat → Token → Reader β}
    (hne : c.peek.kind ≠ .endOfInput)
    (hf : Prompt d starts₂ T (f c.peek) (fun (p : ι × Token) m => g p.1 m p.2) n c.advance)
    (hg : Satisfiable starts₂ T (fun (p : ι × Token) m => g p.1 m p.2)) :
    Prompt (d + 1) [] T (Grammar.next >>= f) (fun i m => Grammar.next >>= g i m) n c := by
  have hread (p : List Token) (hp : p = [] → .endOfInput :: starts₂ ⊆ []) :
      d + 1 ≤ p.length + d := by
    have hpos : p ≠ [] := fun hnil => absurd (hp hnil List.mem_cons_self) List.not_mem_nil
    have hlen := List.length_pos_iff.mpr hpos
    omega
  refine (Prompt.next hne).bind_of_le (fun t c' h => ?_) hg
    (List.subset_cons_self .endOfInput starts₂) (Nat.le_refl _) hread
  cases h
  exact hf

theorem peek_bind {f : Token → Reader β} {g : ι → Nat → Token → Reader β} (hT : T ≠ [])
    (h : Prompt d [] T (f c.peek) (fun i m => g i m c.peek) n c) :
    Prompt d [] T (peek >>= f) (fun i m => peek >>= g i m) n c :=
  h.look rfl (fun i m c₂ h₂ => by rw [Grammar.peek_bind, h₂]) fun hT' =>
    absurd (List.subset_nil.mp hT') hT

theorem peekKind_bind {f : TokenKind → Reader β} {g : ι → Nat → TokenKind → Reader β}
    (h : Prompt d starts₂ T (f c.peek.kind) (fun i m => g i m c.peek.kind) n c)
    (hstop : T ⊆ starts₂ → T ⊆ starts ∧ ∀ k ∈ T, ∀ i m, g i m k = g i m c.peek.kind) :
    Prompt d starts T (peekKind >>= f) (fun i m => peekKind >>= g i m) n c := by
  refine h.look (Grammar.peekKind_bind f) (fun i m c₂ h₂ => ?_) fun hT =>
    ⟨(hstop hT).1, fun i m c₂ h₂ => ?_⟩
  · rw [Grammar.peekKind_bind, h₂]
  · rw [Grammar.peekKind_bind]
    rcases List.mem_cons.mp h₂ with h₂ | h₂
    · rw [h₂]
    · rw [(hstop hT).2 _ h₂]

/-- Where something is always read, the next token is always looked at. -/
theorem peekKind_bind_busy {f : TokenKind → Reader β} {g : ι → Nat → TokenKind → Reader β}
    (h : Prompt d [] T (f c.peek.kind) (fun i m => g i m c.peek.kind) n c) :
    Prompt d [] T (peekKind >>= f) (fun i m => peekKind >>= g i m) n c :=
  h.peekKind_bind fun hT => ⟨hT, fun _ hk => absurd (hT hk) List.not_mem_nil⟩

/-- A token that may be there. -/
theorem accept_bind {k : TokenKind} {f : Bool → Reader β} {g : ι → Nat → Bool → Reader β}
    (htrue : c.peek.kind = k → Prompt d [] T (Grammar.next >>= fun _ => f true)
      (fun i m => Grammar.next >>= fun _ => g i m true) n c)
    (hfalse : Prompt d starts₂ T (f false) (fun i m => g i m false) n c)
    (hstop : T ⊆ starts₂ → T ⊆ starts ∧ k ∉ T) :
    Prompt d starts T (accept k >>= f) (fun i m => accept k >>= g i m) n c := by
  have taken {i m} {c : Cursor} (hk : c.peek.kind = k) :
      (accept k >>= g i m) c = (Grammar.next >>= fun _ => g i m true) c := by
    rw [Grammar.accept_bind, if_pos hk, Grammar.next_bind]
  have refused {i m} {c : Cursor} (hk : c.peek.kind ≠ k) :
      (accept k >>= g i m) c = g i m false c := by
    rw [Grammar.accept_bind, if_neg hk]
  by_cases hk : c.peek.kind = k
  · refine (htrue hk).look ?_ (fun i m c₂ h₂ => taken (h₂ ▸ hk)) fun hT =>
      ⟨List.Subset.trans hT (List.nil_subset starts), fun i m c₂ h₂ => ?_⟩
    · rw [Grammar.accept_bind, if_pos hk, Grammar.next_bind]
    · rw [List.subset_nil.mp hT, List.mem_singleton] at h₂
      exact taken (h₂.trans hk)
  · refine hfalse.look ?_ (fun i m c₂ h₂ => refused (h₂ ▸ hk)) fun hT =>
      ⟨(hstop hT).1, fun i m c₂ h₂ => refused fun hk₂ => ?_⟩
    · rw [Grammar.accept_bind, if_neg hk]
    · exact (List.mem_cons.mp h₂).elim (fun h => hk (h ▸ hk₂)) fun h => (hstop hT).2 (hk₂ ▸ h)

end Prompt

namespace Satisfiable

theorem look {y y' : ι → Nat → Reader β} (h : Satisfiable starts T y')
    (hy : ∀ i m c, c.peek.kind ∈ starts → y i m c = y' i m c) : Satisfiable starts T y := by
  obtain ⟨w, N, hw, hstarts, h⟩ := h
  refine ⟨w, N, hw, hstarts, fun i m hm c t us hc ht => ?_⟩
  obtain ⟨b, c', hb, hc'⟩ := h i m hm c t us hc ht
  exact ⟨b, c', (hy i m c (peek_eq_head hc ▸ hstarts t ht)).trans hb, hc'⟩

variable {k : TokenKind}

theorem peekKind_bind {g : ι → Nat → TokenKind → Reader β}
    (h : Satisfiable [k] T (fun i m => g i m k)) :
    Satisfiable [k] T (fun i m => peekKind >>= g i m) :=
  h.look fun i m c hc => by rw [Grammar.peekKind_bind, List.mem_singleton.mp hc]

theorem refuse_bind {g : ι → Nat → Bool → Reader β}
    (h : Satisfiable starts T (fun i m => g i m false)) (hk : k ∉ starts) :
    Satisfiable starts T (fun i m => accept k >>= g i m) :=
  h.look fun i m c hc => by
    have hne : c.peek.kind ≠ k := fun hpeek => hk (hpeek ▸ hc)
    rw [accept_bind, if_neg hne]

theorem take_bind {g : ι → Nat → Bool → Reader β} (hne : k ≠ .endOfInput)
    (h : Satisfiable starts₂ T (fun (p : ι × Token) m => g p.1 m true)) :
    Satisfiable [k] T (fun i m => accept k >>= g i m) := by
  have hnext : Satisfiable [k] T (fun i m => Grammar.next >>= fun _ => g i m true) :=
    .bind (.next hne) h (List.Subset.refl starts₂)
  refine hnext.look fun i m c hc => ?_
  rw [accept_bind, if_pos (List.mem_singleton.mp hc), next_bind]

end Satisfiable

/-! ## Steady readers -/

section

variable [Nonempty α] {d₁ d₂ : Nat}

theorem Steady.bind_of_le (h : Steady d₁ starts T₁ r s n c)
    (hf : ∀ a c', Steady d₂ starts₂ T (f a) (fun (p : ι × α) m => g p.1 m p.2) n c')
    (hT : starts₂ ⊆ T₁) (hd₁ : d ≤ d₁)
    (hd₂ : ∀ p : List Token, (p = [] → T₁ ⊆ starts) → d ≤ p.length + d₂) :
    Steady d starts T (r >>= f) (fun i m => s i m >>= g i m) n c := by
  have hg := (hf (Classical.ofNonempty) c).satisfiable
  exact ⟨h.toPrompt.bind_of_le (fun a c' _ => (hf a c').toPrompt) hg hT hd₁ hd₂,
    h.satisfiable.bind hg hT⟩

theorem Steady.bind (h : Steady 0 starts T₁ r s n c)
    (hf : ∀ a c', Steady 0 starts₂ T (f a) (fun (p : ι × α) m => g p.1 m p.2) n c')
    (hT : starts₂ ⊆ T₁) : Steady 0 starts T (r >>= f) (fun i m => s i m >>= g i m) n c :=
  h.bind_of_le hf hT (Nat.le_refl 0) fun _ _ => Nat.zero_le _

end

namespace Steady

theorem mono (h : Steady d starts T r s n c) (hd : d' ≤ d) : Steady d' starts T r s n c :=
  ⟨h.toPrompt.mono hd, h.satisfiable⟩

theorem of_idle (hr : ∀ c, ∃ a, r c = .ok a c) (hs : ∀ i m c, ∃ a, s i m c = .ok a c) :
    Steady d T T r s n c where
  repeats a c' h := by
    obtain ⟨a', ha'⟩ := hr c
    obtain ⟨rfl, rfl⟩ := EStateM.Result.ok.inj (h.symm.trans ha')
    exact ⟨[], rfl, fun _ => List.Subset.refl T, fun i m _ c₂ t us h₂ _ =>
      (hs i m c₂).imp fun _ hb => ⟨c₂, hb, h₂⟩⟩
  refuses e c' h := by
    obtain ⟨a, ha⟩ := hr c
    cases h.symm.trans ha
  satisfiable := .of_idle hs

theorem pure {a : α} {e : ι → Nat → α} : Steady d T T (pure a) (fun i m => pure (e i m)) n c :=
  of_idle (fun _ => ⟨a, rfl⟩) fun i m _ => ⟨e i m, rfl⟩

theorem peek : Steady d T T peek (fun (_ : ι) _ => peek) n c :=
  of_idle (fun c => ⟨c.peek, rfl⟩) fun _ _ c => ⟨c.peek, rfl⟩

theorem spanFrom {a : Span} {e : ι → Nat → Span} :
    Steady d T T (spanFrom a) (fun i m => spanFrom (e i m)) n c :=
  of_idle (fun _ => ⟨_, rfl⟩) fun _ _ _ => ⟨_, rfl⟩

theorem skipNewlines (hT : TokenKind.newline ∉ T) :
    Steady d T T skipNewlines (fun (_ : ι) _ => skipNewlines) n c where
  repeats a c' h := by
    cases h
    refine ⟨c.tokens.takeWhile (·.kind = .newline), ?_, fun _ => List.Subset.refl T,
      .newlines (fun t ht => ?_) fun hmem => ?_⟩
    · rw [Cursor.tokens_behindNewlines, List.takeWhile_append_dropWhile]
    · simpa using List.all_eq_true.mp List.all_takeWhile t ht
    · exact (List.mem_cons.mp hmem).elim (fun hk => c.kind_behindNewlines hk.symm) hT
  refuses e c' h := by cases h
  satisfiable := .skipNewlines hT

variable {k : TokenKind} {fault : GrammarFault}

theorem expect (hne : k ≠ .endOfInput) :
    Steady 0 [k] T (expect k fault) (fun (_ : ι) _ => expect k fault) n c where
  repeats a c' h := by
    unfold Grammar.expect at h
    split at h
    · rename_i hk
      cases h
      have hpeek : c.peek.kind ≠ .endOfInput := hk ▸ hne
      exact ⟨[c.peek], Cursor.tokens_eq_cons hpeek, fun h => absurd h (List.cons_ne_nil _ _),
        .expect hk hpeek⟩
    · cases h
  refuses e c' h := by
    unfold Grammar.expect at h
    split at h
    · cases h
    · rename_i hk
      cases h
      refine ⟨[], c.peek, .here (fun i m c₂ h₂ => ⟨c₂, ?_⟩) rfl rfl⟩
      rw [← h₂] at hk ⊢
      exact if_neg hk
  satisfiable := .expect hne

theorem expect_bind {f : Token → Reader β} {g : ι → Nat → Token → Reader β}
    (hne : k ≠ .endOfInput)
    (hf : ∀ t c', Steady 0 starts₂ T (f t) (fun (p : ι × Token) m => g p.1 m p.2) n c') :
    Steady 0 [k] T (Grammar.expect k fault >>= f) (fun i m => Grammar.expect k fault >>= g i m)
      n c :=
  (Steady.expect hne).bind hf (List.Subset.refl starts₂)

end Steady

/-- A token that is there, and what is steady behind it. -/
theorem Prompt.next_bind_succ {f : Token → Reader β} {g : ι → Nat → Token → Reader β}
    (hne : c.peek.kind ≠ .endOfInput)
    (hf : ∀ t c', Steady d starts₂ T (f t) (fun (p : ι × Token) m => g p.1 m p.2) n c') :
    Prompt (d + 1) [] T (Grammar.next >>= f) (fun i m => Grammar.next >>= g i m) n c :=
  .next_bind_at hne (hf _ _).toPrompt (hf default c).satisfiable

theorem Prompt.next_bind {f : Token → Reader β} {g : ι → Nat → Token → Reader β}
    (hne : c.peek.kind ≠ .endOfInput)
    (hf : ∀ t c', Steady 0 starts₂ T (f t) (fun (p : ι × Token) m => g p.1 m p.2) n c') :
    Prompt 0 [] T (Grammar.next >>= f) (fun i m => Grammar.next >>= g i m) n c :=
  (next_bind_succ hne hf).mono (Nat.zero_le 1)

/-- A token that may be there, and is not where this is completed. -/
theorem Steady.accept_bind {k : TokenKind} {f : Bool → Reader β} {g : ι → Nat → Bool → Reader β}
    (hd : d ≤ 1) (hne : k ≠ .endOfInput) (hT : k ∉ T) (hs : k ∉ starts)
    (htrue : ∀ c', Steady 0 starts₂ T (f true) (fun (p : ι × Token) m => g p.1 m true) n c')
    (hfalse : Steady d starts T (f false) (fun i m => g i m false) n c) :
    Steady d starts T (accept k >>= f) (fun i m => accept k >>= g i m) n c := by
  refine ⟨.accept_bind (fun hk => .mono ?_ hd) hfalse.toPrompt fun h => ⟨h, hT⟩,
    hfalse.satisfiable.refuse_bind hs⟩
  exact .next_bind_succ (hk ▸ hne) fun _ c' => htrue c'

section

variable {p : TokenKind → Prop} [DecidablePred p] {x y : Reader β} {x' y' : ι → Nat → Reader β}

/-- What goes on unless the next token stops it, as all do where this is completed. -/
theorem Steady.peekKind_ite (hT : ∀ k ∈ T, p k) (hx : Steady d T T x x' n c)
    (hy : ¬ p c.peek.kind → Prompt d [] T y y' n c) :
    Steady d T T (peekKind >>= fun k => if p k then x else y)
      (fun i m => peekKind >>= fun k => if p k then x' i m else y' i m) n c where
  toPrompt := by
    by_cases hp : p c.peek.kind
    · have hx := hx.toPrompt
      refine Prompt.peekKind_bind (by simpa only [if_pos hp] using hx) fun h =>
        ⟨h, fun k hk i m => ?_⟩
      rw [if_pos (hT k hk), if_pos hp]
    · exact .widen (.peekKind_bind_busy (by simpa only [if_neg hp] using hy hp))
  satisfiable := hx.satisfiable.look fun i m c hc => by
    rw [Grammar.peekKind_bind, if_pos (hT _ hc)]

/-- What goes on if the next token is one for it, as none is where this is completed. -/
theorem Steady.peekKind_ite_not (hT : ∀ k ∈ T, ¬ p k) (hx : p c.peek.kind → Prompt d [] T x x' n c)
    (hy : Steady d T T y y' n c) :
    Steady d T T (peekKind >>= fun k => if p k then x else y)
      (fun i m => peekKind >>= fun k => if p k then x' i m else y' i m) n c := by
  have hswap := Steady.peekKind_ite (p := fun k => ¬ p k) hT hy fun h => hx (Decidable.not_not.mp h)
  simpa only [ite_not] using hswap

end

end Grammar

end BasicScript
