import BasicScript.Proofs.Grammar.Progress

/-! # Reading with the rest cut off

What is read up to a token is read in the same way when the tokens from there on are missing, and
with more fuel. Only what looks for a closing token, or where a block begins, needs the next token
too. -/

namespace BasicScript

namespace Cursor

variable {c c' : Cursor} {k : Nat}

/-- The same place in the tokens without the last `k`. -/
def cut (k : Nat) (c : Cursor) : Cursor :=
  { c with rest := c.rest.take (c.rest.length - k) }

theorem cut_zero (c : Cursor) : c.cut 0 = c := by
  simp [cut]

theorem rest_cut_of_le (h : c.rest.length ≤ k) : (c.cut k).rest = [] := by
  simp [cut, Nat.sub_eq_zero_of_le h]

theorem rest_cut_cons {t : Token} {r : List Token} (hr : c.rest = t :: r) (h : k < c.rest.length) :
    (c.cut k).rest = t :: r.take (r.length - k) := by
  rw [hr, List.length_cons] at h
  simp only [cut, hr, List.length_cons]
  rw [show r.length + 1 - k = r.length - k + 1 by omega, List.take_succ_cons]

theorem peek_cut (h : k < c.rest.length) : (c.cut k).peek = c.peek := by
  obtain ⟨t, r, hr⟩ := List.exists_cons_of_length_pos (Nat.zero_lt_of_lt h)
  rw [peek_of_rest_cons (rest_cut_cons hr h), peek_of_rest_cons hr]

theorem kind_cut_of_le (h : c.rest.length ≤ k) : (c.cut k).peek.kind = .endOfInput :=
  kind_of_rest_nil (rest_cut_of_le h)

/-- A cut cursor is in front of the same kind of token or has reached the cut. -/
theorem kind_cut (k : Nat) (c : Cursor) :
    (c.cut k).peek.kind = c.peek.kind ∨ (c.cut k).peek.kind = .endOfInput := by
  rcases Nat.lt_or_ge k c.rest.length with h | h
  · exact .inl (by rw [peek_cut h])
  · exact .inr (kind_cut_of_le h)

theorem advance_cut (h : k ≤ c.advance.rest.length) : (c.cut k).advance = c.advance.cut k := by
  cases hr : c.rest with
  | nil =>
      have hcut : (c.cut k).rest = [] := by simp [cut, hr]
      rw [advance_of_rest_nil hcut, advance_of_rest_nil hr]
  | cons t r =>
      rw [advance_of_rest_cons hr] at h ⊢
      have hlt : k < c.rest.length := by
        rw [hr, List.length_cons]
        exact Nat.lt_succ_of_le h
      rw [advance_of_rest_cons (rest_cut_cons hr hlt)]
      rfl

/-- The token behind the next one is of the same kind, or it is cut off. -/
theorem kind_second_cut (h : k < c.rest.length) :
    (c.cut k).peekSecond.kind = c.peekSecond.kind ∨
      (c.cut k).peekSecond.kind = .endOfInput := by
  obtain ⟨t, r, hr⟩ := List.exists_cons_of_length_pos (Nat.zero_lt_of_lt h)
  have hadvance : k ≤ c.advance.rest.length := by
    rw [hr, List.length_cons] at h
    rw [advance_of_rest_cons hr]
    exact Nat.le_of_lt_succ h
  rw [peekSecond_eq (c := c) (by simp [hr]),
    peekSecond_eq (by rw [rest_cut_cons hr h]; exact List.cons_ne_nil _ _),
    advance_cut hadvance]
  exact kind_cut k c.advance

theorem peekSecond_cut (h : k + 1 < c.rest.length) : (c.cut k).peekSecond = c.peekSecond := by
  obtain ⟨t, r, hr⟩ := List.exists_cons_of_length_pos (Nat.zero_lt_of_lt h)
  have hlt : k < c.advance.rest.length := by
    rw [hr, List.length_cons] at h
    rw [advance_of_rest_cons hr]
    exact Nat.lt_of_succ_lt_succ h
  rw [peekSecond_eq (c := c) (by simp [hr]),
    peekSecond_eq (by rw [rest_cut_cons hr (by omega)]; exact List.cons_ne_nil _ _),
    advance_cut (Nat.le_of_lt hlt), peek_cut hlt]

theorem behindNewlines_cut (h : k ≤ c.behindNewlines.rest.length) :
    (c.cut k).behindNewlines = c.behindNewlines.cut k := by
  induction hlen : c.rest.length using Nat.strongRecOn generalizing c with
  | _ m ih =>
      by_cases hk : c.peek.kind = .newline
      · have hlt := (Reaches.advance_of_kind (c := c) (by simp [hk])).length_le
        rw [← behindNewlines_advance hk] at h ⊢
        have hle : c.advance.behindNewlines.rest.length ≤ c.advance.rest.length := by
          rw [rest_behindNewlines]
          exact (List.dropWhile_suffix _).length_le
        have hnewline : (c.cut k).peek.kind = .newline := by
          rw [peek_cut (by omega), hk]
        rw [← behindNewlines_advance hnewline, advance_cut (by omega)]
        exact ih _ (by omega) h rfl
      · have hnot : (c.cut k).peek.kind ≠ .newline := by
          rcases kind_cut k c with hcut | hcut
          · rwa [hcut]
          · rw [hcut]
            decide
        rw [behindNewlines_of_kind_ne hk, behindNewlines_of_kind_ne hnot]

end Cursor

namespace Grammar

variable {α β : Type} {c : Cursor} {d e k : Nat}

/-- What `r` reads at `c`, `r'` reads without the last `k` tokens, unless fewer than `d` of the
tokens that follow are left. -/
def Cut (d k : Nat) (r r' : Reader α) (c : Cursor) : Prop :=
  ∀ a c', r c = .ok a c' →
    c.Reaches 0 c' ∧ (k + d ≤ c'.rest.length → r' (c.cut k) = .ok a (c'.cut k))

namespace Cut

variable {r r' : Reader α} {f f' : α → Reader β}

theorem mono (h : Cut d k r r' c) (hd : d ≤ e) : Cut e k r r' c :=
  fun a c' hr => ⟨(h a c' hr).1, fun hlen => (h a c' hr).2 (by omega)⟩

theorem pure (a : α) : Cut d k (pure a) (pure a) c := by
  rintro _ _ ⟨⟩
  exact ⟨.refl c, fun _ => rfl⟩

theorem throw (e : Stop) : Cut d k (throw e) r' c := by
  rintro _ _ ⟨⟩

theorem fail (g : GrammarFault) : Cut d k (fail g) r' c := by
  rintro _ _ ⟨⟩

theorem failAt (g : GrammarFault) (s : Span) : Cut d k (failAt g s) r' c := by
  rintro _ _ ⟨⟩

/-- What the first step needs of the tokens that follow, the second one reads or needs too. -/
theorem bind_of_advances (h : Cut d k r r' c) (hadv : ∀ a c₁, Advances d (f a) c₁)
    (hf : ∀ a c₁, Cut e k (f a) (f' a) c₁) : Cut e k (r >>= f) (r' >>= f') c := by
  intro b c₂ hb
  obtain ⟨a, c₁, ha, hb⟩ := ok_of_bind hb
  obtain ⟨hreach, hcut⟩ := h a c₁ ha
  obtain ⟨hreach', hcut'⟩ := hf a c₁ b c₂ hb
  have hlen := (hadv a c₁ b c₂ hb).length_le
  refine ⟨hreach.trans hreach', fun hk => ?_⟩
  rw [bind_of_ok (hcut (by omega))]
  exact hcut' hk

theorem bind (h : Cut 0 k r r' c) (hf : ∀ a c₁, Cut e k (f a) (f' a) c₁) :
    Cut e k (r >>= f) (r' >>= f') c :=
  h.bind_of_advances (fun a c₁ b c₂ hb => (hf a c₁ b c₂ hb).1) hf

/-- A reader that consumes or needs a token looks at the same token. -/
theorem peek_at {f g : Token → Reader β} (hadv : Advances d (Grammar.peek >>= f) c)
    (hpos : 1 ≤ d + e) (h : Cut e k (f c.peek) (g c.peek) c) :
    Cut e k (Grammar.peek >>= f) (Grammar.peek >>= g) c := by
  intro b c' hb
  have hlen := (hadv b c' hb).length_le
  refine ⟨(h b c' hb).1, fun hk => ?_⟩
  rw [peek_bind, Cursor.peek_cut (by omega)]
  exact (h b c' hb).2 hk

theorem peekKind_at {f f' : TokenKind → Reader β} (hadv : Advances d (Grammar.peekKind >>= f) c)
    (hpos : 1 ≤ d + e) (h : Cut e k (f c.peek.kind) (f' c.peek.kind) c) :
    Cut e k (Grammar.peekKind >>= f) (Grammar.peekKind >>= f') c :=
  peek_at (f := fun t => f t.kind) (g := fun t => f' t.kind) hadv hpos h

/-- What is done at the end of the tokens may also be done where they are cut. -/
theorem peekKind_of_end {f f' : TokenKind → Reader β}
    (h : Cut e k (f c.peek.kind) (f' c.peek.kind) c)
    (hend : Cut e k (f c.peek.kind) (f' .endOfInput) c) :
    Cut e k (Grammar.peekKind >>= f) (Grammar.peekKind >>= f') c := by
  intro b c' hb
  rw [peekKind_bind] at hb
  refine ⟨(h b c' hb).1, fun hk => ?_⟩
  rw [peekKind_bind]
  rcases Cursor.kind_cut k c with hcut | hcut
  · rw [hcut]
    exact (h b c' hb).2 hk
  · rw [hcut]
    exact (hend b c' hb).2 hk

/-- A choice between reading on and what is done at the end of the tokens. -/
theorem peekKind_ite {p : TokenKind → Prop} [DecidablePred p] {r₁ r₁' r₂ r₂' : Reader β}
    (hend : ¬ p .endOfInput) (hadv : p c.peek.kind → Advances 1 r₁ c)
    (h₁ : Cut e k r₁ r₁' c) (h₂ : Cut e k r₂ r₂' c) :
    Cut e k (Grammar.peekKind >>= fun kind => if p kind then r₁ else r₂)
      (Grammar.peekKind >>= fun kind => if p kind then r₁' else r₂') c := by
  by_cases hp : p c.peek.kind
  · refine peekKind_at (d := 1) ?_ (by omega) ?_
    · refine .peekKind_at ?_
      rw [if_pos hp]
      exact hadv hp
    · rwa [if_pos hp, if_pos hp]
  · refine peekKind_of_end ?_ ?_
    · rwa [if_neg hp, if_neg hp]
    · rwa [if_neg hp, if_neg hend]

/-- A choice between what is done at the end of the tokens and reading on. -/
theorem peekKind_ite_end {p : TokenKind → Prop} [DecidablePred p] {r₁ r₁' r₂ r₂' : Reader β}
    (hend : p .endOfInput) (hadv : Advances 1 r₂ c) (h₁ : Cut e k r₁ r₁' c)
    (h₂ : Cut e k r₂ r₂' c) :
    Cut e k (Grammar.peekKind >>= fun kind => if p kind then r₁ else r₂)
      (Grammar.peekKind >>= fun kind => if p kind then r₁' else r₂') c := by
  by_cases hp : p c.peek.kind
  · refine peekKind_of_end ?_ ?_
    · rwa [if_pos hp, if_pos hp]
    · rwa [if_pos hp, if_pos hend]
  · refine peekKind_at (d := 1) ?_ (by omega) ?_
    · refine .peekKind_at ?_
      rwa [if_neg hp]
    · rwa [if_neg hp, if_neg hp]

theorem next_bind {f f' : Token → Reader β} (h : Cut e k (f c.peek) (f' c.peek) c.advance) :
    Cut e k (Grammar.next >>= f) (Grammar.next >>= f') c := by
  intro b c' hb
  rw [Grammar.next_bind] at hb
  obtain ⟨hreach, hcut⟩ := h b c' hb
  refine ⟨(Cursor.Reaches.advance c).trans hreach, fun hk => ?_⟩
  have hlen := hreach.length_le
  rw [Grammar.next_bind, Cursor.advance_cut (by omega)]
  rcases Nat.lt_or_ge k c.rest.length with hlt | hge
  · rw [Cursor.peek_cut hlt]
    exact hcut hk
  · -- nothing is cut off, as there is nothing left
    have hnil : c.rest = [] := by
      cases hr : c.rest with
      | nil => rfl
      | cons t r =>
          rw [Cursor.advance_of_rest_cons hr] at hlen
          simp only [hr, List.length_cons] at hge hlen
          omega
    have hpeek : (c.cut k).peek = c.peek := by simp [Cursor.peek, Cursor.cut, hnil]
    rw [hpeek]
    exact hcut hk

/-- What follows a token of a certain kind. -/
theorem advance_of_kind (hk : c.peek.kind ≠ .endOfInput) (h : Cut e k r r' c.advance) {a : α}
    {c' : Cursor} (hr : r c.advance = .ok a c') :
    c.Reaches 0 c' ∧ (k + e ≤ c'.rest.length →
      (c.cut k).peek = c.peek ∧ r' (c.cut k).advance = .ok a (c'.cut k)) := by
  obtain ⟨hreach, hcut⟩ := h a c' hr
  have hone := Cursor.Reaches.advance_of_kind hk
  refine ⟨(hone.trans hreach).mono (Nat.zero_le _), fun hlen => ?_⟩
  have hle := hreach.length_le
  have hlt := hone.length_le
  rw [Cursor.advance_cut (by omega)]
  exact ⟨Cursor.peek_cut (by omega), hcut hlen⟩

theorem expect_bind {f f' : Token → Reader β} {kind : TokenKind} {fault : GrammarFault}
    (hkind : kind ≠ .endOfInput) (h : Cut e k (f c.peek) (f' c.peek) c.advance) :
    Cut e k (expect kind fault >>= f) (expect kind fault >>= f') c := by
  intro b c' hb
  rw [Grammar.expect_bind] at hb
  split at hb
  · rename_i hk
    obtain ⟨hreach, hcut⟩ := advance_of_kind (hk ▸ hkind) h hb
    refine ⟨hreach, fun hlen => ?_⟩
    obtain ⟨hpeek, hb'⟩ := hcut hlen
    rwa [Grammar.expect_bind, hpeek, if_pos hk]
  · cases hb

theorem accept_bind {f f' : Bool → Reader β} {kind : TokenKind} (hkind : kind ≠ .endOfInput)
    (htrue : Cut e k (f true) (f' true) c.advance) (hfalse : Cut e k (f false) (f' false) c) :
    Cut e k (accept kind >>= f) (accept kind >>= f') c := by
  intro b c' hb
  rw [Grammar.accept_bind] at hb
  split at hb
  · rename_i hk
    obtain ⟨hreach, hcut⟩ := advance_of_kind (hk ▸ hkind) htrue hb
    refine ⟨hreach, fun hlen => ?_⟩
    obtain ⟨hpeek, hb'⟩ := hcut hlen
    rwa [Grammar.accept_bind, hpeek, if_pos hk]
  · rename_i hk
    refine ⟨(hfalse b c' hb).1, fun hlen => ?_⟩
    have hnot : (c.cut k).peek.kind ≠ kind := by
      rcases Cursor.kind_cut k c with hcut | hcut
      · rwa [hcut]
      · rw [hcut]
        exact hkind.symm
    rw [Grammar.accept_bind, if_neg hnot]
    exact (hfalse b c' hb).2 hlen

theorem skipNewlines_bind {f f' : Unit → Reader β}
    (h : Cut e k (f ()) (f' ()) c.behindNewlines) :
    Cut e k (skipNewlines >>= f) (skipNewlines >>= f') c := by
  intro b c' hb
  rw [Grammar.skipNewlines_bind] at hb
  obtain ⟨hreach, hcut⟩ := h b c' hb
  refine ⟨(Advances.skipNewlines () _ rfl).trans hreach, fun hlen => ?_⟩
  have hle := hreach.length_le
  rw [Grammar.skipNewlines_bind, Cursor.behindNewlines_cut (by omega)]
  exact hcut hlen

theorem spanFrom_bind {s : Span} {f f' : Span → Reader β}
    (h : Cut e k (f (s.through c.before)) (f' (s.through c.before)) c) :
    Cut e k (spanFrom s >>= f) (spanFrom s >>= f') c :=
  h

end Cut

/-- What each function of the grammar, with fuel `n`, needs of the tokens that follow. -/
structure Cutting (k n : Nat) : Prop where
  statements : ∀ {m}, n ≤ m → ∀ c, Cut 1 k (statements n) (statements m) c
  statementsLoop : ∀ {m}, n ≤ m → ∀ done c,
    Cut 0 k (statementsLoop n done) (statementsLoop m done) c
  statement : ∀ {m}, n ≤ m → ∀ c, Cut 0 k (statement n) (statement m) c
  expression : ∀ {m}, n ≤ m → ∀ c, Cut 0 k (expression n) (expression m) c
  declaration : ∀ {m}, n ≤ m → ∀ tag c, Cut 0 k (declaration n tag) (declaration m tag) c
  annotated : ∀ {m}, n ≤ m → ∀ c, Cut 0 k (annotated n) (annotated m) c
  chain : ∀ {m}, n ≤ m → ∀ level c, Cut 0 k (chain n level) (chain m level) c
  chainLoop : ∀ {m}, n ≤ m → ∀ level left c,
    Cut 0 k (chainLoop n level left) (chainLoop m level left) c
  operand : ∀ {m}, n ≤ m → ∀ level c, Cut 0 k (operand n level) (operand m level) c
  factor : ∀ {m}, n ≤ m → ∀ c, Cut 0 k (factor n) (factor m) c
  powerLoop : ∀ {m}, n ≤ m → ∀ base c, Cut 0 k (powerLoop n base) (powerLoop m base) c
  call : ∀ {m}, n ≤ m → ∀ c, Cut 0 k (call n) (call m) c
  callLoop : ∀ {m}, n ≤ m → ∀ callee c, Cut 0 k (callLoop n callee) (callLoop m callee) c
  items : ∀ {m}, n ≤ m → ∀ close c, Cut 1 k (items n close) (items m close) c
  itemsLoop : ∀ {m}, n ≤ m → ∀ done c, Cut 0 k (itemsLoop n done) (itemsLoop m done) c
  atom : ∀ {m}, n ≤ m → ∀ c, Cut 0 k (atom n) (atom m) c
  choice : ∀ {m}, n ≤ m → ∀ c, Cut 0 k (choice n) (choice m) c
  armsLoop : ∀ {m}, n ≤ m → ∀ done c, Cut 0 k (armsLoop n done) (armsLoop m done) c
  moreArms : ∀ {m}, n ≤ m → ∀ done c, Cut 0 k (moreArms n done) (moreArms m done) c
  branch : ∀ {m}, n ≤ m → ∀ c, Cut 0 k (branch n) (branch m) c
  forLoop : ∀ {m}, n ≤ m → ∀ c, Cut 0 k (forLoop n) (forLoop m) c
  whileLoop : ∀ {m}, n ≤ m → ∀ c, Cut 0 k (whileLoop n) (whileLoop m) c
  function : ∀ {m}, n ≤ m → ∀ c, Cut 0 k (function n) (function m) c

theorem cutting_zero (k : Nat) : Cutting k 0 := by
  constructor <;> intros <;> exact .throw _

variable {n m : Nat}

theorem statements_cut (ih : Cutting k n) (hm : n ≤ m) (c : Cursor) :
    Cut 1 k (statements (n + 1)) (statements (m + 1)) c := by
  have hadv := statements_advances (progress n) c
  unfold statements at hadv ⊢
  exact .peek_at hadv (by decide) (.bind (ih.statementsLoop hm [] c) fun _ _ => .pure _)

theorem statementsLoop_cut (ih : Cutting k n) (hm : n ≤ m) (done : List Node) (c : Cursor) :
    Cut 0 k (statementsLoop (n + 1) done) (statementsLoop (m + 1) done) c := by
  unfold statementsLoop
  refine .skipNewlines_bind (.peekKind_ite_end rfl ?_ (.pure _)
    (.bind (ih.statement hm _) fun line c => .peekKind_ite (by decide)
      (fun hk => statementsLoop_advances_of_newline (line :: done) hk)
      (ih.statementsLoop hm _ c) (.pure _)))
  refine .bind_first ((progress n).statement _) fun line c => .bind .peekKind fun kind c => ?_
  split
  · exact (progress n).statementsLoop _ c
  · exact .pure _

theorem statement_cut (ih : Cutting k n) (hm : n ≤ m) (c : Cursor) :
    Cut 0 k (statement (n + 1)) (statement (m + 1)) c := by
  have hadv := statement_advances (progress n) c
  unfold statement at hadv ⊢
  refine .peekKind_at hadv (by decide) ?_
  split
  · exact .next_bind (.peekKind_ite (by decide) (fun _ => .bind_first ((progress n).expression _)
      fun _ _ => .pure _) (.bind (ih.expression hm _) fun _ _ => .pure _) (.pure _))
  · exact .next_bind (.pure _)
  · exact .next_bind (.pure _)
  · exact ih.expression hm c

/-- A declaration that starts with its name goes on behind it. -/
theorem annotated_advances_two (hk : c.peek.kind ≠ .endOfInput) : Advances 2 (annotated n) c := by
  cases n with
  | zero => exact .throw _
  | succ n =>
      unfold annotated
      refine .bind_both (d := 1) (e := 1) (.next_of_kind hk) fun _ c =>
        .bind .next fun _ c => .bind .next fun word c => ?_
      split
      · exact .failAt _ _
      · exact .bind (.expect _ (by decide)) fun _ c =>
          .bind_first ((progress n).expression c) fun _ _ => .pure _

theorem expression_cut (ih : Cutting k n) (hm : n ≤ m) (c : Cursor) :
    Cut 0 k (expression (n + 1)) (expression (m + 1)) c := by
  have hadv := expression_advances (progress n) c
  unfold expression at hadv ⊢
  refine .peekKind_at hadv (by decide) ?_
  split
  · exact ih.declaration hm _ c
  · intro x c' hx
    rw [get_bind] at hx
    by_cases hname : c.peek.kind = .identifier ∧ c.peekSecond.kind = .colon
    · -- the colon is read, so it is not cut off
      rw [if_pos hname] at hx
      have hlen := (annotated_advances_two (by simp [hname.1]) x c' hx).length_le
      obtain ⟨hreach, hcut⟩ := ih.annotated hm c x c' hx
      refine ⟨hreach, fun hk => ?_⟩
      rw [get_bind, Cursor.peekSecond_cut (by omega), if_pos hname]
      exact hcut hk
    · rw [if_neg hname] at hx
      have hlen := ((progress n).chain .logic c x c' hx).length_le
      obtain ⟨hreach, hcut⟩ := ih.chain hm .logic c x c' hx
      refine ⟨hreach, fun hk => ?_⟩
      have hnot : ¬(c.peek.kind = .identifier ∧ (c.cut k).peekSecond.kind = .colon) := by
        rintro ⟨hident, hcolon⟩
        rcases Cursor.kind_second_cut (c := c) (k := k) (by omega) with h | h
        · exact hname ⟨hident, h ▸ hcolon⟩
        · exact absurd (h.symm.trans hcolon) (by decide)
      rw [get_bind, if_neg hnot]
      exact hcut hk

theorem declaration_cut (ih : Cutting k n) (hm : n ≤ m) (tag : Tag) (c : Cursor) :
    Cut 0 k (declaration (n + 1) tag) (declaration (m + 1) tag) c := by
  unfold declaration
  exact .next_bind (.expect_bind (by decide) (.expect_bind (by decide)
    (.bind (ih.expression hm _) fun _ _ => .pure _)))

theorem annotated_cut (ih : Cutting k n) (hm : n ≤ m) (c : Cursor) :
    Cut 0 k (annotated (n + 1)) (annotated (m + 1)) c := by
  unfold annotated
  refine .next_bind (.next_bind (.next_bind ?_))
  split
  · exact .failAt _ _
  · exact .expect_bind (by decide) (.bind (ih.expression hm _) fun _ _ => .pure _)

theorem chain_cut (ih : Cutting k n) (hm : n ≤ m) (level : Level) (c : Cursor) :
    Cut 0 k (chain (n + 1) level) (chain (m + 1) level) c := by
  unfold chain
  refine .peekKind_ite (p := fun kind => level = .comparison ∧ kind = .not)
    (by simp) (fun hk => ?_) ?_ ?_
  · exact .bind_first (.next_of_kind (by simp [hk.2])) fun _ c =>
      .bind (((progress n).chain _ c).mono (Nat.zero_le 1)) fun _ _ => .pure _
  · exact .next_bind (.bind (ih.chain hm _ _) fun _ _ => .pure _)
  · exact .bind (ih.operand hm level c) fun left c => ih.chainLoop hm level left c

theorem chainLoop_cut (ih : Cutting k n) (hm : n ≤ m) (level : Level) (left : Node) (c : Cursor) :
    Cut 0 k (chainLoop (n + 1) level left) (chainLoop (m + 1) level left) c := by
  unfold chainLoop
  cases hop : level.operator? c.peek.kind with
  | none =>
      refine .peekKind_of_end ?_ ?_
      · simp only [hop]
        exact .pure _
      · have hend : level.operator? .endOfInput = none := by cases level <;> rfl
        simp only [hop, hend]
        exact .pure _
  | some op =>
      have hk : c.peek.kind ≠ .endOfInput := by
        intro hk
        rw [hk] at hop
        cases level <;> cases hop
      refine .peekKind_at (d := 1) (.peekKind_at ?_) (by decide) ?_ <;> simp only [hop]
      · exact .bind_first (.next_of_kind hk) fun _ c =>
          .bind (((progress n).operand level c).mono (Nat.zero_le 1)) fun _ c =>
            (progress n).chainLoop level _ c
      · exact .next_bind (.bind (ih.operand hm level _) fun right c => ih.chainLoop hm level _ c)

theorem operand_cut (ih : Cutting k n) (hm : n ≤ m) (level : Level) (c : Cursor) :
    Cut 0 k (operand (n + 1) level) (operand (m + 1) level) c := by
  unfold operand
  split
  · exact ih.chain hm _ c
  · exact ih.factor hm c

theorem factor_cut (ih : Cutting k n) (hm : n ≤ m) (c : Cursor) :
    Cut 0 k (factor (n + 1)) (factor (m + 1)) c := by
  unfold factor
  refine .peekKind_ite (by decide) (fun hk => ?_) ?_ ?_
  · exact .bind_first (.next_of_kind (by simp [hk])) fun _ c =>
      .bind (((progress n).factor c).mono (Nat.zero_le 1)) fun _ _ => .pure _
  · exact .next_bind (.bind (ih.factor hm _) fun _ _ => .pure _)
  · exact .bind (ih.call hm c) fun base c => ih.powerLoop hm base c

theorem powerLoop_cut (ih : Cutting k n) (hm : n ≤ m) (base : Node) (c : Cursor) :
    Cut 0 k (powerLoop (n + 1) base) (powerLoop (m + 1) base) c := by
  unfold powerLoop
  exact .accept_bind (by decide)
    (.bind (ih.factor hm _) fun exponent c => ih.powerLoop hm _ c) (.pure _)

theorem call_cut (ih : Cutting k n) (hm : n ≤ m) (c : Cursor) :
    Cut 0 k (call (n + 1)) (call (m + 1)) c := by
  unfold call
  exact .bind (ih.atom hm c) fun callee c => ih.callLoop hm callee c

theorem callLoop_cut (ih : Cutting k n) (hm : n ≤ m) (callee : Node) (c : Cursor) :
    Cut 0 k (callLoop (n + 1) callee) (callLoop (m + 1) callee) c := by
  unfold callLoop
  refine .accept_bind (by decide) (.bind_of_advances (ih.items hm _ _) (fun args c => ?_)
    fun args c => .expect_bind (by decide) (ih.callLoop hm _ _)) (.pure _)
  exact .bind_first (.expect _ (by decide)) fun close c => (progress n).callLoop _ c

theorem items_cut (ih : Cutting k n) (hm : n ≤ m) (close : TokenKind) (c : Cursor) :
    Cut 1 k (items (n + 1) close) (items (m + 1) close) c := by
  have hadv := items_advances (progress n) close c
  unfold items at hadv ⊢
  refine .peekKind_at hadv (by decide) ?_
  split
  · exact .pure _
  · exact (ih.itemsLoop hm [] c).mono (Nat.zero_le 1)

theorem itemsLoop_cut (ih : Cutting k n) (hm : n ≤ m) (done : List Node) (c : Cursor) :
    Cut 0 k (itemsLoop (n + 1) done) (itemsLoop (m + 1) done) c := by
  unfold itemsLoop
  exact .bind (ih.expression hm c) fun item c =>
    .accept_bind (by decide) (ih.itemsLoop hm _ _) (.pure _)

theorem atom_cut (ih : Cutting k n) (hm : n ≤ m) (c : Cursor) :
    Cut 0 k (atom (n + 1)) (atom (m + 1)) c := by
  have hadv := atom_advances (progress n) c
  unfold atom at hadv ⊢
  refine .peek_at hadv (by decide) ?_
  split
  iterate 2
    refine .next_bind ?_
    split
    · exact .pure _
    · exact .failAt _ _
  · exact .next_bind (.pure _)
  · exact .next_bind (.pure _)
  · exact .next_bind (.bind (ih.expression hm _) fun _ c => .expect_bind (by decide) (.pure _))
  · exact .next_bind (.bind_of_advances (ih.items hm _ _)
      (fun _ c => .bind_first (.expect _ (by decide)) fun _ _ => .pure _)
      fun _ c => .expect_bind (by decide) (.pure _))
  · exact ih.choice hm c
  · exact ih.forLoop hm c
  · exact ih.whileLoop hm c
  · exact ih.function hm c
  · exact .fail _

theorem choice_cut (ih : Cutting k n) (hm : n ≤ m) (c : Cursor) :
    Cut 0 k (choice (n + 1)) (choice (m + 1)) c := by
  unfold choice
  exact .next_bind (.bind (ih.armsLoop hm [] _) fun _ c => .spanFrom_bind (.pure _))

/-- Behind the block of an arm another clause is read, -/
theorem moreBehindBlock_advances (done : List (Arm Node)) (c : Cursor) :
    Advances 1 (peekKind >>= fun kind =>
      match kind with
      | .elifWord | .elseWord => moreArms n done
      | _ => fail .armEnd) c := by
  refine .peekKind_at ?_
  split
  · rename_i hk
    exact moreArms_advances_of_kind _ (.inl hk)
  · rename_i hk
    exact moreArms_advances_of_kind _ (.inr hk)
  · exact .fail _

/-- or the `END`. -/
theorem behindBlock_advances (done : List (Arm Node)) (c : Cursor) :
    Advances 1 (accept .endWord >>= fun ended =>
      if ended then pure (done.reverse, none) else peekKind >>= fun kind =>
        match kind with
        | .elifWord | .elseWord => moreArms n done
        | _ => fail .armEnd) c := by
  by_cases hk : c.peek.kind = .endWord
  · exact .accept_bind_of_eq hk (by decide) fun c => .pure _
  · exact .accept_bind_of_ne hk (moreBehindBlock_advances done c)

theorem armsLoop_cut (ih : Cutting k n) (hm : n ≤ m) (done : List (Arm Node)) (c : Cursor) :
    Cut 0 k (armsLoop (n + 1) done) (armsLoop (m + 1) done) c := by
  unfold armsLoop
  refine .bind (ih.expression hm c) fun condition c => .expect_bind (by decide)
    (.accept_bind (by decide) (.bind_of_advances (ih.statements hm _)
      (fun body c => behindBlock_advances _ c) fun body c => ?_)
      (.bind (ih.statement hm _) fun body c => ih.moreArms hm _ c))
  refine .accept_bind (by decide) (.pure _)
    (.peekKind_at (d := 1) (moreBehindBlock_advances _ c) (by decide) ?_)
  split
  · exact ih.moreArms hm _ c
  · exact ih.moreArms hm _ c
  · exact .fail _

theorem moreArms_cut (ih : Cutting k n) (hm : n ≤ m) (done : List (Arm Node)) (c : Cursor) :
    Cut 0 k (moreArms (n + 1) done) (moreArms (m + 1) done) c := by
  unfold moreArms
  exact .accept_bind (by decide) (ih.armsLoop hm done _) (.accept_bind (by decide)
    (.bind (ih.branch hm _) fun _ _ => .pure _) (.pure _))

theorem branch_cut (ih : Cutting k n) (hm : n ≤ m) (c : Cursor) :
    Cut 0 k (branch (n + 1)) (branch (m + 1)) c := by
  unfold branch
  exact .accept_bind (by decide) (.bind_of_advances (ih.statements hm _)
    (fun _ c => .bind_first (.expect _ (by decide)) fun _ _ => .pure _)
    fun _ c => .expect_bind (by decide) (.pure _)) (.bind (ih.statement hm c) fun _ _ => .pure _)

theorem forLoop_cut (ih : Cutting k n) (hm : n ≤ m) (c : Cursor) :
    Cut 0 k (forLoop (n + 1)) (forLoop (m + 1)) c := by
  unfold forLoop
  refine .next_bind (.expect_bind (by decide) (.expect_bind (by decide)
    (.bind (ih.expression hm _) fun first c => .expect_bind (by decide)
      (.bind (ih.expression hm _) fun last c => .bind ?_ fun step c => .expect_bind (by decide)
        (.bind (ih.branch hm _) fun body c => .spanFrom_bind (.pure _))))))
  exact .accept_bind (by decide) (.bind (ih.expression hm _) fun _ _ => .pure _) (.pure _)

theorem whileLoop_cut (ih : Cutting k n) (hm : n ≤ m) (c : Cursor) :
    Cut 0 k (whileLoop (n + 1)) (whileLoop (m + 1)) c := by
  unfold whileLoop
  exact .next_bind (.bind (ih.expression hm _) fun condition c => .expect_bind (by decide)
    (.bind (ih.branch hm _) fun body c => .spanFrom_bind (.pure _)))

theorem paramsLoop_cut (hm : n ≤ m) (done : List String) (c : Cursor) :
    Cut 0 k (paramsLoop done n) (paramsLoop done m) c := by
  induction n generalizing done c m with
  | zero => exact .throw _
  | succ n ih =>
      obtain ⟨m, rfl⟩ : ∃ i, m = i + 1 := ⟨m - 1, by omega⟩
      unfold paramsLoop
      exact .accept_bind (by decide) (.expect_bind (by decide) (ih (by omega) _ _)) (.pure _)

theorem params_cut (hm : n ≤ m) (c : Cursor) : Cut 0 k (params n) (params m) c := by
  unfold params
  refine .peekKind_ite (by decide) (fun hk => ?_) (.next_bind (.bind (paramsLoop_cut hm _ _)
    fun names c => .expect_bind (by decide) (.pure _))) (.expect_bind (by decide) (.pure _))
  exact .bind_first (.next_of_kind (by simp [hk])) fun _ c =>
    .bind (paramsLoop_advances _ n c) fun _ c =>
      .bind ((Advances.expect _ (by decide)).mono (Nat.zero_le 1)) fun _ _ => .pure _

theorem function_cut (ih : Cutting k n) (hm : n ≤ m) (c : Cursor) :
    Cut 0 k (function (n + 1)) (function (m + 1)) c := by
  unfold function
  refine .next_bind (.bind ?_ fun name c => .expect_bind (by decide)
    (.bind (params_cut hm _) fun params c => .accept_bind (by decide)
      (.bind (ih.expression hm _) fun body c => .pure _)
      (.expect_bind (by decide) (.bind_of_advances (ih.statements hm _) (fun body c => ?_)
        fun body c => .expect_bind (by decide) (.spanFrom_bind (.pure _))))))
  · exact .peekKind_ite (by decide)
      (fun hk => .bind_first (.next_of_kind (by simp [hk])) fun _ _ => .pure _)
      (.next_bind (.pure _)) (.pure _)
  · exact .bind_first (.expect _ (by decide)) fun _ c => .bind (.spanFrom _) fun _ _ => .pure _

theorem cutting (k n : Nat) : Cutting k n := by
  induction n with
  | zero => exact cutting_zero k
  | succ n ih =>
      constructor
      all_goals
        intro m hm
        obtain ⟨m, rfl⟩ : ∃ i, m = i + 1 := ⟨m - 1, by omega⟩
        have hm := Nat.le_of_succ_le_succ hm
      case statements => exact statements_cut ih hm
      case statementsLoop => exact statementsLoop_cut ih hm
      case statement => exact statement_cut ih hm
      case expression => exact expression_cut ih hm
      case declaration => exact declaration_cut ih hm
      case annotated => exact annotated_cut ih hm
      case chain => exact chain_cut ih hm
      case chainLoop => exact chainLoop_cut ih hm
      case operand => exact operand_cut ih hm
      case factor => exact factor_cut ih hm
      case powerLoop => exact powerLoop_cut ih hm
      case call => exact call_cut ih hm
      case callLoop => exact callLoop_cut ih hm
      case items => exact items_cut ih hm
      case itemsLoop => exact itemsLoop_cut ih hm
      case atom => exact atom_cut ih hm
      case choice => exact choice_cut ih hm
      case armsLoop => exact armsLoop_cut ih hm
      case moreArms => exact moreArms_cut ih hm
      case branch => exact branch_cut ih hm
      case forLoop => exact forLoop_cut ih hm
      case whileLoop => exact whileLoop_cut ih hm
      case function => exact function_cut ih hm

end Grammar

end BasicScript
