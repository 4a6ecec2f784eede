import BasicScript.Proofs.Grammar.Progress
import BasicScript.Proofs.Program.Alike

/-! # Reading the same tokens elsewhere

A tree depends on what its tokens are and not on where they stand. Behind its tokens a newline may
follow as well as the end of input, and then whatever else; only a block goes on after a newline,
and it is followed no further than to a token that ends it. -/

namespace BasicScript

/-- The tokens behind `c₂` are those behind `c₁`, wherever they stand, and then `tail`. -/
def Cursor.Leads (tail : List Symbol) (c₁ c₂ : Cursor) : Prop :=
  c₂.rest.map Token.symbol = c₁.rest.map Token.symbol ++ tail

/-- Nothing, or a newline and whatever follows it. -/
def Severed (tail : List Symbol) : Prop :=
  ∀ s ∈ tail.head?, s.kind = .newline

theorem severed_nil : Severed [] := by
  simp [Severed]

theorem Token.kind_eq_of_symbol_eq {t u : Token} (h : t.symbol = u.symbol) : t.kind = u.kind :=
  congrArg Symbol.kind h

theorem Token.literal_eq_of_symbol_eq {t u : Token} (h : t.symbol = u.symbol) :
    t.literal = u.literal :=
  congrArg Symbol.literal h

namespace Cursor.Leads

variable {tail : List Symbol} {c₁ c₂ : Cursor}

theorem exists_of_cons (h : c₁.Leads tail c₂) {t : Token} {r : List Token}
    (ht : c₁.rest = t :: r) :
    ∃ u r', c₂.rest = u :: r' ∧ t.symbol = u.symbol ∧
      r'.map Token.symbol = r.map Token.symbol ++ tail := by
  rw [Cursor.Leads, ht, List.map_cons, List.cons_append] at h
  obtain ⟨u, r', hr, hu, hr'⟩ := List.map_eq_cons_iff.mp h
  exact ⟨u, r', hr, hu.symm, hr'⟩

theorem peek (h : c₁.Leads tail c₂) (hne : c₁.rest ≠ []) : c₁.peek.symbol = c₂.peek.symbol := by
  obtain ⟨t, r, hr⟩ := List.exists_cons_of_ne_nil hne
  obtain ⟨u, r', hr', htu, -⟩ := h.exists_of_cons hr
  rwa [peek_of_rest_cons hr, peek_of_rest_cons hr']

theorem kind (h : c₁.Leads tail c₂) (hne : c₁.rest ≠ []) : c₁.peek.kind = c₂.peek.kind :=
  Token.kind_eq_of_symbol_eq (h.peek hne)

theorem advance (h : c₁.Leads tail c₂) (hne : c₁.rest ≠ []) :
    c₁.advance.Leads tail c₂.advance := by
  obtain ⟨t, r, hr⟩ := List.exists_cons_of_ne_nil hne
  obtain ⟨u, r', hr', -, hrest⟩ := h.exists_of_cons hr
  rw [advance_of_rest_cons hr, advance_of_rest_cons hr']
  exact hrest

/-- Where the tokens behind the first cursor end, a newline or the end of input follows. -/
theorem kind_of_rest_nil (hs : Severed tail) (h : c₁.Leads tail c₂) (hnil : c₁.rest = []) :
    c₂.peek.kind = .newline ∨ c₂.peek.kind = .endOfInput := by
  rw [Cursor.Leads, hnil, List.map_nil, List.nil_append] at h
  cases hr : c₂.rest with
  | nil =>
      rw [peek_of_rest_nil hr]
      exact .inr c₂.kind_finish
  | cons u r =>
      rw [peek_of_rest_cons hr]
      exact .inl (hs u.symbol (by rw [← h, hr]; rfl))

theorem kind_eq_iff (hs : Severed tail) (h : c₁.Leads tail c₂) {k : TokenKind}
    (hn : k ≠ .newline) (he : k ≠ .endOfInput) : c₁.peek.kind = k ↔ c₂.peek.kind = k := by
  by_cases hnil : c₁.rest = []
  · rw [peek_of_rest_nil hnil, c₁.kind_finish]
    refine ⟨fun hk => absurd hk.symm he, fun hk => ?_⟩
    rcases kind_of_rest_nil hs h hnil with h' | h'
    · exact absurd (hk.symm.trans h') hn
    · exact absurd (hk.symm.trans h') he
  · rw [h.kind hnil]

/-- A token of some kinds stands second behind both cursors or behind none. -/
theorem kind_second_iff (hs : Severed tail) (h : c₁.Leads tail c₂) (hne : c₁.rest ≠ [])
    {k : TokenKind} (hn : k ≠ .newline) (he : k ≠ .endOfInput) :
    c₁.peekSecond.kind = k ↔ c₂.peekSecond.kind = k := by
  have hne₂ : c₂.rest ≠ [] := by
    obtain ⟨t, r, hr⟩ := List.exists_cons_of_ne_nil hne
    obtain ⟨u, r', hr', -⟩ := h.exists_of_cons hr
    simp [hr']
  rw [peekSecond_eq hne, peekSecond_eq hne₂]
  exact kind_eq_iff hs (h.advance hne) hn he

/-- Where tokens are left, or none can follow, both cursors stand before the same kind. -/
theorem kind_of_left (h : c₁.Leads tail c₂) (hleft : c₁.rest ≠ [] ∨ tail = []) :
    c₁.peek.kind = c₂.peek.kind := by
  by_cases hnil : c₁.rest = []
  · have htail : tail = [] := hleft.resolve_left fun hne => hne hnil
    rw [Cursor.Leads, hnil, htail] at h
    have hnil₂ : c₂.rest = [] := List.map_eq_nil_iff.mp h
    rw [Cursor.kind_of_rest_nil hnil, Cursor.kind_of_rest_nil hnil₂]
  · exact h.kind hnil

theorem behindNewlines (h : c₁.Leads tail c₂)
    (hleft : c₁.behindNewlines.rest ≠ [] ∨ tail = []) :
    c₁.behindNewlines.Leads tail c₂.behindNewlines := by
  have symbols (ts : List Token) : (ts.dropWhile (·.kind = .newline)).map Token.symbol =
      (ts.map Token.symbol).dropWhile (·.kind = .newline) := by
    rw [List.dropWhile_map]
    rfl
  simp only [Cursor.Leads, rest_behindNewlines] at h hleft ⊢
  rw [symbols, h, List.dropWhile_append, ← symbols]
  rcases hleft with hne | htail
  · rw [if_neg (by simpa using hne)]
  · simp [htail]

end Cursor.Leads

namespace Grammar

variable {α β γ δ : Type} {tail : List Symbol} {c₁ c₂ : Cursor}

/-- What `r₁` makes of the tokens behind `c₁` when it succeeds, `r₂` makes of those behind `c₂`. -/
def Follows (tail : List Symbol) (Q : α → β → Prop) (r₁ : Reader α) (r₂ : Reader β)
    (c₁ c₂ : Cursor) : Prop :=
  ∀ a c₁', r₁ c₁ = .ok a c₁' → ∃ b c₂', r₂ c₂ = .ok b c₂' ∧ Q a b ∧ c₁'.Leads tail c₂'

/-- The same where tokens are left in the end, or none can follow. -/
def FollowsWithin (tail : List Symbol) (Q : α → β → Prop) (r₁ : Reader α) (r₂ : Reader β)
    (c₁ c₂ : Cursor) : Prop :=
  ∀ a c₁', r₁ c₁ = .ok a c₁' → c₁'.rest ≠ [] ∨ tail = [] →
    ∃ b c₂', r₂ c₂ = .ok b c₂' ∧ Q a b ∧ c₁'.Leads tail c₂'

namespace Follows

variable {Q : α → β → Prop} {R : γ → δ → Prop}

theorem pure {a : α} {b : β} (h : c₁.Leads tail c₂) (hQ : Q a b) :
    Follows tail Q (pure a) (pure b) c₁ c₂ := by
  rintro _ _ ⟨⟩
  exact ⟨b, c₂, rfl, hQ, h⟩

theorem throw {e : Stop} {r₂ : Reader β} : Follows tail Q (throw e) r₂ c₁ c₂ := by
  rintro _ _ ⟨⟩

theorem fail {f : GrammarFault} {r₂ : Reader β} : Follows tail Q (fail f) r₂ c₁ c₂ := by
  rintro _ _ ⟨⟩

theorem failAt {f : GrammarFault} {s : Span} {r₂ : Reader β} :
    Follows tail Q (failAt f s) r₂ c₁ c₂ := by
  rintro _ _ ⟨⟩

theorem bind {r₁ : Reader α} {r₂ : Reader β} {f₁ : α → Reader γ} {f₂ : β → Reader δ}
    (h : Follows tail Q r₁ r₂ c₁ c₂)
    (hf : ∀ a b c₁' c₂', Q a b → c₁'.Leads tail c₂' → Follows tail R (f₁ a) (f₂ b) c₁' c₂') :
    Follows tail R (r₁ >>= f₁) (r₂ >>= f₂) c₁ c₂ := by
  intro g c₁'' hg
  obtain ⟨a, c₁', ha, hg⟩ := ok_of_bind hg
  obtain ⟨b, c₂', hb, hQ, hlead⟩ := h a c₁' ha
  obtain ⟨d, c₂'', hd, hR, hlead⟩ := hf a b c₁' c₂' hQ hlead g c₁'' hg
  exact ⟨d, c₂'', by rw [bind_of_ok hb, hd], hR, hlead⟩

/-- A reader that consumes tokens needs to be followed only where there are some. -/
theorem of_advances {r₁ : Reader α} {r₂ : Reader β} (ha : Advances 1 r₁ c₁)
    (h : c₁.rest ≠ [] → Follows tail Q r₁ r₂ c₁ c₂) : Follows tail Q r₁ r₂ c₁ c₂ :=
  fun a c₁' hr => h (ha a c₁' hr).rest_ne_nil a c₁' hr

section Primitive

variable {f₁ : Token → Reader α} {f₂ : Token → Reader β}

/-- What depends on the next token alone is followed if the end of input and a newline make no
difference to it. -/
theorem peekKind_bind {f₁ : TokenKind → Reader α} {f₂ : TokenKind → Reader β} (hs : Severed tail)
    (h : c₁.Leads tail c₂) (hf : f₂ .newline = f₂ .endOfInput)
    (hk : Follows tail Q (f₁ c₁.peek.kind) (f₂ c₁.peek.kind) c₁ c₂) :
    Follows tail Q (peekKind >>= f₁) (peekKind >>= f₂) c₁ c₂ := by
  have hk₂ : f₂ c₂.peek.kind = f₂ c₁.peek.kind := by
    by_cases hnil : c₁.rest = []
    · rw [Cursor.peek_of_rest_nil hnil, c₁.kind_finish]
      rcases h.kind_of_rest_nil hs hnil with hk' | hk'
      · rw [hk', hf]
      · rw [hk']
    · rw [h.kind hnil]
  intro a c₁' ha
  rw [Grammar.peekKind_bind, hk₂]
  exact hk a c₁' ha

theorem peekKind_bind_of_ne_nil {f₁ : TokenKind → Reader α} {f₂ : TokenKind → Reader β}
    (h : c₁.Leads tail c₂) (hne : c₁.rest ≠ [])
    (hk : Follows tail Q (f₁ c₁.peek.kind) (f₂ c₁.peek.kind) c₁ c₂) :
    Follows tail Q (peekKind >>= f₁) (peekKind >>= f₂) c₁ c₂ := by
  intro a c₁' ha
  rw [Grammar.peekKind_bind, ← h.kind hne]
  exact hk a c₁' ha

theorem peek_bind_of_ne_nil (h : c₁.Leads tail c₂) (hne : c₁.rest ≠ [])
    (hf : ∀ t u, t.symbol = u.symbol → Follows tail Q (f₁ t) (f₂ u) c₁ c₂) :
    Follows tail Q (peek >>= f₁) (peek >>= f₂) c₁ c₂ :=
  hf _ _ (h.peek hne)

theorem next_bind_of_ne_nil (h : c₁.Leads tail c₂) (hne : c₁.rest ≠ [])
    (hf : ∀ t u c₁' c₂', t.symbol = u.symbol → c₁'.Leads tail c₂' →
      Follows tail Q (f₁ t) (f₂ u) c₁' c₂') :
    Follows tail Q (next >>= f₁) (next >>= f₂) c₁ c₂ :=
  hf _ _ _ _ (h.peek hne) (h.advance hne)

/-- The end of input is never passed: only its first use needs to be looked at. -/
theorem next_bind (h : c₁.Leads tail c₂) (hend : ∀ c a c', c.rest = [] →
      f₁ c.finish c ≠ .ok a c')
    (hf : ∀ t u c₁' c₂', t.symbol = u.symbol → c₁'.Leads tail c₂' →
      Follows tail Q (f₁ t) (f₂ u) c₁' c₂') :
    Follows tail Q (next >>= f₁) (next >>= f₂) c₁ c₂ := by
  by_cases hnil : c₁.rest = []
  · intro a c₁' ha
    rw [Grammar.next_bind, Cursor.peek_of_rest_nil hnil, Cursor.advance_of_rest_nil hnil] at ha
    exact absurd ha (hend c₁ a c₁' hnil)
  · exact next_bind_of_ne_nil h hnil hf

theorem spanFrom_bind {s s' : Span} {f₁ : Span → Reader α} {f₂ : Span → Reader β}
    (hf : ∀ s s', Follows tail Q (f₁ s) (f₂ s') c₁ c₂) :
    Follows tail Q (spanFrom s >>= f₁) (spanFrom s' >>= f₂) c₁ c₂ :=
  hf _ _

theorem expect_bind {kind : TokenKind} {fault : GrammarFault} (h : c₁.Leads tail c₂)
    (he : kind ≠ .endOfInput)
    (hf : ∀ t u c₁' c₂', t.symbol = u.symbol → c₁'.Leads tail c₂' →
      Follows tail Q (f₁ t) (f₂ u) c₁' c₂') :
    Follows tail Q (expect kind fault >>= f₁) (expect kind fault >>= f₂) c₁ c₂ := by
  intro a c₁' ha
  rw [Grammar.expect_bind] at ha
  split at ha
  · rename_i hk
    have hne := Cursor.rest_ne_nil (hk ▸ he)
    rw [Grammar.expect_bind, if_pos ((h.kind hne).symm.trans hk)]
    exact hf _ _ _ _ (h.peek hne) (h.advance hne) a c₁' ha
  · cases ha

theorem accept_bind {kind : TokenKind} {f₁ : Bool → Reader α} {f₂ : Bool → Reader β}
    (hs : Severed tail) (h : c₁.Leads tail c₂) (hn : kind ≠ .newline) (he : kind ≠ .endOfInput)
    (htrue : ∀ c₁' c₂', c₁'.Leads tail c₂' → Follows tail Q (f₁ true) (f₂ true) c₁' c₂')
    (hfalse : Follows tail Q (f₁ false) (f₂ false) c₁ c₂) :
    Follows tail Q (accept kind >>= f₁) (accept kind >>= f₂) c₁ c₂ := by
  intro a c₁' ha
  rw [Grammar.accept_bind] at ha
  rw [Grammar.accept_bind]
  split at ha
  · rename_i hk
    rw [if_pos ((h.kind_eq_iff hs hn he).mp hk)]
    exact htrue _ _ (h.advance (Cursor.rest_ne_nil (hk ▸ he))) a c₁' ha
  · rename_i hk
    rw [if_neg (fun hk' => hk ((h.kind_eq_iff hs hn he).mpr hk'))]
    exact hfalse a c₁' ha

/-- Where a newline may be missing, something else has to be there. -/
theorem accept_newline_bind {f₁ : Bool → Reader α} {f₂ : Bool → Reader β}
    (h : c₁.Leads tail c₂) (ha : Advances 1 (f₁ false) c₁)
    (htrue : ∀ c₁' c₂', c₁'.Leads tail c₂' → Follows tail Q (f₁ true) (f₂ true) c₁' c₂')
    (hfalse : Follows tail Q (f₁ false) (f₂ false) c₁ c₂) :
    Follows tail Q (accept .newline >>= f₁) (accept .newline >>= f₂) c₁ c₂ := by
  intro a c₁' hr
  rw [Grammar.accept_bind] at hr
  rw [Grammar.accept_bind]
  split at hr
  · rename_i hk
    have hne := Cursor.rest_ne_nil (c := c₁) (by simp [hk])
    rw [if_pos ((h.kind hne).symm.trans hk)]
    exact htrue _ _ (h.advance hne) a c₁' hr
  · rename_i hk
    have hne := (ha a c₁' hr).rest_ne_nil
    rw [if_neg (fun hk' => hk ((h.kind hne).trans hk'))]
    exact hfalse a c₁' hr

end Primitive

/-- What is followed on the condition that tokens are left may be used where some are needed. -/
theorem bind_within {r₁ : Reader α} {r₂ : Reader β} {f₁ : α → Reader γ} {f₂ : β → Reader δ}
    (h : FollowsWithin tail Q r₁ r₂ c₁ c₂)
    (hend : ∀ a c b c', c.rest = [] → f₁ a c ≠ .ok b c')
    (hf : ∀ a b c₁' c₂', Q a b → c₁'.Leads tail c₂' → Follows tail R (f₁ a) (f₂ b) c₁' c₂') :
    Follows tail R (r₁ >>= f₁) (r₂ >>= f₂) c₁ c₂ := by
  intro g c₁'' hg
  obtain ⟨a, c₁', ha, hg⟩ := ok_of_bind hg
  have hne : c₁'.rest ≠ [] := fun hnil => hend a c₁' g c₁'' hnil hg
  obtain ⟨b, c₂', hb, hQ, hlead⟩ := h a c₁' ha (.inl hne)
  obtain ⟨d, c₂'', hd, hR, hlead⟩ := hf a b c₁' c₂' hQ hlead g c₁'' hg
  exact ⟨d, c₂'', by rw [bind_of_ok hb, hd], hR, hlead⟩

theorem within {r₁ : Reader α} {r₂ : Reader β} (h : Follows tail Q r₁ r₂ c₁ c₂) :
    FollowsWithin tail Q r₁ r₂ c₁ c₂ :=
  fun a c₁' hr _ => h a c₁' hr

end Follows

/-- Lists that end alike, behind what each of two loops has read before. -/
def AlikeBehind (done₁ done₂ l₁ l₂ : List Node) : Prop :=
  ∃ k₁ k₂, l₁ = done₁.reverse ++ k₁ ∧ l₂ = done₂.reverse ++ k₂ ∧ List.Forall₂ Node.Alike k₁ k₂

/-- Arms that are alike, and what is carried out otherwise as well. -/
def AlikeArms (p q : List (Arm Node) × Option (Branch Node)) : Prop :=
  List.Forall₂ Arm.Alike p.1 q.1 ∧ Option.Rel Branch.Alike p.2 q.2

/-- Every function of the grammar, with fuel `n`, follows itself. -/
structure Following (tail : List Symbol) (n : Nat) : Prop where
  statements : ∀ {c₁ c₂}, c₁.Leads tail c₂ →
    FollowsWithin tail Node.Alike (statements n) (statements n) c₁ c₂
  statementsLoop : ∀ {c₁ c₂} done₁ done₂, c₁.Leads tail c₂ →
    FollowsWithin tail (AlikeBehind done₁ done₂) (statementsLoop n done₁) (statementsLoop n done₂)
      c₁ c₂
  statement : ∀ {c₁ c₂}, c₁.Leads tail c₂ →
    Follows tail Node.Alike (statement n) (statement n) c₁ c₂
  expression : ∀ {c₁ c₂}, c₁.Leads tail c₂ →
    Follows tail Node.Alike (expression n) (expression n) c₁ c₂
  declaration : ∀ {c₁ c₂} tag, c₁.Leads tail c₂ →
    Follows tail Node.Alike (declaration n tag) (declaration n tag) c₁ c₂
  annotated : ∀ {c₁ c₂}, c₁.Leads tail c₂ →
    Follows tail Node.Alike (annotated n) (annotated n) c₁ c₂
  chain : ∀ {c₁ c₂} level, c₁.Leads tail c₂ →
    Follows tail Node.Alike (chain n level) (chain n level) c₁ c₂
  chainLoop : ∀ {c₁ c₂} level {left₁ left₂ : Node}, left₁.Alike left₂ → c₁.Leads tail c₂ →
    Follows tail Node.Alike (chainLoop n level left₁) (chainLoop n level left₂) c₁ c₂
  operand : ∀ {c₁ c₂} level, c₁.Leads tail c₂ →
    Follows tail Node.Alike (operand n level) (operand n level) c₁ c₂
  factor : ∀ {c₁ c₂}, c₁.Leads tail c₂ →
    Follows tail Node.Alike (factor n) (factor n) c₁ c₂
  powerLoop : ∀ {c₁ c₂} {base₁ base₂ : Node}, base₁.Alike base₂ → c₁.Leads tail c₂ →
    Follows tail Node.Alike (powerLoop n base₁) (powerLoop n base₂) c₁ c₂
  call : ∀ {c₁ c₂}, c₁.Leads tail c₂ → Follows tail Node.Alike (call n) (call n) c₁ c₂
  callLoop : ∀ {c₁ c₂} {callee₁ callee₂ : Node}, callee₁.Alike callee₂ → c₁.Leads tail c₂ →
    Follows tail Node.Alike (callLoop n callee₁) (callLoop n callee₂) c₁ c₂
  items : ∀ {c₁ c₂} close, close ≠ .newline → close ≠ .endOfInput → c₁.Leads tail c₂ →
    Follows tail (List.Forall₂ Node.Alike) (items n close) (items n close) c₁ c₂
  itemsLoop : ∀ {c₁ c₂} {done₁ done₂ : List Node}, List.Forall₂ Node.Alike done₁ done₂ →
    c₁.Leads tail c₂ →
    Follows tail (List.Forall₂ Node.Alike) (itemsLoop n done₁) (itemsLoop n done₂) c₁ c₂
  atom : ∀ {c₁ c₂}, c₁.Leads tail c₂ → Follows tail Node.Alike (atom n) (atom n) c₁ c₂
  choice : ∀ {c₁ c₂}, c₁.Leads tail c₂ → Follows tail Node.Alike (choice n) (choice n) c₁ c₂
  armsLoop : ∀ {c₁ c₂} {done₁ done₂ : List (Arm Node)}, List.Forall₂ Arm.Alike done₁ done₂ →
    c₁.Leads tail c₂ → Follows tail AlikeArms (armsLoop n done₁) (armsLoop n done₂) c₁ c₂
  moreArms : ∀ {c₁ c₂} {done₁ done₂ : List (Arm Node)}, List.Forall₂ Arm.Alike done₁ done₂ →
    c₁.Leads tail c₂ → Follows tail AlikeArms (moreArms n done₁) (moreArms n done₂) c₁ c₂
  branch : ∀ {c₁ c₂}, c₁.Leads tail c₂ → Follows tail Branch.Alike (branch n) (branch n) c₁ c₂
  forLoop : ∀ {c₁ c₂}, c₁.Leads tail c₂ →
    Follows tail Node.Alike (forLoop n) (forLoop n) c₁ c₂
  whileLoop : ∀ {c₁ c₂}, c₁.Leads tail c₂ →
    Follows tail Node.Alike (whileLoop n) (whileLoop n) c₁ c₂
  function : ∀ {c₁ c₂}, c₁.Leads tail c₂ →
    Follows tail Node.Alike (function n) (function n) c₁ c₂

variable {n : Nat}

section

variable (hs : Severed tail) (ih : Following tail n) (h : c₁.Leads tail c₂)

include hs ih h

theorem statement_follows :
    Follows tail Node.Alike (statement (n + 1)) (statement (n + 1)) c₁ c₂ := by
  refine .of_advances ((progress (n + 1)).statement c₁) fun hne => ?_
  unfold statement
  refine .peekKind_bind_of_ne_nil h hne ?_
  split
  · refine .next_bind_of_ne_nil h hne fun keyword keyword' c₁ c₂ _ h => .peekKind_bind hs h rfl ?_
    split
    · exact .bind (ih.expression h) fun v v' _ _ hv h => .pure h (.returnWith (.some hv))
    · exact .pure h (.returnWith .none)
  · exact .next_bind_of_ne_nil h hne fun _ _ _ _ _ h => .pure h .continueLoop
  · exact .next_bind_of_ne_nil h hne fun _ _ _ _ _ h => .pure h .breakLoop
  · exact ih.expression h

theorem expression_follows :
    Follows tail Node.Alike (expression (n + 1)) (expression (n + 1)) c₁ c₂ := by
  refine .of_advances ((progress (n + 1)).expression c₁) fun hne => ?_
  unfold expression
  refine .peekKind_bind_of_ne_nil h hne ?_
  split
  · exact ih.declaration _ h
  · intro a c₁' ha
    have hsecond := h.kind_second_iff hs hne (k := .colon) (by decide) (by decide)
    rw [get_bind] at ha ⊢
    split at ha
    · rename_i hk
      rw [if_pos ⟨hk.1, hsecond.mp hk.2⟩]
      exact ih.annotated h a c₁' ha
    · rename_i hk
      rw [if_neg fun hk' => hk ⟨hk'.1, hsecond.mpr hk'.2⟩]
      exact ih.chain _ h a c₁' ha

omit hs in
theorem declaration_follows (tag : Tag) :
    Follows tail Node.Alike (declaration (n + 1) tag) (declaration (n + 1) tag) c₁ c₂ := by
  refine .of_advances ((progress (n + 1)).declaration tag c₁) fun hne => ?_
  unfold declaration
  refine .next_bind_of_ne_nil h hne fun keyword keyword' c₁ c₂ _ h =>
    .expect_bind h (by decide) fun name name' c₁ c₂ hname h =>
    .expect_bind h (by decide) fun _ _ c₁ c₂ _ h =>
    .bind (ih.expression h) fun v v' c₁ c₂ hv h => ?_
  rw [Token.textOrEmpty_eq hname]
  exact .pure h (.declaration hv)

omit hs in
theorem annotated_follows :
    Follows tail Node.Alike (annotated (n + 1)) (annotated (n + 1)) c₁ c₂ := by
  refine .of_advances ((progress (n + 1)).annotated c₁) fun hne => ?_
  unfold annotated
  -- the third token has to be a tag, so the input does not end before it
  have tagged {c : Cursor} (hc : c.rest = []) : tag? c.peek.kind = none := by
    rw [Cursor.peek_of_rest_nil hc, c.kind_finish]
    rfl
  refine .next_bind_of_ne_nil h hne fun name name' c₁ c₂ hname h =>
    .next_bind h (fun c a c' hc => ?_) fun _ _ c₁ c₂ _ h => .next_bind h (fun c a c' hc => ?_)
    fun word word' c₁ c₂ hword h => ?_
  · rw [Grammar.next_bind, tagged hc]
    exact fun h => by cases h
  · rw [c.kind_finish]
    exact fun h => by cases h
  · rw [Token.kind_eq_of_symbol_eq hword]
    split
    · exact .failAt
    · refine .expect_bind h (by decide) fun _ _ c₁ c₂ _ h =>
        .bind (ih.expression h) fun v v' c₁ c₂ hv h => ?_
      rw [Token.textOrEmpty_eq hname]
      exact .pure h (.declaration hv)

omit hs in
theorem chain_follows (level : Level) :
    Follows tail Node.Alike (chain (n + 1) level) (chain (n + 1) level) c₁ c₂ := by
  refine .of_advances ((progress (n + 1)).chain level c₁) fun hne => ?_
  unfold chain
  refine .peekKind_bind_of_ne_nil h hne ?_
  split
  · exact .next_bind_of_ne_nil h hne fun _ _ c₁ c₂ _ h => .bind (ih.chain _ h)
      fun x x' c₁ c₂ hx h => .pure h (.unary hx)
  · exact .bind (ih.operand level h) fun left left' c₁ c₂ hleft h => ih.chainLoop level hleft h

theorem chainLoop_follows (level : Level) {left₁ left₂ : Node} (hleft : left₁.Alike left₂) :
    Follows tail Node.Alike (chainLoop (n + 1) level left₁) (chainLoop (n + 1) level left₂)
      c₁ c₂ := by
  unfold chainLoop
  refine .peekKind_bind hs h (by cases level <;> rfl) ?_
  split
  · exact .pure h hleft
  · rename_i op hop
    have hne : c₁.rest ≠ [] := by
      refine Cursor.rest_ne_nil fun he => ?_
      rw [he] at hop
      cases level <;> cases hop
    exact .next_bind_of_ne_nil h hne fun _ _ c₁ c₂ _ h => .bind (ih.operand level h)
      fun right right' c₁ c₂ hright h => ih.chainLoop level (.binary hleft hright) h

omit hs in
theorem operand_follows (level : Level) :
    Follows tail Node.Alike (operand (n + 1) level) (operand (n + 1) level) c₁ c₂ := by
  unfold operand
  split
  · exact ih.chain _ h
  · exact ih.factor h

omit hs in
theorem factor_follows : Follows tail Node.Alike (factor (n + 1)) (factor (n + 1)) c₁ c₂ := by
  refine .of_advances ((progress (n + 1)).factor c₁) fun hne => ?_
  unfold factor
  refine .peekKind_bind_of_ne_nil h hne ?_
  split
  · exact .next_bind_of_ne_nil h hne fun _ _ c₁ c₂ _ h => .bind (ih.factor h)
      fun x x' c₁ c₂ hx h => .pure h (.unary hx)
  · exact .bind (ih.call h) fun base base' c₁ c₂ hbase h => ih.powerLoop hbase h

theorem powerLoop_follows {base₁ base₂ : Node} (hbase : base₁.Alike base₂) :
    Follows tail Node.Alike (powerLoop (n + 1) base₁) (powerLoop (n + 1) base₂) c₁ c₂ := by
  unfold powerLoop
  refine .accept_bind hs h (by decide) (by decide) (fun c₁ c₂ h => ?_) (.pure h hbase)
  exact .bind (ih.factor h) fun exponent exponent' c₁ c₂ hexponent h =>
    ih.powerLoop (.binary hbase hexponent) h

omit hs in
theorem call_follows : Follows tail Node.Alike (call (n + 1)) (call (n + 1)) c₁ c₂ := by
  unfold call
  exact .bind (ih.atom h) fun callee callee' c₁ c₂ hcallee h => ih.callLoop hcallee h

theorem callLoop_follows {callee₁ callee₂ : Node} (hcallee : callee₁.Alike callee₂) :
    Follows tail Node.Alike (callLoop (n + 1) callee₁) (callLoop (n + 1) callee₂) c₁ c₂ := by
  unfold callLoop
  refine .accept_bind hs h (by decide) (by decide) (fun c₁ c₂ h => ?_) (.pure h hcallee)
  exact .bind (ih.items _ (by decide) (by decide) h) fun args args' c₁ c₂ hargs h =>
    .expect_bind h (by decide) fun _ _ c₁ c₂ _ h => ih.callLoop (.call hcallee hargs) h

theorem items_follows (close : TokenKind) (hn : close ≠ .newline) (he : close ≠ .endOfInput) :
    Follows tail (List.Forall₂ Node.Alike) (items (n + 1) close) (items (n + 1) close) c₁ c₂ := by
  unfold items
  refine .peekKind_bind hs h (by rw [if_neg hn.symm, if_neg he.symm]) ?_
  split
  · exact .pure h .nil
  · exact ih.itemsLoop .nil h

theorem itemsLoop_follows {done₁ done₂ : List Node} (hdone : List.Forall₂ Node.Alike done₁ done₂) :
    Follows tail (List.Forall₂ Node.Alike) (itemsLoop (n + 1) done₁) (itemsLoop (n + 1) done₂)
      c₁ c₂ := by
  unfold itemsLoop
  refine .bind (ih.expression h) fun item item' c₁ c₂ hitem h =>
    .accept_bind hs h (by decide) (by decide) (fun c₁ c₂ h => ih.itemsLoop (.cons hitem hdone) h) ?_
  exact .pure h (List.forall₂_reverse_iff.mpr (.cons hitem hdone))

omit hs in
theorem branch_follows : Follows tail Branch.Alike (branch (n + 1)) (branch (n + 1)) c₁ c₂ := by
  unfold branch
  refine .accept_newline_bind h ?_ (fun c₁ c₂ h => ?_) ?_
  · exact .bind_first ((progress n).statement c₁) fun _ _ => .pure _
  · refine .bind_within (ih.statements h) (fun a c b c' hc => ?_) fun body body' c₁ c₂ hbody h =>
      .expect_bind h (by decide) fun _ _ _ _ _ h => .pure h ⟨hbody, rfl⟩
    rw [Grammar.expect_bind, Cursor.peek_of_rest_nil hc, c.kind_finish]
    exact fun h => by cases h
  · exact .bind (ih.statement h) fun body body' c₁ c₂ hbody h => .pure h ⟨hbody, rfl⟩

omit hs in
theorem statements_follows :
    FollowsWithin tail Node.Alike (statements (n + 1)) (statements (n + 1)) c₁ c₂ := by
  intro a c₁' ha hleft
  unfold statements at ha ⊢
  rw [peek_bind] at ha ⊢
  obtain ⟨lines, c, hlines, ha⟩ := ok_of_bind ha
  cases ha
  obtain ⟨lines', c₂', hlines', ⟨k, k', hk, hk', halike⟩, h⟩ :=
    ih.statementsLoop [] [] h lines c₁' hlines hleft
  rw [bind_of_ok hlines']
  subst hk hk'
  exact ⟨_, c₂', rfl, .list halike, h⟩

omit hs in
theorem statementsLoop_follows (done₁ done₂ : List Node) :
    FollowsWithin tail (AlikeBehind done₁ done₂) (statementsLoop (n + 1) done₁)
      (statementsLoop (n + 1) done₂) c₁ c₂ := by
  intro a c₁' ha hleft
  unfold statementsLoop at ha ⊢
  rw [skipNewlines_bind, peekKind_bind] at ha ⊢
  have h : c₁.behindNewlines.Leads tail c₂.behindNewlines := by
    refine h.behindNewlines ?_
    by_cases hnil : c₁.behindNewlines.rest = []
    · -- then nothing is read any more
      rw [Cursor.kind_of_rest_nil hnil] at ha
      cases ha
      exact hleft
    · exact .inl hnil
  split at ha
  · rename_i hend
    cases ha
    rw [← h.kind_of_left hleft, if_pos hend]
    exact ⟨_, _, rfl, ⟨[], [], by simp, by simp, .nil⟩, h⟩
  · rename_i hend
    have hne : c₁.behindNewlines.rest ≠ [] := by
      intro hnil
      rw [Cursor.kind_of_rest_nil hnil] at hend
      exact hend rfl
    rw [← h.kind hne, if_neg hend]
    obtain ⟨line, c₃, hline, ha⟩ := ok_of_bind ha
    obtain ⟨line', c₄, hline', hlines, h⟩ := ih.statement h line c₃ hline
    rw [peekKind_bind] at ha
    rw [bind_of_ok hline', peekKind_bind]
    split at ha
    · rename_i hk
      rw [← h.kind (Cursor.rest_ne_nil (by simp [hk])), if_pos hk]
      obtain ⟨b, c₂', hb, ⟨k, k', hk, hk', hks⟩, h⟩ := ih.statementsLoop _ _ h a c₁' ha hleft
      exact ⟨b, c₂', hb, ⟨line :: k, line' :: k', by simp [hk], by simp [hk'],
        .cons hlines hks⟩, h⟩
    · rename_i hk
      cases ha
      rw [← h.kind_of_left hleft, if_neg hk]
      exact ⟨_, _, rfl, ⟨[line], [line'], by simp, by simp, .cons hlines .nil⟩, h⟩

theorem moreArms_follows {done₁ done₂ : List (Arm Node)}
    (hdone : List.Forall₂ Arm.Alike done₁ done₂) :
    Follows tail AlikeArms (moreArms (n + 1) done₁) (moreArms (n + 1) done₂) c₁ c₂ := by
  unfold moreArms
  refine .accept_bind hs h (by decide) (by decide) (fun c₁ c₂ h => ih.armsLoop hdone h)
    (.accept_bind hs h (by decide) (by decide) (fun c₁ c₂ h => ?_) ?_)
  · exact .bind (ih.branch h) fun b b' c₁ c₂ hb h =>
      .pure h ⟨List.forall₂_reverse_iff.mpr hdone, .some hb⟩
  · exact .pure h ⟨List.forall₂_reverse_iff.mpr hdone, .none⟩

theorem armsLoop_follows {done₁ done₂ : List (Arm Node)}
    (hdone : List.Forall₂ Arm.Alike done₁ done₂) :
    Follows tail AlikeArms (armsLoop (n + 1) done₁) (armsLoop (n + 1) done₂) c₁ c₂ := by
  unfold armsLoop
  refine .bind (ih.expression h) fun condition condition' c₁ c₂ hcondition h =>
    .expect_bind h (by decide) fun _ _ c₁ c₂ _ h => .accept_newline_bind h ?_ (fun c₁ c₂ h => ?_) ?_
  · exact .bind_first ((progress n).statement c₁) fun _ c => (progress n).moreArms _ c
  · refine .bind_within (ih.statements h) (fun a c b c' hc => ?_) fun body body' c₁ c₂ hbody h => ?_
    · have hk : c.peek.kind = .endOfInput := Cursor.kind_of_rest_nil hc
      simp [Grammar.accept_bind, Grammar.peekKind_bind, hk, Grammar.fail]
    · have harm : Arm.Alike ⟨condition, body, true⟩ ⟨condition', body', true⟩ :=
        ⟨hcondition, hbody, rfl⟩
      refine .accept_bind hs h (by decide) (by decide) (fun c₁ c₂ h => ?_)
        (.peekKind_bind hs h rfl ?_)
      · exact .pure h ⟨List.forall₂_reverse_iff.mpr (.cons harm hdone), .none⟩
      · split
        · exact ih.moreArms (.cons harm hdone) h
        · exact ih.moreArms (.cons harm hdone) h
        · exact .fail
  · exact .bind (ih.statement h) fun body body' c₁ c₂ hbody h =>
      ih.moreArms (.cons ⟨hcondition, hbody, rfl⟩ hdone) h

omit hs in
theorem choice_follows : Follows tail Node.Alike (choice (n + 1)) (choice (n + 1)) c₁ c₂ := by
  refine .of_advances ((progress (n + 1)).choice c₁) fun hne => ?_
  unfold choice
  exact .next_bind_of_ne_nil h hne fun _ _ c₁ c₂ _ h => .bind (ih.armsLoop .nil h)
    fun _ _ c₁ c₂ harms h => .spanFrom_bind fun _ _ => .pure h (.choice harms.1 harms.2)

omit hs in
theorem whileLoop_follows :
    Follows tail Node.Alike (whileLoop (n + 1)) (whileLoop (n + 1)) c₁ c₂ := by
  refine .of_advances ((progress (n + 1)).whileLoop c₁) fun hne => ?_
  unfold whileLoop
  exact .next_bind_of_ne_nil h hne fun _ _ c₁ c₂ _ h => .bind (ih.expression h)
    fun condition condition' c₁ c₂ hcondition h => .expect_bind h (by decide) fun _ _ c₁ c₂ _ h =>
    .bind (ih.branch h) fun b b' c₁ c₂ hb h => .spanFrom_bind fun _ _ =>
    .pure h (.whileLoop hcondition hb)

theorem forLoop_follows : Follows tail Node.Alike (forLoop (n + 1)) (forLoop (n + 1)) c₁ c₂ := by
  refine .of_advances ((progress (n + 1)).forLoop c₁) fun hne => ?_
  unfold forLoop
  refine .next_bind_of_ne_nil h hne fun _ _ c₁ c₂ _ h =>
    .expect_bind h (by decide) fun name name' c₁ c₂ hname h =>
    .expect_bind h (by decide) fun _ _ c₁ c₂ _ h =>
    .bind (ih.expression h) fun first first' c₁ c₂ hfirst h =>
    .expect_bind h (by decide) fun _ _ c₁ c₂ _ h =>
    .bind (ih.expression h) fun last last' c₁ c₂ hlast h =>
    .bind (Q := Option.Rel Node.Alike) ?_ fun step step' c₁ c₂ hstep h =>
    .expect_bind h (by decide) fun _ _ c₁ c₂ _ h =>
    .bind (ih.branch h) fun b b' c₁ c₂ hb h => .spanFrom_bind fun _ _ => ?_
  · refine .accept_bind hs h (by decide) (by decide) (fun c₁ c₂ h => ?_) (.pure h .none)
    exact .bind (ih.expression h) fun step step' c₁ c₂ hstep h => .pure h (.some hstep)
  · rw [Token.textOrEmpty_eq hname]
    exact .pure h (.forLoop hfirst hlast hstep hb)

omit ih in
theorem paramsLoop_follows (done : List String) (n : Nat) :
    Follows tail Eq (paramsLoop done n) (paramsLoop done n) c₁ c₂ := by
  induction n generalizing c₁ c₂ done with
  | zero => exact .throw
  | succ n ihn =>
      unfold paramsLoop
      refine .accept_bind hs h (by decide) (by decide) (fun c₁ c₂ h => ?_) (.pure h rfl)
      refine .expect_bind h (by decide) fun param param' c₁ c₂ hparam h => ?_
      rw [Token.textOrEmpty_eq hparam]
      exact ihn h _

omit ih in
theorem params_follows (n : Nat) : Follows tail Eq (params n) (params n) c₁ c₂ := by
  refine .of_advances (params_advances n c₁) fun hne => ?_
  unfold params
  refine .peekKind_bind_of_ne_nil h hne ?_
  split
  · refine .next_bind_of_ne_nil h hne fun first first' c₁ c₂ hfirst h => ?_
    rw [Token.textOrEmpty_eq hfirst]
    refine .bind (paramsLoop_follows hs h _ n) fun names _ c₁ c₂ hnames h =>
      .expect_bind h (by decide) fun _ _ c₁ c₂ _ h => .pure h hnames
  · exact .expect_bind h (by decide) fun _ _ c₁ c₂ _ h => .pure h rfl

theorem function_follows :
    Follows tail Node.Alike (function (n + 1)) (function (n + 1)) c₁ c₂ := by
  refine .of_advances ((progress (n + 1)).function c₁) fun hne => ?_
  unfold function
  refine .next_bind_of_ne_nil h hne fun _ _ c₁ c₂ _ h => .bind (Q := Eq) ?_
    fun name name' c₁ c₂ hname h => .expect_bind h (by decide) fun _ _ c₁ c₂ _ h =>
    .bind (params_follows hs h n) fun params params' c₁ c₂ hparams h => ?_
  · refine .peekKind_bind hs h rfl ?_
    split
    · rename_i hk
      refine .next_bind_of_ne_nil h (Cursor.rest_ne_nil (by simp [hk])) fun t u _ _ htu h => ?_
      exact .pure h (congrArg some (Token.textOrEmpty_eq htu))
    · exact .pure h rfl
  · subst hname hparams
    refine .accept_bind hs h (by decide) (by decide) (fun c₁ c₂ h => ?_) ?_
    · exact .bind (ih.expression h) fun body body' c₁ c₂ hbody h => .pure h (.function hbody)
    · refine .expect_bind h (by decide) fun _ _ c₁ c₂ _ h => .bind_within (ih.statements h)
        (fun a c b c' hc => ?_) fun body body' c₁ c₂ hbody h =>
        .expect_bind h (by decide) fun _ _ _ _ _ h =>
        .spanFrom_bind fun _ _ => .pure h (.function hbody)
      rw [Grammar.expect_bind, Cursor.peek_of_rest_nil hc, c.kind_finish]
      exact fun h => by cases h

omit hs in
theorem atom_follows : Follows tail Node.Alike (atom (n + 1)) (atom (n + 1)) c₁ c₂ := by
  refine .of_advances ((progress (n + 1)).atom c₁) fun hne => ?_
  unfold atom
  refine .peek_bind_of_ne_nil h hne fun t u htu => ?_
  rw [Token.kind_eq_of_symbol_eq htu]
  split
  iterate 2
    refine .next_bind_of_ne_nil h hne fun _ _ c₁ c₂ _ h => ?_
    rw [Token.literal_eq_of_symbol_eq htu]
    split
    · exact .pure h (.number _)
    · exact .failAt
  · refine .next_bind_of_ne_nil h hne fun _ _ c₁ c₂ _ h => ?_
    rw [Token.textOrEmpty_eq htu]
    exact .pure h (.text _)
  · refine .next_bind_of_ne_nil h hne fun _ _ c₁ c₂ _ h => ?_
    rw [Token.textOrEmpty_eq htu]
    exact .pure h (.ident _)
  · exact .next_bind_of_ne_nil h hne fun _ _ c₁ c₂ _ h => .bind (ih.expression h)
      fun inner inner' c₁ c₂ hinner h => .expect_bind h (by decide) fun _ _ c₁ c₂ _ h =>
      .pure h hinner
  · exact .next_bind_of_ne_nil h hne fun _ _ c₁ c₂ _ h =>
      .bind (ih.items _ (by decide) (by decide) h) fun elements elements' c₁ c₂ helements h =>
      .expect_bind h (by decide) fun _ _ c₁ c₂ _ h => .pure h (.list helements)
  · exact ih.choice h
  · exact ih.forLoop h
  · exact ih.whileLoop h
  · exact ih.function h
  · exact .fail

end

theorem following_zero : Following tail 0 := by
  constructor <;> intros
  case statements => exact Follows.throw.within
  case statementsLoop => exact Follows.throw.within
  all_goals exact .throw

/-- Every function of the grammar makes of tokens elsewhere what it makes of them here, whether the
input ends behind them or a line does. -/
theorem following (hs : Severed tail) (n : Nat) : Following tail n := by
  induction n with
  | zero => exact following_zero
  | succ n ih =>
      exact {
        statements := statements_follows ih
        statementsLoop := fun done₁ done₂ h => statementsLoop_follows ih h done₁ done₂
        statement := statement_follows hs ih
        expression := expression_follows hs ih
        declaration := fun tag h => declaration_follows ih h tag
        annotated := annotated_follows ih
        chain := fun level h => chain_follows ih h level
        chainLoop := fun level _ _ hleft h => chainLoop_follows hs ih h level hleft
        operand := fun level h => operand_follows ih h level
        factor := factor_follows ih
        powerLoop := fun hbase h => powerLoop_follows hs ih h hbase
        call := call_follows ih
        callLoop := fun hcallee h => callLoop_follows hs ih h hcallee
        items := fun close hn he h => items_follows hs ih h close hn he
        itemsLoop := fun hdone h => itemsLoop_follows hs ih h hdone
        atom := atom_follows ih
        choice := choice_follows ih
        armsLoop := fun hdone h => armsLoop_follows hs ih h hdone
        moreArms := fun hdone h => moreArms_follows hs ih h hdone
        branch := branch_follows ih
        forLoop := forLoop_follows hs ih
        whileLoop := whileLoop_follows ih
        function := function_follows hs ih }

/-- A program is what its tokens are, wherever they stand. -/
theorem program_follows (h : c₁.Leads [] c₂) :
    Follows [] Node.Alike (program n) (program n) c₁ c₂ := by
  unfold program
  have hstatements : Follows [] Node.Alike (statements n) (statements n) c₁ c₂ :=
    fun a c₁' ha => (following severed_nil n).statements h a c₁' ha (.inr rfl)
  refine .bind hstatements fun lines lines' c₁ c₂ hlines h => ?_
  intro a c₁' ha
  rw [peekKind_bind] at ha ⊢
  rw [← h.kind_of_left (.inr rfl)]
  split at ha
  · rename_i hk
    cases ha
    rw [if_pos hk]
    exact ⟨lines', c₂, rfl, hlines, h⟩
  · cases ha

end Grammar

end BasicScript
