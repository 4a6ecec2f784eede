import BasicScript.Proofs.Grammar.Reader

/-! # Progress of reading

Reading only goes forward, and whatever reads a statement or an expression consumes a token. -/

namespace BasicScript

/-- `c'` stands in the same tokens as `c`, at least `d` tokens further on. -/
def Cursor.Reaches (d : Nat) (c c' : Cursor) : Prop :=
  c'.finish = c.finish ∧ ∃ read, c.rest = read ++ c'.rest ∧ d ≤ read.length

namespace Cursor.Reaches

variable {c c' c'' : Cursor} {d e : Nat}

theorem refl (c : Cursor) : Reaches 0 c c :=
  ⟨rfl, [], rfl, Nat.le_refl _⟩

theorem trans (h : Reaches d c c') (h' : Reaches e c' c'') : Reaches (d + e) c c'' := by
  obtain ⟨hf, read, hr, hd⟩ := h
  obtain ⟨hf', read', hr', he⟩ := h'
  refine ⟨hf'.trans hf, read ++ read', ?_, ?_⟩
  · rw [hr, hr', List.append_assoc]
  · simp only [List.length_append]
    omega

theorem mono (h : Reaches d c c') (hd : e ≤ d) : Reaches e c c' :=
  ⟨h.1, h.2.imp fun _ hr => ⟨hr.1, Nat.le_trans hd hr.2⟩⟩

theorem length_le (h : Reaches d c c') : c'.rest.length + d ≤ c.rest.length := by
  obtain ⟨-, read, hr, hd⟩ := h
  simp only [hr, List.length_append]
  omega

theorem rest_ne_nil (h : Reaches 1 c c') : c.rest ≠ [] := by
  intro hnil
  have hlen := h.length_le
  simp [hnil] at hlen

theorem advance (c : Cursor) : Reaches 0 c c.advance := by
  cases h : c.rest with
  | nil =>
      rw [advance_of_rest_nil h]
      exact refl c
  | cons t r =>
      rw [advance_of_rest_cons h]
      exact ⟨rfl, [t], h, Nat.zero_le _⟩

theorem advance_of_kind (h : c.peek.kind ≠ .endOfInput) : Reaches 1 c c.advance := by
  obtain ⟨t, r, hr⟩ := List.exists_cons_of_ne_nil (Cursor.rest_ne_nil h)
  rw [advance_of_rest_cons hr]
  exact ⟨rfl, [t], hr, Nat.le_refl _⟩

end Cursor.Reaches

namespace Grammar

variable {α β : Type} {d e : Nat} {c : Cursor}

/-- Success of a reader at `c` consumes at least `d` tokens. -/
def Advances (d : Nat) (r : Reader α) (c : Cursor) : Prop :=
  ∀ a c', r c = .ok a c' → c.Reaches d c'

namespace Advances

theorem mono {r : Reader α} (h : Advances d r c) (hd : e ≤ d) : Advances e r c :=
  fun a c' hr => (h a c' hr).mono hd

theorem bind_both {r : Reader α} {f : α → Reader β} (h : Advances d r c)
    (hf : ∀ a c', Advances e (f a) c') : Advances (d + e) (r >>= f) c := by
  intro b c'' hb
  obtain ⟨a, c', ha, hb⟩ := ok_of_bind hb
  exact (h a c' ha).trans (hf a c' b c'' hb)

/-- What a sequence consumes, it may owe to its last step. -/
theorem bind {r : Reader α} {f : α → Reader β} (h : Advances e r c)
    (hf : ∀ a c', Advances d (f a) c') : Advances d (r >>= f) c :=
  (h.bind_both hf).mono (Nat.le_add_left d e)

/-- What a sequence consumes, it may owe to its first step. -/
theorem bind_first {r : Reader α} {f : α → Reader β} (h : Advances d r c)
    (hf : ∀ a c', Advances 0 (f a) c') : Advances d (r >>= f) c :=
  h.bind_both hf

theorem pure (a : α) : Advances 0 (pure a) c := by
  rintro _ _ ⟨⟩
  exact .refl c

theorem throw (e : Stop) : Advances d (throw e : Reader α) c := by
  rintro _ _ ⟨⟩

theorem fail (f : GrammarFault) : Advances d (fail f : Reader α) c := by
  rintro _ _ ⟨⟩

theorem failAt (f : GrammarFault) (s : Span) : Advances d (failAt f s : Reader α) c := by
  rintro _ _ ⟨⟩

theorem peekKind : Advances 0 Grammar.peekKind c := by
  rintro _ _ ⟨⟩
  exact .refl c

theorem peek : Advances 0 Grammar.peek c := by
  rintro _ _ ⟨⟩
  exact .refl c

/-- What follows a look at the next token may depend on it. -/
theorem peekKind_at {f : TokenKind → Reader α} (h : Advances d (f c.peek.kind) c) :
    Advances d (Grammar.peekKind >>= f) c :=
  h

theorem peek_at {f : Token → Reader α} (h : Advances d (f c.peek) c) :
    Advances d (Grammar.peek >>= f) c :=
  h

theorem get : Advances 0 (MonadState.get : Reader Cursor) c := by
  rintro _ _ ⟨⟩
  exact .refl c

theorem next : Advances 0 Grammar.next c := by
  rintro _ _ ⟨⟩
  exact .advance c

theorem next_of_kind (h : c.peek.kind ≠ .endOfInput) : Advances 1 Grammar.next c := by
  rintro _ _ ⟨⟩
  exact .advance_of_kind h

theorem spanFrom (s : Span) : Advances 0 (Grammar.spanFrom s) c := by
  rintro _ _ ⟨⟩
  exact .refl c

theorem accept (kind : TokenKind) : Advances 0 (Grammar.accept kind) c := by
  intro b c' h
  unfold Grammar.accept at h
  split at h
  · cases h
    exact .advance c
  · cases h
    exact .refl c

theorem accept_bind_of_eq {kind : TokenKind} {f : Bool → Reader α} (h : c.peek.kind = kind)
    (hk : kind ≠ .endOfInput) (hf : ∀ c, Advances 0 (f true) c) :
    Advances 1 (Grammar.accept kind >>= f) c := by
  intro b c' hb
  rw [accept_bind, if_pos h] at hb
  exact (Cursor.Reaches.advance_of_kind (h ▸ hk)).trans (hf _ b c' hb)

theorem accept_bind_of_ne {kind : TokenKind} {f : Bool → Reader α} (h : c.peek.kind ≠ kind)
    (hf : Advances d (f false) c) : Advances d (Grammar.accept kind >>= f) c := by
  intro b c' hb
  rw [accept_bind, if_neg h] at hb
  exact hf b c' hb

theorem expect {kind : TokenKind} (fault : GrammarFault) (hk : kind ≠ .endOfInput) :
    Advances 1 (Grammar.expect kind fault) c := by
  intro t c' h
  unfold Grammar.expect at h
  split at h
  · rename_i hkind
    cases h
    exact .advance_of_kind (hkind ▸ hk)
  · cases h

theorem skipNewlines : Advances 0 Grammar.skipNewlines c := by
  rintro _ _ ⟨⟩
  refine ⟨rfl, c.rest.takeWhile (·.kind = .newline), ?_, Nat.zero_le _⟩
  exact (List.prefix_iff_eq_append.mp (List.takeWhile_prefix _)).symm

end Advances

/-- What each function of the grammar consumes when it succeeds with fuel `n`. -/
structure Progress (n : Nat) : Prop where
  statements : ∀ c, Advances 0 (statements n) c
  statementsLoop : ∀ done c, Advances 0 (statementsLoop n done) c
  statement : ∀ c, Advances 1 (statement n) c
  expression : ∀ c, Advances 1 (expression n) c
  declaration : ∀ tag c, Advances 1 (declaration n tag) c
  annotated : ∀ c, Advances 1 (annotated n) c
  chain : ∀ level c, Advances 1 (chain n level) c
  chainLoop : ∀ level left c, Advances 0 (chainLoop n level left) c
  operand : ∀ level c, Advances 1 (operand n level) c
  factor : ∀ c, Advances 1 (factor n) c
  powerLoop : ∀ base c, Advances 0 (powerLoop n base) c
  call : ∀ c, Advances 1 (call n) c
  callLoop : ∀ callee c, Advances 0 (callLoop n callee) c
  items : ∀ close c, Advances 0 (items n close) c
  itemsLoop : ∀ done c, Advances 0 (itemsLoop n done) c
  atom : ∀ c, Advances 1 (atom n) c
  choice : ∀ c, Advances 1 (choice n) c
  armsLoop : ∀ done c, Advances 1 (armsLoop n done) c
  moreArms : ∀ done c, Advances 0 (moreArms n done) c
  branch : ∀ c, Advances 0 (branch n) c
  forLoop : ∀ c, Advances 1 (forLoop n) c
  whileLoop : ∀ c, Advances 1 (whileLoop n) c
  function : ∀ c, Advances 1 (function n) c

theorem progress_zero : Progress 0 := by
  constructor <;> intros <;> exact .throw _

variable {n : Nat}

theorem statements_advances (ih : Progress n) (c : Cursor) : Advances 0 (statements (n + 1)) c := by
  unfold statements
  exact .bind .peek fun _ c => .bind (ih.statementsLoop [] c) fun _ _ => .pure _

theorem statementsLoop_advances_of (ih : Progress n) (done : List Node)
    (h : Advances d skipNewlines c) : Advances d (statementsLoop (n + 1) done) c := by
  unfold statementsLoop
  refine .bind_first h fun _ c => .bind .peekKind fun kind c => ?_
  split
  · exact .pure _
  · refine .bind (ih.statement c) fun line c => .bind .peekKind fun kind c => ?_
    split
    · exact ih.statementsLoop _ c
    · exact .pure _

theorem statementsLoop_advances (ih : Progress n) (done : List Node) (c : Cursor) :
    Advances 0 (statementsLoop (n + 1) done) c :=
  statementsLoop_advances_of ih done .skipNewlines

theorem statement_advances (ih : Progress n) (c : Cursor) : Advances 1 (statement (n + 1)) c := by
  unfold statement
  refine .peekKind_at ?_
  split
  · rename_i hk
    refine .bind_first (.next_of_kind (by simp [hk])) fun keyword c =>
      .bind .peekKind fun kind c => ?_
    split
    · exact .bind (ih.expression c) fun _ _ => .pure _
    · exact .pure _
  · rename_i hk
    exact .bind_first (.next_of_kind (by simp [hk])) fun _ _ => .pure _
  · rename_i hk
    exact .bind_first (.next_of_kind (by simp [hk])) fun _ _ => .pure _
  · exact ih.expression c

theorem expression_advances (ih : Progress n) (c : Cursor) : Advances 1 (expression (n + 1)) c := by
  unfold expression
  refine .bind .peekKind fun kind c => ?_
  split
  · exact ih.declaration _ c
  · refine .bind .get fun here c => ?_
    split
    · exact ih.annotated c
    · exact ih.chain _ c

theorem declaration_advances (ih : Progress n) (tag : Tag) (c : Cursor) :
    Advances 1 (declaration (n + 1) tag) c := by
  unfold declaration
  exact .bind .next fun _ c => .bind_first (.expect _ (by decide)) fun _ c =>
    .bind (.expect _ (by decide)) fun _ c => .bind (ih.expression c) fun _ _ => .pure _

theorem annotated_advances (ih : Progress n) (c : Cursor) : Advances 1 (annotated (n + 1)) c := by
  unfold annotated
  refine .bind .next fun _ c => .bind .next fun _ c => .bind .next fun word c => ?_
  split
  · exact .failAt _ _
  · exact .bind (.expect _ (by decide)) fun _ c => .bind_first (ih.expression c) fun _ _ => .pure _

theorem chain_advances (ih : Progress n) (level : Level) (c : Cursor) :
    Advances 1 (chain (n + 1) level) c := by
  unfold chain
  refine .bind .peekKind fun kind c => ?_
  split
  · exact .bind .next fun _ c => .bind_first (ih.chain _ c) fun _ _ => .pure _
  · exact .bind_first (ih.operand level c) fun left c => ih.chainLoop level left c

theorem chainLoop_advances (ih : Progress n) (level : Level) (left : Node) (c : Cursor) :
    Advances 0 (chainLoop (n + 1) level left) c := by
  unfold chainLoop
  refine .bind .peekKind fun kind c => ?_
  split
  · exact .pure _
  · exact .bind .next fun _ c => .bind (ih.operand level c) fun right c => ih.chainLoop level _ c

theorem operand_advances (ih : Progress n) (level : Level) (c : Cursor) :
    Advances 1 (operand (n + 1) level) c := by
  unfold operand
  split
  · exact ih.chain _ c
  · exact ih.factor c

theorem factor_advances (ih : Progress n) (c : Cursor) : Advances 1 (factor (n + 1)) c := by
  unfold factor
  refine .bind .peekKind fun kind c => ?_
  split
  · exact .bind .next fun _ c => .bind_first (ih.factor c) fun _ _ => .pure _
  · exact .bind_first (ih.call c) fun base c => ih.powerLoop base c

theorem powerLoop_advances (ih : Progress n) (base : Node) (c : Cursor) :
    Advances 0 (powerLoop (n + 1) base) c := by
  unfold powerLoop
  refine .bind (.accept _) fun more c => ?_
  split
  · exact .bind (ih.factor c) fun _ c => ih.powerLoop _ c
  · exact .pure _

theorem call_advances (ih : Progress n) (c : Cursor) : Advances 1 (call (n + 1)) c := by
  unfold call
  exact .bind_first (ih.atom c) fun callee c => ih.callLoop callee c

theorem callLoop_advances (ih : Progress n) (callee : Node) (c : Cursor) :
    Advances 0 (callLoop (n + 1) callee) c := by
  unfold callLoop
  refine .bind (.accept _) fun more c => ?_
  split
  · exact .bind (ih.items _ c) fun _ c => .bind (.expect _ (by decide)) fun _ c => ih.callLoop _ c
  · exact .pure _

theorem items_advances (ih : Progress n) (close : TokenKind) (c : Cursor) :
    Advances 0 (items (n + 1) close) c := by
  unfold items
  refine .bind .peekKind fun kind c => ?_
  split
  · exact .pure _
  · exact ih.itemsLoop [] c

theorem itemsLoop_advances (ih : Progress n) (done : List Node) (c : Cursor) :
    Advances 0 (itemsLoop (n + 1) done) c := by
  unfold itemsLoop
  refine .bind (ih.expression c) fun item c => .bind (.accept _) fun more c => ?_
  split
  · exact ih.itemsLoop _ c
  · exact .pure _

theorem atom_advances (ih : Progress n) (c : Cursor) : Advances 1 (atom (n + 1)) c := by
  unfold atom
  refine .peek_at ?_
  split
  all_goals rename_i hk
  iterate 2
    refine .bind_first (.next_of_kind (by simp [hk])) fun _ c => ?_
    split
    · exact .pure _
    · exact .failAt _ _
  · exact .bind_first (.next_of_kind (by simp [hk])) fun _ _ => .pure _
  · exact .bind_first (.next_of_kind (by simp [hk])) fun _ _ => .pure _
  · exact .bind_first (.next_of_kind (by simp [hk])) fun _ c => .bind (ih.expression c) fun _ c =>
      .bind (.expect _ (by decide)) fun _ _ => .pure _
  · exact .bind_first (.next_of_kind (by simp [hk])) fun _ c => .bind (ih.items _ c) fun _ c =>
      .bind (.expect _ (by decide)) fun _ _ => .pure _
  · exact ih.choice c
  · exact ih.forLoop c
  · exact ih.whileLoop c
  · exact ih.function c
  · exact .fail _

theorem choice_advances (ih : Progress n) (c : Cursor) : Advances 1 (choice (n + 1)) c := by
  unfold choice
  exact .bind .next fun _ c => .bind_first (ih.armsLoop [] c) fun _ c =>
    .bind (.spanFrom _) fun _ _ => .pure _

theorem armsLoop_advances (ih : Progress n) (done : List (Arm Node)) (c : Cursor) :
    Advances 1 (armsLoop (n + 1) done) c := by
  unfold armsLoop
  refine .bind_first (ih.expression c) fun condition c =>
    .bind (.expect _ (by decide)) fun _ c => .bind (.accept _) fun block c => ?_
  split
  · refine .bind (ih.statements c) fun body c => .bind (.accept _) fun ended c => ?_
    split
    · exact .pure _
    · refine .bind .peekKind fun kind c => ?_
      split
      · exact ih.moreArms _ c
      · exact ih.moreArms _ c
      · exact .fail _
  · exact .bind (ih.statement c) fun body c => ih.moreArms _ c

theorem moreArms_advances (ih : Progress n) (done : List (Arm Node)) (c : Cursor) :
    Advances 0 (moreArms (n + 1) done) c := by
  unfold moreArms
  refine .bind (.accept _) fun again c => ?_
  split
  · exact (ih.armsLoop done c).mono (Nat.zero_le 1)
  · refine .bind (.accept _) fun last c => ?_
    split
    · exact .bind (ih.branch c) fun _ _ => .pure _
    · exact .pure _

theorem branch_advances (ih : Progress n) (c : Cursor) : Advances 0 (branch (n + 1)) c := by
  unfold branch
  refine .bind (.accept _) fun block c => ?_
  split
  · exact .bind (ih.statements c) fun _ c => .bind (.expect _ (by decide)) fun _ _ => .pure _
  · exact .bind (ih.statement c) fun _ _ => .pure _

theorem forLoop_advances (ih : Progress n) (c : Cursor) : Advances 1 (forLoop (n + 1)) c := by
  unfold forLoop
  refine .bind .next fun keyword c => .bind_first (.expect _ (by decide)) fun name c =>
    .bind (.expect _ (by decide)) fun _ c => .bind (ih.expression c) fun first c =>
    .bind (.expect _ (by decide)) fun _ c => .bind (ih.expression c) fun last c =>
    .bind (e := 0) ?_ fun step c => .bind (.expect _ (by decide)) fun _ c =>
    .bind (ih.branch c) fun body c => .bind (.spanFrom _) fun _ _ => .pure _
  refine .bind (.accept _) fun more c => ?_
  split
  · exact .bind (ih.expression c) fun _ _ => .pure _
  · exact .pure _

theorem whileLoop_advances (ih : Progress n) (c : Cursor) : Advances 1 (whileLoop (n + 1)) c := by
  unfold whileLoop
  exact .bind .next fun _ c => .bind_first (ih.expression c) fun _ c =>
    .bind (.expect _ (by decide)) fun _ c => .bind (ih.branch c) fun _ c =>
    .bind (.spanFrom _) fun _ _ => .pure _

theorem paramsLoop_advances (done : List String) (n : Nat) (c : Cursor) :
    Advances 0 (paramsLoop done n) c := by
  induction n generalizing done c with
  | zero => exact .throw _
  | succ n ih =>
      unfold paramsLoop
      refine .bind (.accept _) fun more c => ?_
      split
      · exact .bind (.expect _ (by decide)) fun _ c => ih _ c
      · exact .pure _

theorem params_advances (n : Nat) (c : Cursor) : Advances 1 (params n) c := by
  unfold params
  refine .bind .peekKind fun kind c => ?_
  split
  · exact .bind .next fun _ c => .bind (paramsLoop_advances _ n c) fun _ c =>
      .bind_first (.expect _ (by decide)) fun _ _ => .pure _
  · exact .bind_first (.expect _ (by decide)) fun _ _ => .pure _

theorem function_advances (ih : Progress n) (c : Cursor) : Advances 1 (function (n + 1)) c := by
  unfold function
  refine .bind .next fun keyword c => .bind (e := 0) ?_ fun name c =>
    .bind_first (.expect _ (by decide)) fun _ c => .bind (params_advances n c) fun params c =>
    .bind (.accept _) fun arrow c => ?_
  · refine .bind .peekKind fun kind c => ?_
    split
    · exact .bind .next fun _ _ => .pure _
    · exact .pure _
  · split
    · exact .bind (ih.expression c) fun _ _ => .pure _
    · exact .bind (.expect _ (by decide)) fun _ c => .bind (ih.statements c) fun _ c =>
        .bind (.expect _ (by decide)) fun _ c => .bind (.spanFrom _) fun _ _ => .pure _

/-- Whatever reads a statement or an expression consumes a token, at any fuel. -/
theorem progress (n : Nat) : Progress n := by
  induction n with
  | zero => exact progress_zero
  | succ n ih =>
      exact {
        statements := statements_advances ih
        statementsLoop := statementsLoop_advances ih
        statement := statement_advances ih
        expression := expression_advances ih
        declaration := declaration_advances ih
        annotated := annotated_advances ih
        chain := chain_advances ih
        chainLoop := chainLoop_advances ih
        operand := operand_advances ih
        factor := factor_advances ih
        powerLoop := powerLoop_advances ih
        call := call_advances ih
        callLoop := callLoop_advances ih
        items := items_advances ih
        itemsLoop := itemsLoop_advances ih
        atom := atom_advances ih
        choice := choice_advances ih
        armsLoop := armsLoop_advances ih
        moreArms := moreArms_advances ih
        branch := branch_advances ih
        forLoop := forLoop_advances ih
        whileLoop := whileLoop_advances ih
        function := function_advances ih }

/-! ## What is read for certain -/

theorem statementsLoop_advances_of_newline (done : List Node) (h : c.peek.kind = .newline) :
    Advances 1 (statementsLoop n done) c := by
  cases n with
  | zero => exact .throw _
  | succ n =>
      refine statementsLoop_advances_of (progress n) done ?_
      rintro _ _ ⟨⟩
      obtain ⟨t, r, hr⟩ := List.exists_cons_of_ne_nil (c.rest_ne_nil (by simp [h]))
      have ht : t.kind = .newline := Cursor.peek_of_rest_cons hr ▸ h
      refine ⟨rfl, c.rest.takeWhile (·.kind = .newline), ?_, ?_⟩
      · exact (List.prefix_iff_eq_append.mp (List.takeWhile_prefix _)).symm
      · simp [hr, ht]

theorem moreArms_advances_of_kind (done : List (Arm Node))
    (h : c.peek.kind = .elifWord ∨ c.peek.kind = .elseWord) :
    Advances 1 (moreArms n done) c := by
  cases n with
  | zero => exact .throw _
  | succ n =>
      unfold moreArms
      rcases h with h | h
      · exact .accept_bind_of_eq h (by decide) fun c =>
          ((progress n).armsLoop done c).mono (Nat.zero_le 1)
      · refine .accept_bind_of_ne (by simp [h]) ?_
        exact .accept_bind_of_eq h (by decide) fun c =>
          .bind ((progress n).branch c) fun _ _ => .pure _

/-- A declaration behind a name has a sign and a value at least. -/
theorem annotated_advances_both : Advances 2 (annotated n) c := by
  cases n with
  | zero => exact .throw _
  | succ n =>
      unfold annotated
      refine .bind .next fun _ c => .bind .next fun _ c => .bind .next fun word c => ?_
      split
      · exact .failAt _ _
      · exact .bind_both (.expect _ (by decide)) fun _ c =>
          .bind_first ((progress n).expression c) fun _ _ => .pure _

end Grammar

end BasicScript
