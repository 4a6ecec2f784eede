import BasicScript.Proofs.Grammar.Joining
import BasicScript.Proofs.Grammar.Reads
import BasicScript.Proofs.Program.Phrases
import Mathlib.Order.CompletePartialOrder

/-! # Reading phrases

Reading neither drops nor adds nor reorders anything: without the newlines and the parentheses that
only group, the tokens read are a phrase of what they are read as. -/

namespace BasicScript

open Token Node

namespace Grammar

variable {α β : Type} {F F' : Language Token} {K : α → Language Token} {L : β → Language Token}
  {c : Cursor}

/-- Behind any phrase of `F`, the tokens from `c` to `c'` complete a phrase of `P`. -/
def Completes (F P : Language Token) (c c' : Cursor) : Prop :=
  ∃ read us, c.rest = read ++ c'.rest ∧ Strips read us ∧ ∀ front ∈ F, front ++ us ∈ P

/-- On success at `c`, what is read completes a phrase of what is yielded. -/
def Writes (F : Language Token) (L : β → Language Token) (r : Reader β) (c : Cursor) : Prop :=
  ∀ b c', r c = .ok b c' → Completes F (L b) c c'

namespace Writes

theorem mono {r : Reader β} (h : Writes F L r c) (hF : F' ≤ F) : Writes F' L r c := by
  intro b c' hr
  obtain ⟨read, us, hread, hstrips, hL⟩ := h b c' hr
  exact ⟨read, us, hread, hstrips, fun front hfront => hL front (hF hfront)⟩

theorem pure {b : β} (h : F ≤ L b) : Writes F L (pure b) c := by
  rintro _ _ ⟨⟩
  refine ⟨[], [], rfl, .nil, fun front hfront => ?_⟩
  rw [List.append_nil]
  exact h hfront

theorem throw {e : Stop} : Writes F L (throw e) c := by
  rintro _ _ ⟨⟩

theorem fail {f : GrammarFault} : Writes F L (fail f) c := by
  rintro _ _ ⟨⟩

theorem failAt {f : GrammarFault} {s : Span} : Writes F L (failAt f s) c := by
  rintro _ _ ⟨⟩

/-- A step that goes on with a phrase, and then one that goes on with what came of it. -/
theorem bind_from {r : Reader α} {f : α → Reader β} (h : Writes F K r c)
    (hf : ∀ a c', Writes (K a) L (f a) c') : Writes F L (r >>= f) c := by
  intro b c'' hb
  obtain ⟨a, c', ha, hb⟩ := ok_of_bind hb
  obtain ⟨read, us, hread, hstrips, hK⟩ := h a c' ha
  obtain ⟨read', us', hread', hstrips', hL⟩ := hf a c' b c'' hb
  refine ⟨read ++ read', us ++ us', ?_, hstrips.append hstrips', fun front hfront => ?_⟩
  · rw [hread, hread', List.append_assoc]
  · rw [← List.append_assoc]
    exact hL _ (hK front hfront)

/-- What is a phrase of its own may stand behind others. -/
theorem frame {r : Reader α} (h : Writes 1 K r c) (F : Language Token) :
    Writes F (F * K ·) r c := by
  intro a c' ha
  obtain ⟨read, us, hread, hstrips, hK⟩ := h a c' ha
  exact ⟨read, us, hread, hstrips, fun front hfront =>
    Language.append_mem_mul hfront (hK [] Language.nil_mem_one)⟩

theorem bind {r : Reader α} {f : α → Reader β} (h : Writes 1 K r c)
    (hf : ∀ a c', Writes (F * K a) L (f a) c') : Writes F L (r >>= f) c :=
  (h.frame F).bind_from hf

theorem peek_bind {f : Token → Reader β} (h : Writes F L (f c.peek) c) :
    Writes F L (peek >>= f) c :=
  h

theorem peekKind_bind {f : TokenKind → Reader β} (h : Writes F L (f c.peek.kind) c) :
    Writes F L (peekKind >>= f) c :=
  h

theorem get_bind {f : Cursor → Reader β} (h : Writes F L (f c) c) :
    Writes F L ((get : Reader Cursor) >>= f) c :=
  h

theorem spanFrom_bind {s : Span} {f : Span → Reader β} (h : ∀ s, Writes F L (f s) c) :
    Writes F L (spanFrom s >>= f) c :=
  h _

theorem skipNewlines_bind {f : Unit → Reader β} (h : ∀ c', Writes F L (f ()) c') :
    Writes F L (skipNewlines >>= f) c := by
  intro b c' hb
  obtain ⟨read, us, hread, hstrips, hL⟩ := h _ b c' hb
  have hblank : ∀ t ∈ c.rest.takeWhile (·.kind = .newline), t.kind = .newline := fun t ht => by
    simpa using List.all_eq_true.mp List.all_takeWhile t ht
  refine ⟨c.rest.takeWhile (·.kind = .newline) ++ read, us, ?_,
    (Strips.newlines hblank).append hstrips, hL⟩
  rw [List.append_assoc, ← hread, Cursor.rest_behindNewlines, List.takeWhile_append_dropWhile]

/-! ### Steps over one token -/

section Token

variable {k : TokenKind} {f : Token → Reader β} {fault : GrammarFault}

/-- The kinds that are neither left out nor part of a pair. -/
def Kept (k : TokenKind) : Prop :=
  k ≠ .endOfInput ∧ k ≠ .newline ∧ k ≠ .leftParen ∧ k ≠ .rightParen

instance (k : TokenKind) : Decidable (Kept k) :=
  inferInstanceAs (Decidable (_ ∧ _))

theorem advance {p : Token → Prop} {r : Reader β} (hk : Kept c.peek.kind) (hp : p c.peek)
    (h : Writes (F * single p) L r c.advance) {b : β} {c' : Cursor}
    (hb : r c.advance = .ok b c') : Completes F (L b) c c' := by
  obtain ⟨t, rest, hr⟩ := List.exists_cons_of_ne_nil (Cursor.rest_ne_nil hk.1)
  obtain ⟨read, us, hread, hstrips, hL⟩ := h b c' hb
  rw [Cursor.advance_of_rest_cons hr] at hread
  rw [Cursor.peek_of_rest_cons hr] at hk hp
  refine ⟨t :: read, t :: us, ?_, .keep hk.2.1 hk.2.2.1 hk.2.2.2 hstrips, fun front hfront => ?_⟩
  · rw [hr, List.cons_append]
    exact congrArg (t :: ·) hread
  · rw [List.append_cons]
    exact hL _ (Language.append_mem_mul hfront (mem_single hp))

/-- A newline is left out. -/
theorem advance_newline {r : Reader β} (hk : c.peek.kind = .newline)
    (h : Writes F L r c.advance) {b : β} {c' : Cursor} (hb : r c.advance = .ok b c') :
    Completes F (L b) c c' := by
  obtain ⟨t, rest, hr⟩ := List.exists_cons_of_ne_nil (Cursor.rest_ne_nil (c := c) (by simp [hk]))
  obtain ⟨read, us, hread, hstrips, hL⟩ := h b c' hb
  rw [Cursor.advance_of_rest_cons hr] at hread
  rw [Cursor.peek_of_rest_cons hr] at hk
  refine ⟨t :: read, us, ?_, .newline hk hstrips, hL⟩
  rw [hr, List.cons_append]
  exact congrArg (t :: ·) hread

theorem next_bind_of {p : Token → Prop} (hk : Kept c.peek.kind) (hp : p c.peek)
    (hf : Writes (F * single p) L (f c.peek) c.advance) : Writes F L (next >>= f) c :=
  fun _ _ => advance hk hp hf

theorem next_bind (hk : c.peek.kind = k) (hkept : Kept k)
    (hf : ∀ t c', Writes (F * word k) L (f t) c') : Writes F L (next >>= f) c :=
  next_bind_of (hk ▸ hkept) hk (hf c.peek c.advance)

theorem next_name_bind (hk : c.peek.kind = .identifier)
    (hf : ∀ t c', Writes (F * named t.textOrEmpty) L (f t) c') : Writes F L (next >>= f) c :=
  next_bind_of (hk ▸ by decide) ⟨hk, rfl⟩ (hf c.peek c.advance)

theorem expect_bind (hkept : Kept k) (hf : ∀ t c', Writes (F * word k) L (f t) c') :
    Writes F L (expect k fault >>= f) c := by
  intro b c' hb
  rw [Grammar.expect_bind] at hb
  split at hb
  · rename_i hk
    exact next_bind hk hkept hf b c' hb
  · cases hb

theorem expect_name_bind (hf : ∀ t c', Writes (F * named t.textOrEmpty) L (f t) c') :
    Writes F L (expect .identifier fault >>= f) c := by
  intro b c' hb
  rw [Grammar.expect_bind] at hb
  split at hb
  · rename_i hk
    exact next_name_bind hk hf b c' hb
  · cases hb

theorem expect_newline_bind (hf : ∀ t c', Writes F L (f t) c') :
    Writes F L (expect .newline fault >>= f) c := by
  intro b c' hb
  rw [Grammar.expect_bind] at hb
  split at hb
  · rename_i hk
    exact advance_newline hk (hf _ _) hb
  · cases hb

theorem accept_bind {f : Bool → Reader β} (hkept : Kept k)
    (htrue : ∀ c', Writes (F * word k) L (f true) c')
    (hfalse : c.peek.kind ≠ k → Writes F L (f false) c) : Writes F L (accept k >>= f) c := by
  intro b c' hb
  rw [Grammar.accept_bind] at hb
  split at hb
  · rename_i hk
    exact advance (hk ▸ hkept) hk (htrue c.advance) hb
  · rename_i hk
    exact hfalse hk b c' hb

theorem accept_newline_bind {f : Bool → Reader β} (htrue : ∀ c', Writes F L (f true) c')
    (hfalse : Writes F L (f false) c) : Writes F L (accept .newline >>= f) c := by
  intro b c' hb
  rw [Grammar.accept_bind] at hb
  split at hb
  · rename_i hk
    exact advance_newline hk (htrue c.advance) hb
  · exact hfalse b c' hb

end Token

/-! ### Pairs of parentheses -/

section Pair

variable {r : Reader α} {fault : α → GrammarFault} {f : α → Token → Reader β}

/-- What stands between two parentheses is read in one piece. -/
theorem pair (ho : c.peek.kind = .leftParen) (hr : Writes 1 K r c.advance) {b : β} {c' : Cursor}
    (hb : (r >>= fun a => expect .rightParen (fault a) >>= f a) c.advance = .ok b c') :
    ∃ a c₁ inner us opening closing, f a closing c₁ = .ok b c' ∧
      c.rest = opening :: (inner ++ closing :: c₁.rest) ∧ opening.kind = .leftParen ∧
      closing.kind = .rightParen ∧ Strips inner us ∧ us ∈ K a := by
  obtain ⟨opening, rest, hrest⟩ :=
    List.exists_cons_of_ne_nil (Cursor.rest_ne_nil (c := c) (by simp [ho]))
  obtain ⟨a, c₁, ha, hb⟩ := ok_of_bind hb
  obtain ⟨inner, us, hinner, hstrips, hK⟩ := hr a c₁ ha
  rw [Grammar.expect_bind] at hb
  split at hb
  · rename_i hc
    obtain ⟨closing, rest', hrest'⟩ :=
      List.exists_cons_of_ne_nil (Cursor.rest_ne_nil (c := c₁) (by simp [hc]))
    rw [Cursor.peek_of_rest_cons hrest'] at hb hc
    rw [Cursor.peek_of_rest_cons hrest] at ho
    rw [Cursor.advance_of_rest_cons hrest, hrest'] at hinner
    refine ⟨a, c₁.advance, inner, us, opening, closing, hb, ?_, ho, hc, hstrips,
      hK [] Language.nil_mem_one⟩
    rw [Cursor.advance_of_rest_cons hrest', hrest]
    exact congrArg (opening :: ·) hinner
  · cases hb

/-- The parentheses of a call or of parameters are kept. -/
theorem enclosed (ho : c.peek.kind = .leftParen) (hr : ∀ c', Writes 1 K r c')
    (hf : ∀ a t c', Writes (F * word .leftParen * K a * word .rightParen) L (f a t) c') {b : β}
    {c' : Cursor}
    (hb : (r >>= fun a => expect .rightParen (fault a) >>= f a) c.advance = .ok b c') :
    Completes F (L b) c c' := by
  obtain ⟨a, c₁, inner, us, opening, closing, hb, hrest, hopening, hclosing, hstrips, hK⟩ :=
    pair ho (hr _) hb
  obtain ⟨read, us', hread, hstrips', hL⟩ := hf a closing c₁ b c' hb
  refine ⟨opening :: (inner ++ closing :: read), opening :: (us ++ closing :: us'), ?_,
    .enclosed hopening hclosing hstrips hstrips', fun front hfront => ?_⟩
  · simp [hrest, hread]
  · have hmem := hL _ (Language.append_mem_mul (Language.append_mem_mul
      (Language.append_mem_mul hfront (mem_single hopening)) hK) (mem_single hclosing))
    simpa using hmem

/-- Parentheses that group are left out. -/
theorem grouped (ho : c.peek.kind = .leftParen) (hr : ∀ c', Writes 1 K r c')
    (hf : ∀ a t c', Writes (F * K a) L (f a t) c') :
    Writes F L (next >>= fun _ => r >>= fun a => expect .rightParen (fault a) >>= f a) c := by
  intro b c' hb
  obtain ⟨a, c₁, inner, us, opening, closing, hb, hrest, hopening, hclosing, hstrips, hK⟩ :=
    pair ho (hr _) hb
  obtain ⟨read, us', hread, hstrips', hL⟩ := hf a closing c₁ b c' hb
  refine ⟨opening :: (inner ++ closing :: read), us ++ us', ?_,
    .grouped hopening hclosing hstrips hstrips', fun front hfront => ?_⟩
  · simp [hrest, hread]
  · rw [← List.append_assoc]
    exact hL _ (Language.append_mem_mul hfront hK)

end Pair

end Writes

/-- Expressions that are followed by a comma each. -/
def ledItems (xs : List Node) : Language Token :=
  led (word .comma) (xs.map phrases)

/-- Arms that are followed by `ELIF` each. -/
def ledArms (as : List (Arm Node)) : Language Token :=
  led (word .elifWord) (as.map armPhrase)

/-- The clauses of an `IF` up to its end. -/
def clausePhrases (clauses : List (Arm Node) × Option (Branch Node)) : Language Token :=
  armPhrases clauses.1 * elsePhrases clauses.2 * ending (endsInBlock clauses.1 clauses.2)

/-- A branch up to its end. -/
def branchPhrases (b : Branch Node) : Language Token :=
  bodyPhrases b * ending b.block

/-- What each function of the grammar, with fuel `n`, makes a phrase of. -/
structure Writing (n : Nat) : Prop where
  statements : ∀ c, Writes 1 blockPhrases (statements n) c
  statementsLoop : ∀ done c,
    Writes (linePhrases done.reverse) linePhrases (statementsLoop n done) c
  statement : ∀ c, Writes 1 phrases (statement n) c
  expression : ∀ c, Writes 1 phrases (expression n) c
  declaration : ∀ {tag c}, tag? c.peek.kind = some tag → Writes 1 phrases (declaration n tag) c
  annotated : ∀ {c}, c.peek.kind = .identifier → c.peekSecond.kind = .colon →
    Writes 1 phrases (annotated n) c
  chain : ∀ level c, Writes 1 phrases (chain n level) c
  chainLoop : ∀ level left c, Writes left.phrases phrases (chainLoop n level left) c
  operand : ∀ level c, Writes 1 phrases (operand n level) c
  factor : ∀ c, Writes 1 phrases (factor n) c
  powerLoop : ∀ base c, Writes base.phrases phrases (powerLoop n base) c
  call : ∀ c, Writes 1 phrases (call n) c
  callLoop : ∀ callee c, Writes callee.phrases phrases (callLoop n callee) c
  items : ∀ close c, Writes 1 itemPhrases (items n close) c
  itemsLoop : ∀ done c, Writes (ledItems done.reverse) itemPhrases (itemsLoop n done) c
  atom : ∀ c, Writes 1 phrases (atom n) c
  choice : ∀ {c}, c.peek.kind = .ifWord → Writes 1 phrases (choice n) c
  armsLoop : ∀ done c, Writes (ledArms done.reverse) clausePhrases (armsLoop n done) c
  moreArms : ∀ {a} done {c}, (a.branch.block = true → c.peek.kind = .elifWord ∨
      c.peek.kind = .elseWord) →
    Writes (armPhrases (a :: done).reverse) clausePhrases (moreArms n (a :: done)) c
  branch : ∀ c, Writes 1 branchPhrases (branch n) c
  forLoop : ∀ {c}, c.peek.kind = .forWord → Writes 1 phrases (forLoop n) c
  whileLoop : ∀ {c}, c.peek.kind = .whileWord → Writes 1 phrases (whileLoop n) c
  function : ∀ {c}, c.peek.kind = .fnWord → Writes 1 phrases (function n) c

theorem writing_zero : Writing 0 := by
  constructor <;> intros <;> exact .throw

theorem kind_of_tag? {k : TokenKind} {tag : Tag} (h : tag? k = some tag) : k = tag.kind := by
  cases k <;> cases h <;> rfl

theorem kind_of_operator? {level : Level} {k : TokenKind} {op : BinaryOp}
    (h : level.operator? k = some op) : k = op.symbol.kind := by
  cases level <;> cases k <;> cases h <;> rfl

theorem kept_tag (tag : Tag) : Writes.Kept tag.kind := by
  cases tag <;> decide

theorem kept_operator (op : BinaryOp) : Writes.Kept op.symbol.kind := by
  cases op <;> decide

section

variable {n : Nat} (ih : Writing n)

include ih

theorem statements_writes (c : Cursor) : Writes 1 blockPhrases (statements (n + 1)) c := by
  unfold statements
  refine .peek_bind (.bind (K := linePhrases) (ih.statementsLoop [] c) fun lines c => .pure ?_)
  rw [one_mul]
  exact le_rfl

theorem statementsLoop_writes (done : List Node) (c : Cursor) :
    Writes (linePhrases done.reverse) linePhrases (statementsLoop (n + 1) done) c := by
  have hdone (line : Node) :
      linePhrases done.reverse * line.phrases = linePhrases (line :: done).reverse := by
    simp [linePhrases_eq]
  unfold statementsLoop
  refine .skipNewlines_bind fun c => .peekKind_bind ?_
  split
  · exact .pure le_rfl
  · refine .bind (ih.statement c) fun line c => .peekKind_bind ?_
    rw [hdone line]
    split
    · exact ih.statementsLoop _ c
    · exact .pure le_rfl

theorem statement_writes (c : Cursor) : Writes 1 phrases (statement (n + 1)) c := by
  unfold statement
  refine .peekKind_bind ?_
  split
  · rename_i hk
    refine .next_bind hk (by decide) fun keyword c => .peekKind_bind ?_
    rw [one_mul]
    split
    · exact .bind (ih.expression c) fun value c => .pure le_rfl
    · exact .pure (mul_one (word .returnWord)).ge
  · rename_i hk
    exact .next_bind hk (by decide) fun _ _ => .pure (one_mul (word .continueWord)).le
  · rename_i hk
    exact .next_bind hk (by decide) fun _ _ => .pure (one_mul (word .breakWord)).le
  · exact ih.expression c

theorem expression_writes (c : Cursor) : Writes 1 phrases (expression (n + 1)) c := by
  unfold expression
  refine .peekKind_bind ?_
  split
  · rename_i tag htag
    exact ih.declaration htag
  · refine .get_bind ?_
    split
    · rename_i hk
      exact ih.annotated hk.1 hk.2
    · exact ih.chain _ c

theorem declaration_writes {tag : Tag} {c : Cursor} (htag : tag? c.peek.kind = some tag) :
    Writes 1 phrases (declaration (n + 1) tag) c := by
  unfold declaration
  refine .next_bind (kind_of_tag? htag) (kept_tag tag) fun keyword c =>
    .expect_name_bind fun name c => .expect_bind (by decide) fun _ c =>
    .bind (ih.expression c) fun value c => .pure ?_
  rw [one_mul, phrases]
  gcongr
  exact le_self_add

theorem annotated_writes {c : Cursor} (hname : c.peek.kind = .identifier)
    (hcolon : c.peekSecond.kind = .colon) : Writes 1 phrases (annotated (n + 1)) c := by
  rw [Cursor.peekSecond_eq (Cursor.rest_ne_nil (by simp [hname]))] at hcolon
  unfold annotated
  refine .next_bind_of (p := fun t => t.kind = .identifier ∧ t.textOrEmpty = c.peek.textOrEmpty)
    (hname ▸ by decide) ⟨hname, rfl⟩ (.next_bind hcolon (by decide) fun _ c₁ x c' h => ?_)
  rw [next_bind] at h
  cases htag : tag? c₁.peek.kind with
  | none =>
    rw [htag] at h
    cases h
  | some tag =>
    rw [htag] at h
    have hk := kind_of_tag? htag
    refine Writes.advance (p := (·.kind = tag.kind)) (hk ▸ kept_tag tag) hk
      (.expect_bind (by decide) fun _ c => .bind (ih.expression c) fun value c => .pure ?_) h
    rw [one_mul, phrases]
    gcongr
    exact le_add_self

theorem chain_writes (level : Level) (c : Cursor) : Writes 1 phrases (chain (n + 1) level) c := by
  unfold chain
  refine .peekKind_bind ?_
  split
  · rename_i hk
    refine .next_bind hk.2 (by decide) fun _ c => .bind (ih.chain _ c) fun operand c => .pure ?_
    rw [one_mul]
    exact le_rfl
  · refine .bind (ih.operand level c) fun left c => ?_
    rw [one_mul]
    exact ih.chainLoop level left c

theorem chainLoop_writes (level : Level) (left : Node) (c : Cursor) :
    Writes left.phrases phrases (chainLoop (n + 1) level left) c := by
  unfold chainLoop
  refine .peekKind_bind ?_
  split
  · exact .pure le_rfl
  · rename_i op hop
    exact .next_bind (kind_of_operator? hop) (kept_operator op) fun _ c =>
      .bind (ih.operand level c) fun right c => ih.chainLoop level (binaryNode op left right) c

theorem operand_writes (level : Level) (c : Cursor) :
    Writes 1 phrases (operand (n + 1) level) c := by
  unfold operand
  split
  · exact ih.chain _ c
  · exact ih.factor c

theorem factor_writes (c : Cursor) : Writes 1 phrases (factor (n + 1)) c := by
  unfold factor
  refine .peekKind_bind ?_
  split
  · rename_i hk
    refine .next_bind hk (by decide) fun _ c => .bind (ih.factor c) fun operand c => .pure ?_
    rw [one_mul]
    exact le_rfl
  · refine .bind (ih.call c) fun base c => ?_
    rw [one_mul]
    exact ih.powerLoop base c

theorem powerLoop_writes (base : Node) (c : Cursor) :
    Writes base.phrases phrases (powerLoop (n + 1) base) c := by
  unfold powerLoop
  exact .accept_bind (by decide) (fun c => .bind (ih.factor c) fun exponent c =>
    ih.powerLoop (binaryNode .power base exponent) c) fun _ => .pure le_rfl

theorem call_writes (c : Cursor) : Writes 1 phrases (call (n + 1)) c := by
  unfold call
  refine .bind (ih.atom c) fun callee c => ?_
  rw [one_mul]
  exact ih.callLoop callee c

theorem callLoop_writes (callee : Node) (c : Cursor) :
    Writes callee.phrases phrases (callLoop (n + 1) callee) c := by
  unfold callLoop
  intro w c' h
  rw [accept_bind] at h
  split at h
  · rename_i hk
    exact Writes.enclosed hk (fun c => ih.items _ c)
      (fun args close c => ih.callLoop (.call callee args _) c) h
  · exact Writes.pure le_rfl w c' h

theorem items_writes (close : TokenKind) (c : Cursor) :
    Writes 1 itemPhrases (items (n + 1) close) c := by
  unfold items
  refine .peekKind_bind ?_
  split
  · exact .pure le_rfl
  · exact ih.itemsLoop [] c

theorem itemsLoop_writes (done : List Node) (c : Cursor) :
    Writes (ledItems done.reverse) itemPhrases (itemsLoop (n + 1) done) c := by
  have hdone (item : Node) :
      ledItems done.reverse * item.phrases = itemPhrases (item :: done).reverse := by
    simp [ledItems, itemPhrases_eq, joined_concat]
  unfold itemsLoop
  refine .bind (ih.expression c) fun item c => ?_
  rw [hdone item]
  refine .accept_bind (by decide) (fun c => ?_) fun _ => .pure le_rfl
  have hled : itemPhrases (item :: done).reverse * word .comma =
      ledItems (item :: done).reverse := by
    simp [ledItems, itemPhrases_eq, led_concat_eq]
  rw [hled]
  exact ih.itemsLoop _ c

theorem atom_writes (c : Cursor) : Writes 1 phrases (atom (n + 1)) c := by
  unfold atom
  refine .peek_bind ?_
  split
  all_goals rename_i hk
  iterate 2
    split
    · rename_i value hvalue
      exact .next_bind_of (hk ▸ by decide) ⟨by simp [hk], hvalue⟩ (.pure (one_mul (numeral _)).le)
    · exact .next_bind_of (p := fun _ => True) (hk ▸ by decide) trivial .failAt
  · exact .next_bind_of (hk ▸ by decide) ⟨hk, rfl⟩ (.pure (one_mul (quoted _)).le)
  · exact .next_bind_of (hk ▸ by decide) ⟨hk, rfl⟩ (.pure (one_mul (named _)).le)
  · exact .grouped hk ih.expression fun inner t c =>
      .pure (one_mul inner.phrases).le
  · refine .next_bind hk (by decide) fun _ c => .bind (ih.items _ c) fun elements c =>
      .expect_bind (by decide) fun _ c => .pure ?_
    rw [one_mul]
    exact le_rfl
  · exact ih.choice hk
  · exact ih.forLoop hk
  · exact ih.whileLoop hk
  · exact ih.function hk
  · exact .fail

theorem choice_writes {c : Cursor} (hk : c.peek.kind = .ifWord) :
    Writes 1 phrases (choice (n + 1)) c := by
  unfold choice
  refine .next_bind hk (by decide) fun _ c => .bind (K := clausePhrases) (ih.armsLoop [] c)
    fun clauses c => .spanFrom_bind fun _ => .pure ?_
  rw [one_mul]
  exact le_rfl

theorem armsLoop_writes (done : List (Arm Node)) (c : Cursor) :
    Writes (ledArms done.reverse) clausePhrases (armsLoop (n + 1) done) c := by
  have hdone (condition body : Node) (block : Bool) :
      ledArms done.reverse * condition.phrases * word .thenWord * bodyPhrases ⟨body, block⟩ =
        armPhrases (⟨condition, body, block⟩ :: done).reverse := by
    simp [ledArms, armPhrases_eq, joined_concat, armPhrase, mul_assoc]
  unfold armsLoop
  refine .bind (ih.expression c) fun condition c => .expect_bind (by decide) fun _ c =>
    .accept_newline_bind (fun c => .bind (ih.statements c) fun body c => ?_)
      (.bind (ih.statement c) fun body c => ?_)
  · refine .mono ?_ (hdone condition body true).le
    refine .accept_bind (by decide) (fun c => .pure ?_) fun _ => .peekKind_bind ?_
    · simp [clausePhrases, elsePhrases, endsInBlock, ending]
    · split
      · rename_i hk
        exact ih.moreArms done fun _ => .inl hk
      · rename_i hk
        exact ih.moreArms done fun _ => .inr hk
      · exact .fail
  · exact (ih.moreArms done (by simp)).mono (hdone condition body false).le

theorem moreArms_writes {a : Arm Node} (done : List (Arm Node)) {c : Cursor}
    (ha : a.branch.block = true → c.peek.kind = .elifWord ∨ c.peek.kind = .elseWord) :
    Writes (armPhrases (a :: done).reverse) clausePhrases (moreArms (n + 1) (a :: done)) c := by
  unfold moreArms
  refine .accept_bind (by decide) (fun c => ?_) fun helif =>
    .accept_bind (by decide) (fun c => .bind (ih.branch c) fun otherwise c => .pure ?_)
      fun helse => .pure ?_
  · have hled : armPhrases (a :: done).reverse * word .elifWord = ledArms (a :: done).reverse := by
      simp [ledArms, armPhrases_eq, led_concat_eq]
    rw [hled]
    exact ih.armsLoop _ c
  · simp [clausePhrases, branchPhrases, elsePhrases, endsInBlock, mul_assoc]
  · have hblock : a.branch.block = false := by
      rw [← Bool.not_eq_true]
      exact fun hblock => (ha hblock).elim helif helse
    simp [clausePhrases, elsePhrases, endsInBlock, ending, hblock]

theorem branch_writes (c : Cursor) : Writes 1 branchPhrases (branch (n + 1)) c := by
  unfold branch
  refine .accept_newline_bind (fun c => .bind (ih.statements c) fun body c =>
    .expect_bind (by decide) fun _ c => .pure ?_) (.bind (ih.statement c) fun body c => .pure ?_)
  · rw [one_mul]
    exact le_rfl
  · simp [branchPhrases, bodyPhrases, ending]

theorem forLoop_writes {c : Cursor} (hk : c.peek.kind = .forWord) :
    Writes 1 phrases (forLoop (n + 1)) c := by
  unfold forLoop
  refine .next_bind hk (by decide) fun keyword c => .expect_name_bind fun name c =>
    .expect_bind (by decide) fun _ c => .bind (ih.expression c) fun first c =>
    .expect_bind (by decide) fun _ c => .bind (ih.expression c) fun last c =>
    .bind (K := stepPhrases) ?_ fun step c => .expect_bind (by decide) fun _ c =>
    .bind (ih.branch c) fun body c => .spanFrom_bind fun _ => .pure ?_
  · refine .accept_bind (by decide) (fun c => .bind (ih.expression c) fun step c => .pure ?_)
      fun _ => .pure le_rfl
    rw [one_mul]
    exact le_rfl
  · rw [one_mul]
    exact le_rfl

theorem whileLoop_writes {c : Cursor} (hk : c.peek.kind = .whileWord) :
    Writes 1 phrases (whileLoop (n + 1)) c := by
  unfold whileLoop
  refine .next_bind hk (by decide) fun keyword c => .bind (ih.expression c) fun condition c =>
    .expect_bind (by decide) fun _ c => .bind (ih.branch c) fun body c =>
    .spanFrom_bind fun _ => .pure ?_
  rw [one_mul]
  exact le_rfl

omit ih in
theorem paramsLoop_writes (x : String) (done : List String) (n : Nat) (c : Cursor) :
    Writes (paramPhrases (x :: done).reverse) paramPhrases (paramsLoop (x :: done) n) c := by
  induction n generalizing x done c with
  | zero => exact .throw
  | succ n ih =>
      unfold paramsLoop
      refine .accept_bind (by decide) (fun c => .expect_name_bind fun param c => ?_)
        fun _ => .pure le_rfl
      refine (ih param.textOrEmpty (x :: done) c).mono (le_of_eq ?_)
      simp only [paramPhrases, List.reverse_cons, List.map_append, List.map_cons, List.map_nil]
      rw [← led_concat_eq, joined_concat]

/-- The names of the parameters, and what is missing if nothing closes them. -/
def paramNames (n : Nat) : Reader (List String × GrammarFault) := do
  if (← peekKind) = .identifier then
    let first ← next
    return (← paramsLoop [first.textOrEmpty] n, .paramsEnd)
  else return ([], .noParamsEnd)

omit ih in
theorem params_eq (n : Nat) :
    params n = paramNames n >>= fun p => expect .rightParen p.2 >>= fun _ => pure p.1 := by
  unfold params paramNames
  simp only [bind_assoc]
  congr
  funext kind
  split <;> simp

omit ih in
theorem paramNames_writes (n : Nat) (c : Cursor) :
    Writes 1 (fun p => paramPhrases p.1) (paramNames n) c := by
  unfold paramNames
  refine .peekKind_bind ?_
  split
  · rename_i hk
    refine .next_name_bind hk fun first c => ?_
    rw [one_mul]
    refine .bind_from ((paramsLoop_writes first.textOrEmpty [] n c).mono ?_) fun names c =>
      .pure le_rfl
    simp [paramPhrases, joined]
  · exact .pure le_rfl

theorem function_writes {c : Cursor} (hk : c.peek.kind = .fnWord) :
    Writes 1 phrases (function (n + 1)) c := by
  unfold function
  rw [params_eq]
  refine .next_bind hk (by decide) fun keyword c => .bind (K := fun name => name.elim 1 named) ?_
    fun name c => ?_
  · refine .peekKind_bind ?_
    split
    · rename_i hk
      exact .next_name_bind hk fun name c => .pure (one_mul (named _)).le
    · exact .pure le_rfl
  · intro x c' h
    rw [expect_bind] at h
    split at h
    · rename_i hopen
      simp only [bind_assoc, pure_bind] at h
      refine Writes.enclosed hopen (paramNames_writes n) (fun params _ c => ?_) h
      refine .accept_bind (by decide) (fun c => .bind (ih.expression c) fun body c => .pure ?_)
        fun _ => .expect_newline_bind fun _ c => .bind (ih.statements c) fun body c =>
          .expect_bind (by decide) fun _ c => .spanFrom_bind fun _ => .pure ?_
      · simp [phrases, mul_assoc]
      · simp [phrases, mul_assoc]
    · cases h

end

theorem writing (n : Nat) : Writing n := by
  induction n with
  | zero => exact writing_zero
  | succ n ih =>
      exact {
        statements := statements_writes ih
        statementsLoop := statementsLoop_writes ih
        statement := statement_writes ih
        expression := expression_writes ih
        declaration := declaration_writes ih
        annotated := annotated_writes ih
        chain := chain_writes ih
        chainLoop := chainLoop_writes ih
        operand := operand_writes ih
        factor := factor_writes ih
        powerLoop := powerLoop_writes ih
        call := call_writes ih
        callLoop := callLoop_writes ih
        items := items_writes ih
        itemsLoop := itemsLoop_writes ih
        atom := atom_writes ih
        choice := choice_writes ih
        armsLoop := armsLoop_writes ih
        moreArms := moreArms_writes ih
        branch := branch_writes ih
        forLoop := forLoop_writes ih
        whileLoop := whileLoop_writes ih
        function := function_writes ih }

theorem program_writes (n : Nat) (c : Cursor) : Writes 1 blockPhrases (program n) c := by
  unfold program
  refine .bind_from ((writing n).statements c) fun lines c => .peekKind_bind ?_
  split
  · exact .pure le_rfl
  · exact .fail

end Grammar

namespace Node

open Grammar

/-- Without its end, its newlines and some pairs of parentheses that match, a token list that is
read as a program is a phrase of that program. -/
theorem ofTokens_yields_phrase {ts : List Token} {finish : Token} {x : Node}
    (hts : ∀ t ∈ ts, t.kind ≠ .endOfInput) (hfinish : finish.kind = .endOfInput)
    (h : ofTokens (ts ++ [finish]) = .ok x) : ∃ us, Strips ts us ∧ us ∈ x.blockPhrases := by
  have hrest := Cursor.rest_ofTokens hts hfinish []
  obtain ⟨c, h⟩ := ofTokens_eq_ok_iff.mp h
  have hc : c.rest = [] := by
    obtain ⟨lines, c', hlines, h'⟩ := ok_of_bind h
    rw [Grammar.peekKind_bind] at h'
    split at h'
    · rename_i hk
      cases h'
      exact Cursor.rest_eq_nil ((progress _).statements _ _ _ hlines) hk
    · cases h'
  obtain ⟨read, us, hread, hstrips, hus⟩ := program_writes _ _ x c h
  rw [hrest, hc, List.append_nil] at hread
  exact ⟨us, hread ▸ hstrips, hus [] Language.nil_mem_one⟩

theorem ofTokens_yields_phrase_grouped :
    let ts := [Symbol.name "x", .mark .colon, .word .num, .mark .assign, .mark .leftParen,
      .name "f", .mark .leftParen, .number (.int 1), .mark .rightParen, .mark .rightParen,
      .mark .newline, .word .ifWord, .name "x", .word .thenWord, .mark .newline, .word .breakWord,
      .mark .newline, .word .endWord].map Symbol.token
    ∃ x, (∀ t ∈ ts, t.kind ≠ .endOfInput) ∧ ofTokens (ts ++ [default]) = .ok x ∧
      ∃ us, Strips ts us ∧ us ∈ x.blockPhrases := by
  intro ts
  have hts : ∀ t ∈ ts, t.kind ≠ .endOfInput := by decide
  have hread : (ofTokens (ts ++ [default])).map (fun _ => ()) = .ok () := by decide +kernel
  obtain ⟨x, hx, -⟩ := ok_of_map hread
  exact ⟨x, hts, hx, ofTokens_yields_phrase hts rfl hx⟩

end Node

end BasicScript
