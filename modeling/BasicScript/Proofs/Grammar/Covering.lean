import BasicScript.Proofs.Grammar.Alone
import BasicScript.Proofs.Grammar.Phrases
import BasicScript.Proofs.Grammar.Stepping
import BasicScript.Proofs.Program.Forms

/-! # What spans cover

The span of a node covers the tokens that it is read from, up to parentheses at their ends: those of
its first and its last part are outside, as no node has them. -/

namespace BasicScript

open Token Node

namespace Cursor

variable {c c' c₁ c₂ : Cursor} {s s' : Span}

/-- `s` covers the tokens between two cursors, apart from opening parentheses in front and closing
ones behind, and does not start with a closing one. -/
def Covers (c c' : Cursor) (s : Span) : Prop :=
  ∃ front core back first last, c.rest = front ++ (core ++ (back ++ c'.rest)) ∧
    core.head? = some first ∧ core.getLast? = some last ∧
    (∀ t ∈ front, t.kind = .leftParen) ∧ (∀ t ∈ back, t.kind = .rightParen) ∧
    s = ⟨first.span.start, last.span.stop⟩ ∧ first.kind ≠ .rightParen

/-- `s` ends with the tokens between two cursors, apart from closing parentheses behind. -/
def Closes (c c' : Cursor) (s : Span) : Prop :=
  ∃ core back last, c.rest = core ++ (back ++ c'.rest) ∧ core.getLast? = some last ∧
    (∀ t ∈ back, t.kind = .rightParen) ∧ s.stop = last.span.stop

theorem Closes.token (h : c.peek.kind ≠ .endOfInput) : c.Closes c.advance c.peek.span := by
  obtain ⟨t, r, hr⟩ := List.exists_cons_of_ne_nil (rest_ne_nil h)
  rw [peek_of_rest_cons hr, advance_of_rest_cons hr]
  exact ⟨[t], [], t, by simp [hr], rfl, by simp, rfl⟩

namespace Covers

theorem token (h : c.peek.kind ≠ .endOfInput ∧ c.peek.kind ≠ .rightParen) :
    c.Covers c.advance c.peek.span := by
  obtain ⟨t, r, hr⟩ := List.exists_cons_of_ne_nil (rest_ne_nil h.1)
  rw [peek_of_rest_cons hr] at h
  rw [peek_of_rest_cons hr, advance_of_rest_cons hr]
  exact ⟨[], [t], [], t, t, by simp [hr], rfl, rfl, by simp, by simp, rfl, h.2⟩

theorem closes (h : c.Covers c' s) : c.Closes c' s := by
  obtain ⟨front, core, back, first, last, hrest, -, hlast, -, hback, rfl, -⟩ := h
  exact ⟨front ++ core, back, last, by simp [hrest], by simp [hlast], hback, rfl⟩

theorem joined (h : c.Covers c₁ s) (hr : c₁.Reaches 0 c₂) (h' : c₂.Closes c' s') :
    c.Covers c' (s.through s') := by
  obtain ⟨front, core, back, first, last, hrest, hfirst, -, hfront, -, rfl, hkind⟩ := h
  obtain ⟨core', back', last', hrest', hlast', hback', hstop⟩ := h'
  obtain ⟨-, read, hread, -⟩ := hr
  refine ⟨front, core ++ (back ++ (read ++ core')), back', first, last', ?_, ?_, ?_, hfront, hback',
    ?_, hkind⟩
  · simp [hrest, hread, hrest']
  · simp [hfirst]
  · simp [hlast']
  · rw [Span.through, hstop]

/-- From the start of what is inside to the end of what is around it. -/
theorem from_within (h : c.Covers c' s) (hr : c.Reaches 0 c₁) (h' : c₁.Covers c₂ s')
    (hr' : c₂.Reaches 0 c') : c₁.Covers c' (s'.through s) := by
  obtain ⟨core, back, last, hrest, hlast, hback, hstop⟩ := h.closes
  obtain ⟨front, core', back', first, last', hrest', hfirst, -, hfront, -, rfl, hkind⟩ := h'
  obtain ⟨-, read, hread, -⟩ := hr
  obtain ⟨-, read', hread', -⟩ := hr'
  obtain ⟨inner, rfl⟩ := List.head?_eq_some_iff.mp hfirst
  have hsplit : core ++ back = (read ++ front) ++ (first :: inner ++ back' ++ read') := by
    rw [hrest, hrest', hread'] at hread
    refine List.append_cancel_right (?_ : _ ++ c'.rest = _ ++ c'.rest)
    simpa using hread
  -- what is inside does not start with a closing parenthesis, so it starts before those behind
  have habsurd (hmem : first ∈ back) : False := hkind (hback first hmem)
  rcases List.append_eq_append_iff.mp hsplit with ⟨bs, -, hbs⟩ | ⟨stretch, rfl, hstretch⟩
  · exact (habsurd (by simp [hbs])).elim
  cases stretch with
  | nil =>
      rw [List.nil_append] at hstretch
      exact (habsurd (by simp [← hstretch])).elim
  | cons t stretch =>
      obtain rfl : first = t := by simpa using congrArg List.head? hstretch
      refine ⟨front, first :: stretch, back, first, last, ?_, rfl, by simpa using hlast, hfront,
        hback, ?_, hkind⟩
      · rw [hrest', hread', ← List.append_assoc _ back, ← hstretch]
        simp
      · rw [Span.through, hstop]

/-- Parentheses around a phrase are not covered. -/
theorem grouped (ho : c.peek.kind = .leftParen) (h : c.advance.Covers c₁ s)
    (hc : c₁.peek.kind = .rightParen) : c.Covers c₁.advance s := by
  obtain ⟨t, r, hr⟩ := List.exists_cons_of_ne_nil (rest_ne_nil (c := c) (by simp [ho]))
  obtain ⟨u, q, hq⟩ := List.exists_cons_of_ne_nil (rest_ne_nil (c := c₁) (by simp [hc]))
  rw [peek_of_rest_cons hr] at ho
  rw [peek_of_rest_cons hq] at hc
  obtain ⟨front, core, back, first, last, hrest, hfirst, hlast, hfront, hback, hs, hkind⟩ := h
  rw [advance_of_rest_cons hr, hq] at hrest
  rw [advance_of_rest_cons hq]
  refine ⟨t :: front, core, back ++ [u], first, last, ?_, hfirst, hlast,
    List.forall_mem_cons.mpr ⟨ho, hfront⟩, ?_, hs, hkind⟩
  · simpa [hr] using hrest
  · simpa [or_imp, forall_and] using ⟨hback, hc⟩

end Covers

/-- `c'` is the cursor behind the tokens `p`. -/
structure Behind (p : List Token) (c c' : Cursor) : Prop where
  rest : c.rest = p ++ c'.rest
  before : c'.before = (p.getLast?.map Token.span).getD c.before

theorem behind_advance (c : Cursor) : ∃ p, Behind p c c.advance := by
  cases hr : c.rest with
  | nil => exact ⟨[], by simp [advance_of_rest_nil hr], by simp [advance_of_rest_nil hr]⟩
  | cons t r =>
      exact ⟨[t], by simp [advance_of_rest_cons hr, hr], by simp [advance_of_rest_cons hr]⟩

theorem Behind.trans {p q : List Token} (h : Behind p c c₁) (h' : Behind q c₁ c') :
    Behind (p ++ q) c c' := by
  refine ⟨by rw [h.rest, h'.rest, List.append_assoc], ?_⟩
  rw [h'.before, h.before]
  cases q using List.reverseRecOn <;> simp

/-- From one token to the last one that was read. -/
theorem Covers.of_behind {p : List Token} (h : Behind p c c') (hr : c.Reaches 1 c')
    (hk : c.peek.kind ≠ .rightParen) : c.Covers c' (c.peek.span.through c'.before) := by
  have hlen := hr.length_le
  cases p with
  | nil =>
      rw [h.rest] at hlen
      exact absurd hlen (Nat.not_succ_le_self _)
  | cons t p =>
      have hrest : c.rest = t :: (p ++ c'.rest) := by rw [h.rest, List.cons_append]
      rw [peek_of_rest_cons hrest] at hk ⊢
      refine ⟨[], t :: p, [], t, (t :: p).getLast (by simp), by simpa using h.rest, rfl,
        List.getLast?_eq_some_getLast _, by simp, by simp, ?_, hk⟩
      rw [h.before, List.getLast?_eq_some_getLast (by simp)]
      rfl

end Cursor

namespace Grammar

variable {α β : Type} {c c' c₁ c₂ c₀ : Cursor} {x left right : Node} {n : Nat}

theorem Passes.behind {r : Reader α} {cs : List Cursor} {res : EStateM.Result Stop Cursor α}
    (h : Passes r c cs res) : ∃ p, Cursor.Behind p c (cursorOf res) := by
  induction h with
  | look => exact ⟨[], by simp [cursorOf], by simp [cursorOf]⟩
  | stop => exact ⟨[], by simp [cursorOf], by simp [cursorOf]⟩
  | move c => exact c.behind_advance
  | bind _ _ ihr ihf =>
      obtain ⟨p, hp⟩ := ihr
      obtain ⟨q, hq⟩ := ihf
      exact ⟨p ++ q, hp.trans hq⟩
  | cut f _ ih => exact ih

theorem Stepwise.behind {r : Reader α} {a : α} (h : Stepwise r c) (hr : r c = .ok a c') :
    ∃ p, Cursor.Behind p c c' := by
  obtain ⟨cs, hcs⟩ := h
  rw [hr] at hcs
  exact hcs.behind

/-! ## Nodes and their stretches -/

/-- The parentheses between two cursors match. -/
def Balanced (c c' : Cursor) : Prop :=
  ∃ p us, c.rest = p ++ c'.rest ∧ Strips p us

theorem Balanced.trans (h : Balanced c c₁) (h' : Balanced c₁ c') : Balanced c c' := by
  obtain ⟨p, us, hp, hstrips⟩ := h
  obtain ⟨q, us', hq, hstrips'⟩ := h'
  exact ⟨p ++ q, us ++ us', by rw [hp, hq, List.append_assoc], hstrips.append hstrips'⟩

theorem Writes.balanced {F : Language Token} {L : β → Language Token} {r : Reader β} {b : β}
    (h : Writes F L r c) (hr : r c = .ok b c') : Balanced c c' := by
  obtain ⟨p, us, hp, hstrips, -⟩ := h b c' hr
  exact ⟨p, us, hp, hstrips⟩

theorem Balanced.keep (hk : Writes.Kept c.peek.kind) : Balanced c c.advance := by
  obtain ⟨t, r, hr⟩ := List.exists_cons_of_ne_nil (Cursor.rest_ne_nil hk.1)
  rw [Cursor.peek_of_rest_cons hr] at hk
  exact ⟨[t], [t], by simp [hr, Cursor.advance_of_rest_cons hr],
    .keep hk.2.1 hk.2.2.1 hk.2.2.2 .nil⟩

theorem Balanced.enclosed (ho : c.peek.kind = .leftParen) (h : Balanced c.advance c₁)
    (hc : c₁.peek.kind = .rightParen) : Balanced c c₁.advance := by
  obtain ⟨t, r, hr⟩ := List.exists_cons_of_ne_nil (Cursor.rest_ne_nil (c := c) (by simp [ho]))
  obtain ⟨u, q, hq⟩ := List.exists_cons_of_ne_nil (Cursor.rest_ne_nil (c := c₁) (by simp [hc]))
  rw [Cursor.peek_of_rest_cons hr] at ho
  rw [Cursor.peek_of_rest_cons hq] at hc
  obtain ⟨p, us, hp, hstrips⟩ := h
  rw [Cursor.advance_of_rest_cons hr, hq] at hp
  rw [Cursor.advance_of_rest_cons hq]
  have hp : r = p ++ u :: q := hp
  exact ⟨t :: (p ++ u :: []), _, by simp [hr, hp], .enclosed ho hc hstrips .nil⟩

/-- Behind a cursor there are two between which a span covers the tokens. -/
def Spans (c : Cursor) (s : Span) : Prop :=
  ∃ d d', c.Reaches 0 d ∧ d.Covers d' s

theorem Spans.behind {s : Span} (h : Spans c₁ s) (hr : c.Reaches 0 c₁) : Spans c s := by
  obtain ⟨d, d', hd, hcovers⟩ := h
  exact ⟨d, d', hr.trans hd, hcovers⟩

/-- Tokens are covered from each phrase of the first operand to each of the second one, and, if there
is no second one, to the end of the operator. -/
def Joins (c : Cursor) : Node → Prop
  | .binary _ l r _ => ∀ y z, Occurs (.phrase, l) (.phrase, y) → Occurs (.phrase, r) (.phrase, z) →
      Spans c (y.span.through z.span)
  | .unary _ x s => ∀ y, Occurs (.phrase, x) (.phrase, y) → Spans c (y.span.through s)
  | _ => True

/-- The tokens between two cursors, cut from what follows, are read as the lines of a node; its span
covers them; and if they start with a parenthesis, the node is not all that is in it: a part comes
first whose parentheses match. -/
structure Made (c c' : Cursor) (p : Form × Node) : Prop where
  listed : p.1 = .block → ∃ lines span, p.2 = .list lines span
  read : ∃ n d, statementsLoop n [] (c.cut c'.rest.length) = .ok (p.1.lines p.2) d ∧ d.rest = []
  span : (p.1 = .block ∧ c'.rest = c.rest ∧ p.2.span.start = p.2.span.stop) ∨
    (c.Covers c' p.2.span ∧
      (c.peek.kind = .leftParen → ∃ d, c.Reaches 1 d ∧ d.Reaches 1 c' ∧ Balanced c d))
  joins : Joins c p.2

theorem Made.covers {y : Node} (h : Made c c' (.phrase, y)) : c.Covers c' y.span := by
  rcases h.span with ⟨hform, -⟩ | ⟨hcovers, -⟩
  · cases hform
  · exact hcovers

/-- Every node that `p` consists of is made between two cursors. -/
def Held (c c' : Cursor) (p : Form × Node) : Prop :=
  ∀ q, Occurs p q → ∃ d d', c.Reaches 0 d ∧ Made d d' q ∧ d'.Reaches 0 c'

namespace Held

variable {p : Form × Node}

theorem mono (h : Held c₁ c₂ p) (hc : c.Reaches 0 c₁) (hc' : c₂.Reaches 0 c') : Held c c' p := by
  intro q hq
  obtain ⟨d, d', hd, hmade, hd'⟩ := h q hq
  exact ⟨d, d', hc.trans hd, hmade, hd'.trans hc'⟩

theorem of_pieces (hmade : ∃ d d', c.Reaches 0 d ∧ Made d d' p ∧ d'.Reaches 0 c')
    (h : ∀ q ∈ p.2.pieces, Held c c' q) : Held c c' p := by
  intro q hq
  rcases hq.cases_head with rfl | ⟨u, hu, hq⟩
  · exact hmade
  · exact h u hu q hq

theorem made (h : Held c c' p) : ∃ d d', c.Reaches 0 d ∧ Made d d' p ∧ d'.Reaches 0 c' :=
  h p (.refl p)

theorem joins_binary {op : BinaryOp} {s : Span} (hl : Held c c₁ (.phrase, left))
    (hr : Held c₁ c' (.phrase, right)) : Joins c (.binary op left right s) := by
  intro y z hy hz
  obtain ⟨d, d', hd, hmade, hd'⟩ := hl _ hy
  obtain ⟨e, e', he, hmade', -⟩ := hr _ hz
  exact ⟨d, e', hd, hmade.covers.joined (hd'.trans he) hmade'.covers.closes⟩

theorem joins_unary {op : UnaryOp} {s : Span} (h : Held c c' (.phrase, x)) (hs : c.Covers c' s) :
    Joins c (.unary op x s) := by
  intro y hy
  obtain ⟨d, d', hd, hmade, hd'⟩ := h _ hy
  exact ⟨d, c', hd, hs.from_within hd hmade.covers hd'⟩

end Held

/-- `x` is read between two cursors, perhaps in parentheses. -/
structure Located (c : Cursor) (x : Node) (c' : Cursor) : Prop where
  reaches : c.Reaches 1 c'
  covers : c.Covers c' x.span
  held : Held c c' (.phrase, x)

/-- What a reader at `c` has read, cut from what follows, is a statement. -/
structure Whole (c : Cursor) (x : Node) (c' : Cursor) : Prop where
  reaches : c.Reaches 1 c'
  alone : Alone statement (c.cut c'.rest.length) x

/-- What is whole, is read here. -/
def Formed (c : Cursor) (x : Node) (c' : Cursor) : Prop :=
  Whole c x c' → Located c x c'

theorem Located.of_whole (h : Whole c x c') (hcovers : c.Covers c' x.span)
    (hparts : c.peek.kind = .leftParen → ∃ d, c.Reaches 1 d ∧ d.Reaches 1 c' ∧ Balanced c d)
    (hjoins : Joins c x) (hpieces : ∀ q ∈ x.pieces, Held c c' q) : Located c x c' where
  reaches := h.reaches
  covers := hcovers
  held := .of_pieces
    ⟨c, c', .refl c, ⟨nofun, h.alone.line, .inr ⟨hcovers, hparts⟩, hjoins⟩, .refl c'⟩ hpieces

/-- What starts with a token of its own is all that is read. -/
theorem Located.of_first (h : Whole c x c') (hk : c.peek.kind ≠ .leftParen)
    (hcovers : c.Covers c' x.span) (hjoins : Joins c x) (hpieces : ∀ q ∈ x.pieces, Held c c' q) :
    Located c x c' :=
  .of_whole h hcovers (fun hopen => absurd hopen hk) hjoins hpieces

/-- From `c` on, all of `qs` have been read. -/
structure Keeps (c c' : Cursor) (qs : List (Form × Node)) : Prop where
  reaches : c.Reaches 0 c'
  held : ∀ q ∈ qs, Held c c' q

namespace Keeps

variable {qs rs : List (Form × Node)} {q : Form × Node}

theorem nil (h : c.Reaches 0 c') : Keeps c c' [] :=
  ⟨h, by simp⟩

theorem further (h : Keeps c c₁ qs) (hr : c₁.Reaches 0 c') : Keeps c c' qs :=
  ⟨h.reaches.trans hr, fun q hq => (h.held q hq).mono (.refl c) hr⟩

theorem append (h : Keeps c c₁ qs) (h' : Keeps c₁ c' rs) : Keeps c c' (qs ++ rs) := by
  refine ⟨h.reaches.trans h'.reaches, fun q hq => ?_⟩
  rcases List.mem_append.mp hq with hq | hq
  · exact (h.held q hq).mono (.refl c) h'.reaches
  · exact (h'.held q hq).mono h.reaches (.refl c')

theorem subset (h : Keeps c c' qs) (hrs : rs ⊆ qs) : Keeps c c' rs :=
  ⟨h.reaches, fun q hq => h.held q (hrs hq)⟩

theorem behind (h : Keeps c₁ c' qs) (hr : c.Reaches 0 c₁) : Keeps c c' qs :=
  ⟨hr.trans h.reaches, fun q hq => (h.held q hq).mono hr (.refl c')⟩

end Keeps

theorem Located.keeps (h : Located c x c') : Keeps c c' [(.phrase, x)] :=
  ⟨h.reaches.mono (Nat.zero_le 1), by simpa using h.held⟩

/-! ## Reading -/

/-- On success at `c`, `Q` holds of what is yielded and of where it ends. -/
def Gives (Q : α → Cursor → Prop) (r : Reader α) (c : Cursor) : Prop :=
  ∀ a c', r c = .ok a c' → Q a c'

namespace Gives

variable {Q : β → Cursor → Prop} {r : Reader α} {f : α → Reader β}

theorem pure {b : β} (h : Q b c) : Gives Q (pure b) c := by
  rintro _ _ ⟨⟩
  exact h

theorem throw {e : Stop} : Gives Q (throw e) c := by
  rintro _ _ ⟨⟩

theorem fail {g : GrammarFault} : Gives Q (fail g) c := by
  rintro _ _ ⟨⟩

theorem failAt {g : GrammarFault} {s : Span} : Gives Q (failAt g s) c := by
  rintro _ _ ⟨⟩

theorem bind (hf : ∀ a c', r c = .ok a c' → Gives Q (f a) c') : Gives Q (r >>= f) c := by
  intro b c'' hb
  obtain ⟨a, c', ha, hb⟩ := ok_of_bind hb
  exact hf a c' ha b c'' hb

theorem peek_bind {f : Token → Reader β} (h : Gives Q (f c.peek) c) : Gives Q (peek >>= f) c :=
  h

theorem peekKind_bind {f : TokenKind → Reader β} (h : Gives Q (f c.peek.kind) c) :
    Gives Q (peekKind >>= f) c :=
  h

theorem get_bind {f : Cursor → Reader β} (h : Gives Q (f c) c) :
    Gives Q ((get : Reader Cursor) >>= f) c :=
  h

theorem next_bind {f : Token → Reader β} (h : Gives Q (f c.peek) c.advance) :
    Gives Q (next >>= f) c :=
  h

theorem spanFrom_bind {s : Span} {f : Span → Reader β} (h : Gives Q (f (s.through c.before)) c) :
    Gives Q (spanFrom s >>= f) c :=
  h

theorem skipNewlines_bind {f : Unit → Reader β} (h : Gives Q (f ()) c.behindNewlines) :
    Gives Q (skipNewlines >>= f) c :=
  h

theorem expect_bind {k : TokenKind} {g : GrammarFault} {f : Token → Reader β}
    (h : c.peek.kind = k → Gives Q (f c.peek) c.advance) : Gives Q (expect k g >>= f) c := by
  intro b c' hb
  rw [Grammar.expect_bind] at hb
  split at hb
  · rename_i hk
    exact h hk b c' hb
  · cases hb

theorem accept_bind {k : TokenKind} {f : Bool → Reader β}
    (htrue : c.peek.kind = k → Gives Q (f true) c.advance)
    (hfalse : c.peek.kind ≠ k → Gives Q (f false) c) : Gives Q (accept k >>= f) c := by
  intro b c' hb
  rw [Grammar.accept_bind] at hb
  split at hb
  · rename_i hk
    exact htrue hk b c' hb
  · rename_i hk
    exact hfalse hk b c' hb

theorem imp {P Q : α → Cursor → Prop} (h : Gives P r c)
    (hQ : Gives (fun a c' => P a c' → Q a c') r c) : Gives Q r c :=
  fun a c' ha => hQ a c' ha (h a c' ha)

end Gives

/-- Some lines, in reverse, have been read when `c` is reached, and the first of them starts at
`d`. -/
structure Sofar (d : Cursor) (done : List Node) (c : Cursor) : Prop where
  resumes : ∀ k ≤ c.rest.length, k ≤ d.rest.length →
    (done ≠ [] → (c.cut k).peek.kind = .newline ∨ (c.cut k).peek.kind = .endOfInput) →
      ∀ m lines c', statementsLoop m done (c.cut k) = .ok lines c' →
        ∃ n, statementsLoop n [] (d.cut k) = .ok lines c'
  held : ∀ x ∈ done, Held d c (.phrase, x)
  lines : done ≠ [] → d.Reaches 1 c ∧ Balanced d c ∧
    ∀ start, d.Covers c (statementsSpan start done.reverse)
  parted : 2 ≤ done.length → ∃ e, d.Reaches 1 e ∧ e.Reaches 1 c ∧ Balanced d e

/-- Where the span of a node with what it is made of lies, for each function of the grammar with
fuel `n`. -/
structure Covering (n : Nat) : Prop where
  statements : ∀ c, Gives (fun x c' => Keeps c c' [(.block, x)]) (statements n) c
  statementsLoop : ∀ {done d c₀ c}, c₀.Reaches 0 c → c₀.Reaches 0 d →
    (done = [] → d = c.behindNewlines) → (done ≠ [] → c.peek.kind = .newline) → Sofar d done c →
      Gives (fun lines c' => ∀ start, Keeps c₀ c'
        [(.block, .list lines (statementsSpan start lines))]) (statementsLoop n done) c
  statement : ∀ c, Gives (Located c) (statement n) c
  expression : ∀ c, Gives (Located c) (expression n) c
  declaration : ∀ {tag c}, tag? c.peek.kind = some tag →
    Gives (Formed c) (declaration n tag) c
  annotated : ∀ {c}, c.peek.kind = .identifier →
    Gives (Formed c) (annotated n) c
  chain : ∀ level c, Gives (Located c) (chain n level) c
  chainLoop : ∀ {level left c₀ c}, Located c₀ left c → Balanced c₀ c →
    Resumes (Grammar.chain · level) (Grammar.chainLoop · level left) c₀ c →
      Gives (Located c₀) (Grammar.chainLoop n level left) c
  operand : ∀ level c, Gives (Located c) (operand n level) c
  factor : ∀ c, Gives (Located c) (factor n) c
  powerLoop : ∀ {base c₀ c}, Located c₀ base c → Balanced c₀ c →
    Resumes Grammar.factor (Grammar.powerLoop · base) c₀ c → Gives (Located c₀) (powerLoop n base) c
  call : ∀ c, Gives (Located c) (call n) c
  callLoop : ∀ {callee c₀ c}, Located c₀ callee c → Balanced c₀ c →
    Resumes Grammar.call (Grammar.callLoop · callee) c₀ c → Gives (Located c₀) (callLoop n callee) c
  items : ∀ close c,
    Gives (fun xs c' => Keeps c c' (xs.map (.phrase, ·))) (items n close) c
  itemsLoop : ∀ {done c₀ c}, Keeps c₀ c (done.map (.phrase, ·)) →
    Gives (fun xs c' => Keeps c₀ c' (xs.map (.phrase, ·))) (itemsLoop n done) c
  atom : ∀ c, Gives (Located c) (atom n) c
  choice : ∀ {c}, c.peek.kind = .ifWord →
    Gives (Formed c) (choice n) c
  armsLoop : ∀ {done c₀ c}, Keeps c₀ c (Node.choice done none default).pieces →
    Gives (fun p c' => Keeps c₀ c' (Node.choice p.1 p.2 default).pieces) (armsLoop n done) c
  moreArms : ∀ {done c₀ c}, Keeps c₀ c (Node.choice done none default).pieces →
    Gives (fun p c' => Keeps c₀ c' (Node.choice p.1 p.2 default).pieces) (moreArms n done) c
  branch : ∀ c, Gives (fun b c' => Keeps c c' [(b.form, b.body)]) (branch n) c
  forLoop : ∀ {c}, c.peek.kind = .forWord →
    Gives (Formed c) (forLoop n) c
  whileLoop : ∀ {c}, c.peek.kind = .whileWord →
    Gives (Formed c) (whileLoop n) c
  function : ∀ {c}, c.peek.kind = .fnWord →
    Gives (Formed c) (function n) c

theorem covering_zero : Covering 0 := by
  constructor <;> intros <;> exact .throw

variable {level : Level} {base callee line : Node} {done : List Node} {d : Cursor}

/-! ## Lines -/

theorem Balanced.newlines (c : Cursor) : Balanced c c.behindNewlines := by
  have hblank : ∀ t ∈ c.rest.takeWhile (·.kind = .newline), t.kind = .newline := fun t ht => by
    simpa using List.all_eq_true.mp List.all_takeWhile t ht
  refine ⟨_, [], ?_, .newlines hblank⟩
  rw [Cursor.rest_behindNewlines, List.takeWhile_append_dropWhile]

theorem statementsLoop_at_end (hc : c.peek.kind = .endOfInput) :
    statementsLoop (n + 1) done c = .ok done.reverse c := by
  have hk : c.peek.kind ≠ .newline := by simp [hc]
  unfold statementsLoop
  rw [skipNewlines_bind, Cursor.behindNewlines_of_kind_ne hk, peekKind_bind, hc,
    if_pos (show endsBlock .endOfInput = true from rfl)]
  rfl

theorem statementsSpan_concat {xs : List Node} (hxs : xs ≠ []) (start : Position) (x : Node) :
    statementsSpan start (xs ++ [x]) = (statementsSpan start xs).through x.span := by
  obtain ⟨y, ys, rfl⟩ := List.exists_cons_of_ne_nil hxs
  rw [statementsSpan, statementsSpan, List.getLast?_append, List.getLast?_eq_some_getLast hxs]
  rfl

theorem Sofar.start (c : Cursor) : Sofar c.behindNewlines [] c where
  resumes := by
    intro k _ hk _ m lines c' h
    cases m with
    | zero => cases h
    | succ m =>
        rw [← statementsLoop_behindNewlines, Cursor.behindNewlines_cut hk] at h
        exact ⟨m + 1, h⟩
  held := by simp
  lines := fun h => absurd rfl h
  parted := by simp

theorem Sofar.reaches (h : Sofar d done c) (hd : done = [] → d = c.behindNewlines) :
    d.Reaches 0 c.behindNewlines := by
  by_cases hdone : done = []
  · rw [hd hdone]
    exact .refl _
  · exact ((h.lines hdone).1.mono (Nat.zero_le 1)).trans (Advances.skipNewlines () _ rfl)

theorem Sofar.resumes_step (h : Sofar d done c) (hc : done ≠ [] → c.peek.kind = .newline)
    (hline : statement n c.behindNewlines = .ok line c') {k : Nat} (hk : k ≤ c'.rest.length)
    (hkd : k ≤ d.rest.length)
    (hend : (c'.cut k).peek.kind = .newline ∨ (c'.cut k).peek.kind = .endOfInput) {m : Nat}
    {lines : List Node} {c'' : Cursor}
    (hm : statementsLoop m (line :: done) (c'.cut k) = .ok lines c'') :
    ∃ n, statementsLoop n [] (d.cut k) = .ok lines c'' := by
  have hlen := ((progress n).statement _ line c' hline).length_le
  have hblank := (Advances.skipNewlines () c.behindNewlines rfl : c.Reaches 0 _).length_le
  have hread := ((cutting k n).statement (Nat.le_max_left n m) _ line c' hline).2 hk
  refine h.resumes k (by omega) hkd (fun hdone => ?_) (max n m + 1) lines c'' ?_
  · rw [Cursor.peek_cut (by omega)]
    exact .inl (hc hdone)
  · unfold statementsLoop
    rw [skipNewlines_bind, Cursor.behindNewlines_cut (by omega), peekKind_bind,
      (kind_of_statement hread).2, if_neg Bool.false_ne_true, bind_of_ok hread, peekKind_bind]
    rcases hend with hnewline | hend
    · rw [if_pos hnewline]
      exact ((cutting 0 m).statementsLoop (Nat.le_max_right n m) _ _).same hm
    · rw [if_neg (by simp [hend])]
      cases m with
      | zero => cases hm
      | succ m =>
          rw [statementsLoop_at_end hend] at hm
          exact hm

theorem Sofar.step (h : Sofar d done c) (hd : done = [] → d = c.behindNewlines)
    (hc : done ≠ [] → c.peek.kind = .newline)
    (hline : statement n c.behindNewlines = .ok line c')
    (hlocated : Located c.behindNewlines line c') : Sofar d (line :: done) c' := by
  have hblank : c.Reaches 0 c.behindNewlines := Advances.skipNewlines () _ rfl
  have hreaches := h.reaches hd
  have hbalanced := ((writing n).statement _).balanced hline
  have hfurther : c.Reaches 1 c' := hblank.trans hlocated.reaches
  refine ⟨fun k hk hkd hend m lines c'' hm => ?_, ?_, fun _ => ⟨?_, ?_, fun start => ?_⟩,
    fun hlen => ?_⟩
  · exact h.resumes_step hc hline hk hkd (hend (List.cons_ne_nil _ _)) hm
  · refine List.forall_mem_cons.mpr ⟨hlocated.held.mono hreaches (.refl c'), fun x hx => ?_⟩
    exact (h.held x hx).mono (.refl d) (hfurther.mono (Nat.zero_le 1))
  · exact hreaches.trans hlocated.reaches
  · by_cases hdone : done = []
    · rw [hd hdone]
      exact hbalanced
    · exact (h.lines hdone).2.1.trans ((Balanced.newlines c).trans hbalanced)
  · by_cases hdone : done = []
    · subst hdone
      rw [hd rfl]
      exact hlocated.covers
    · rw [List.reverse_cons, statementsSpan_concat (by simpa using hdone)]
      exact ((h.lines hdone).2.2 start).joined hblank hlocated.covers.closes
  · have hdone : done ≠ [] := by
      rintro rfl
      simp at hlen
    exact ⟨c, (h.lines hdone).1, hfurther, (h.lines hdone).2.1⟩

/-- The lines that have been read make up a block. -/
theorem Sofar.finish (h : Sofar d done c) (start : Position) (hc : c₀.Reaches 0 c)
    (hd : c₀.Reaches 0 d) :
    Keeps c₀ c [(.block, .list done.reverse (statementsSpan start done.reverse))] := by
  have hend : (c.cut c.rest.length).peek.kind = .endOfInput := Cursor.kind_cut_of_le (Nat.le_refl _)
  have hlisted {lines : List Node} {span : Span} (_ : Form.block = .block) :
      ∃ lines' span', Node.list lines span = .list lines' span' := ⟨_, _, rfl⟩
  refine ⟨hc, fun q hq => ?_⟩
  rw [List.mem_singleton] at hq
  subst hq
  refine .of_pieces ?_ fun q hq => ?_
  · match hdone : done with
    | [] =>
        have hnil := Cursor.rest_cut_of_le (c := c) (Nat.le_refl _)
        exact ⟨c, c, hc, ⟨hlisted, ⟨1, _, statementsLoop_at_end hend, hnil⟩, .inl ⟨rfl, rfl, rfl⟩,
          trivial⟩, .refl c⟩
    | [x] =>
        -- its parentheses do not belong to the only line
        obtain ⟨e, e', he, ⟨-, hread, ⟨⟨⟩, -⟩ | hspan, -⟩, he'⟩ := (h.held x (by simp)).made
        exact ⟨e, e', hd.trans he, ⟨hlisted, hread, .inr hspan, trivial⟩, he'⟩
    | x :: y :: zs =>
        obtain ⟨hreaches, -, hcovers⟩ := h.lines (by simp)
        have hlen := hreaches.length_le
        obtain ⟨n, hn⟩ := h.resumes _ (Nat.le_refl _) (by omega) (fun _ => .inr hend) 1 _ _
          (statementsLoop_at_end hend)
        exact ⟨d, c, hd, ⟨hlisted, ⟨n, _, hn, Cursor.rest_cut_of_le (Nat.le_refl _)⟩,
          .inr ⟨hcovers start, fun _ => h.parted (by simp)⟩, trivial⟩, .refl c⟩
  · obtain ⟨x, hx, rfl⟩ := List.mem_map.mp hq
    exact (h.held x (List.mem_reverse.mp hx)).mono hd (.refl c)

/-! ## Readers of statements -/

section

variable {r : Nat → Reader Node}

theorem whole_of_run (hadv : Advances 1 (r n) c) (hcut : ∀ k, Cut 0 k (r n) (r n) c)
    (hlift : ∀ c, Alone r c x → Alone statement c x) (h : r n c = .ok x c') : Whole c x c' where
  reaches := hadv x c' h
  alone := hlift _ ⟨n, c'.cut c'.rest.length, (hcut _ x c' h).2 (Nat.le_refl _),
    Cursor.rest_cut_of_le (Nat.le_refl _)⟩

theorem statement_whole (c : Cursor) : Gives (Whole c) (statement n) c := fun _ _ =>
  whole_of_run ((progress n).statement c) (fun k => (cutting k n).statement (Nat.le_refl n) c)
    fun _ h => h

theorem expression_whole (c : Cursor) : Gives (Whole c) (expression n) c := fun _ _ =>
  whole_of_run ((progress n).expression c) (fun k => (cutting k n).expression (Nat.le_refl n) c)
    fun _ h => h.statement

theorem chain_whole (level : Level) (c : Cursor) : Gives (Whole c) (chain n level) c := fun _ _ =>
  whole_of_run (r := (chain · level)) ((progress n).chain level c)
    (fun k => (cutting k n).chain (Nat.le_refl n) level c) fun _ h => h.expression.statement

theorem Alone.statement_of_factor (h : Alone Grammar.factor c x) : Alone Grammar.statement c x :=
  (operand_of_factor h).chain.expression.statement

theorem factor_whole (c : Cursor) : Gives (Whole c) (factor n) c := fun _ _ =>
  whole_of_run ((progress n).factor c) (fun k => (cutting k n).factor (Nat.le_refl n) c)
    fun _ h => h.statement_of_factor

theorem atom_whole (c : Cursor) : Gives (Whole c) (atom n) c := fun _ _ =>
  whole_of_run ((progress n).atom c) (fun k => (cutting k n).atom (Nat.le_refl n) c)
    fun _ h => h.call.factor.statement_of_factor

end

variable (ih : Covering n)

include ih

theorem statements_covering (c : Cursor) :
    Gives (fun x c' => Keeps c c' [(.block, x)]) (statements (n + 1)) c := by
  unfold statements
  refine .peek_bind (.bind fun lines c' h => .pure ?_)
  exact ih.statementsLoop (.refl c) (Advances.skipNewlines () _ rfl) (fun _ => rfl)
    (fun hne => absurd rfl hne) (.start c) lines c' h _

theorem statementsLoop_covering (hc : c₀.Reaches 0 c) (hd : c₀.Reaches 0 d)
    (hstart : done = [] → d = c.behindNewlines) (hnewline : done ≠ [] → c.peek.kind = .newline)
    (hsofar : Sofar d done c) :
    Gives (fun lines c' => ∀ start, Keeps c₀ c'
      [(.block, .list lines (statementsSpan start lines))]) (statementsLoop (n + 1) done) c := by
  unfold statementsLoop
  refine .skipNewlines_bind (.peekKind_bind ?_)
  split
  · exact .pure fun start => (hsofar.finish start hc hd).further (Advances.skipNewlines () _ rfl)
  · refine .bind fun line c' hline => .peekKind_bind ?_
    have hlocated := ih.statement _ line c' hline
    have hstep := hsofar.step hstart hnewline hline hlocated
    have hblank : c.Reaches 0 c.behindNewlines := Advances.skipNewlines () _ rfl
    have hreaches := (hc.trans hblank).trans (hlocated.reaches.mono (Nat.zero_le 1))
    split
    · rename_i hk
      exact ih.statementsLoop hreaches hd (fun h => absurd h (List.cons_ne_nil _ _))
        (fun _ => hk) hstep
    · exact .pure fun start => hstep.finish start hreaches hd

theorem statement_covering (c : Cursor) : Gives (Located c) (statement (n + 1)) c := by
  refine .imp (statement_whole c) ?_
  unfold statement
  refine .peekKind_bind ?_
  split
  · rename_i hk
    have htoken := Cursor.Covers.token (c := c) (by simp [hk])
    refine .next_bind (.peekKind_bind ?_)
    split
    · refine .bind fun value c' h => .pure fun hwhole => ?_
      have hvalue := ih.expression _ value c' h
      refine .of_first hwhole (by simp [hk]) (htoken.joined (.refl _) hvalue.covers.closes)
        trivial ?_
      simpa [pieces] using hvalue.held.mono (.advance c) (.refl c')
    · exact .pure fun hwhole => .of_first hwhole (by simp [hk]) htoken trivial (by simp [pieces])
  · rename_i hk
    exact .next_bind (.pure fun hwhole => .of_first hwhole (by simp [hk])
      (.token (by simp [hk])) trivial (by simp [pieces]))
  · rename_i hk
    exact .next_bind (.pure fun hwhole => .of_first hwhole (by simp [hk])
      (.token (by simp [hk])) trivial (by simp [pieces]))
  · exact fun x c' h _ => ih.expression c x c' h

theorem expression_covering (c : Cursor) : Gives (Located c) (expression (n + 1)) c := by
  refine .imp (expression_whole c) ?_
  unfold expression
  refine .peekKind_bind ?_
  split
  · rename_i tag htag
    exact ih.declaration htag
  · refine .get_bind ?_
    split
    · rename_i hk
      exact ih.annotated hk.1
    · exact fun x c' h _ => ih.chain _ c x c' h

theorem declaration_covering {tag : Tag} (htag : tag? c.peek.kind = some tag) :
    Gives (Formed c) (declaration (n + 1) tag) c := by
  have hkind := kind_of_tag? htag
  have hkept := hkind ▸ kept_tag tag
  unfold declaration
  refine .next_bind (.expect_bind fun _ => .expect_bind fun _ => .bind fun value c' h =>
    .pure fun hwhole => ?_)
  have hvalue := ih.expression _ value c' h
  have hreaches := (Cursor.Reaches.advance c.advance).trans (.advance c.advance.advance)
  refine .of_first hwhole hkept.2.2.1 ((Cursor.Covers.token ⟨hkept.1, hkept.2.2.2⟩).joined hreaches
    hvalue.covers.closes) trivial ?_
  simpa [pieces] using hvalue.held.mono ((Cursor.Reaches.advance c).trans hreaches) (.refl c')

theorem annotated_covering (hk : c.peek.kind = .identifier) :
    Gives (Formed c) (annotated (n + 1)) c := by
  unfold annotated
  refine .next_bind (.next_bind (.next_bind ?_))
  split
  · exact .failAt
  · refine .expect_bind fun _ => .bind fun value c' h => .pure fun hwhole => ?_
    have hvalue := ih.expression _ value c' h
    have hreaches := ((Cursor.Reaches.advance c.advance).trans (.advance c.advance.advance)).trans
      (.advance c.advance.advance.advance)
    refine .of_first hwhole (by simp [hk])
      ((Cursor.Covers.token (by simp [hk])).joined hreaches hvalue.covers.closes) trivial ?_
    simpa [pieces] using hvalue.held.mono ((Cursor.Reaches.advance c).trans hreaches) (.refl c')

theorem chain_covering (level : Level) (c : Cursor) :
    Gives (Located c) (chain (n + 1) level) c := by
  refine .imp (chain_whole level c) ?_
  unfold chain
  refine .peekKind_bind ?_
  split
  · rename_i hk
    refine .next_bind (.bind fun operand c' h => .pure fun hwhole => ?_)
    have hoperand := ih.chain _ _ operand c' h
    have hcovers := (Cursor.Covers.token (c := c) (by simp [hk.2])).joined (.refl _)
      hoperand.covers.closes
    have hheld := hoperand.held.mono (.advance c) (.refl c')
    exact .of_first hwhole (by simp [hk.2]) hcovers (hheld.joins_unary hcovers)
      (by simpa [pieces] using hheld)
  · refine .bind fun left c₁ h x c' hx _ => ?_
    exact ih.chainLoop (ih.operand level c left c₁ h) (((writing n).operand level c).balanced h)
      (resumes_of_operand h) x c' hx

omit ih in
/-- What a loop has joined is not all in parentheses, if its first part is. -/
theorem Located.joined {s : Span} (hleft : Located c₀ left c) (hbalanced : Balanced c₀ c)
    (hreaches : c.Reaches 1 c') (halone : Alone statement (c₀.cut c'.rest.length) x)
    (hs : c₁.Closes c' s) (hc₁ : c.Reaches 0 c₁) (hspan : x.span = left.span.through s)
    (hjoins : Joins c₀ x) (hpieces : ∀ q ∈ x.pieces, Held c₀ c' q) : Located c₀ x c' := by
  refine .of_whole ⟨(hleft.reaches.trans hreaches).mono (by decide), halone⟩ ?_
    (fun _ => ⟨c, hleft.reaches, hreaches, hbalanced⟩) hjoins hpieces
  rw [hspan]
  exact hleft.covers.joined hc₁ hs

theorem chainLoop_covering (hleft : Located c₀ left c) (hbalanced : Balanced c₀ c)
    (hresumes : Resumes (chain · level) (chainLoop · level left) c₀ c) :
    Gives (Located c₀) (chainLoop (n + 1) level left) c := by
  unfold chainLoop
  refine .peekKind_bind ?_
  split
  · exact .pure hleft
  · rename_i op hop
    refine .next_bind (.bind fun right c₁ h => ?_)
    have hkept := kind_of_operator? hop ▸ kept_operator op
    have hright := ih.operand level _ right c₁ h
    have hreaches := (Cursor.Reaches.advance c).trans hright.reaches
    have hstep := hresumes.chain_step hop h
    have hbalanced' := hbalanced.trans
      ((Balanced.keep hkept).trans (((writing n).operand level _).balanced h))
    refine ih.chainLoop ?_ hbalanced' hstep
    refine hleft.joined hbalanced hreaches (hstep.alone fun c => chainLoop_at_end).expression.statement
      hright.covers.closes (.advance c) rfl
      (hleft.held.joins_binary (hright.held.mono (.advance c) (.refl c₁))) ?_
    have hleft' := hleft.held.mono (.refl c₀) (hreaches.mono (Nat.zero_le 1))
    have hright' := hright.held.mono
      ((hleft.reaches.mono (Nat.zero_le 1)).trans (.advance c)) (.refl c₁)
    simpa [pieces, binaryNode] using ⟨hleft', hright'⟩

theorem operand_covering (level : Level) (c : Cursor) :
    Gives (Located c) (operand (n + 1) level) c := by
  unfold operand
  split
  · exact ih.chain _ c
  · exact ih.factor c

theorem factor_covering (c : Cursor) : Gives (Located c) (factor (n + 1)) c := by
  refine .imp (factor_whole c) ?_
  unfold factor
  refine .peekKind_bind ?_
  split
  · rename_i hk
    refine .next_bind (.bind fun operand c' h => .pure fun hwhole => ?_)
    have hoperand := ih.factor _ operand c' h
    have hcovers := (Cursor.Covers.token (c := c) (by simp [hk])).joined (.refl _)
      hoperand.covers.closes
    have hheld := hoperand.held.mono (.advance c) (.refl c')
    exact .of_first hwhole (by simp [hk]) hcovers (hheld.joins_unary hcovers)
      (by simpa [pieces] using hheld)
  · refine .bind fun base c₁ h x c' hx _ => ?_
    exact ih.powerLoop (ih.call c base c₁ h) (((writing n).call c).balanced h) (resumes_of_call h)
      x c' hx

theorem powerLoop_covering (hbase : Located c₀ base c) (hbalanced : Balanced c₀ c)
    (hresumes : Resumes factor (powerLoop · base) c₀ c) :
    Gives (Located c₀) (powerLoop (n + 1) base) c := by
  unfold powerLoop
  refine .accept_bind (fun hk => .bind fun exponent c₁ h => ?_) fun _ => .pure hbase
  have hexponent := ih.factor _ exponent c₁ h
  have hreaches := (Cursor.Reaches.advance c).trans hexponent.reaches
  have hstep := hresumes.power_step hk h
  have hbalanced' := hbalanced.trans
    ((Balanced.keep (hk ▸ by decide)).trans (((writing n).factor _).balanced h))
  refine ih.powerLoop ?_ hbalanced' hstep
  refine hbase.joined hbalanced hreaches (hstep.alone fun c => powerLoop_at_end).statement_of_factor
    hexponent.covers.closes (.advance c) rfl
    (hbase.held.joins_binary (hexponent.held.mono (.advance c) (.refl c₁))) ?_
  have hbase' := hbase.held.mono (.refl c₀) (hreaches.mono (Nat.zero_le 1))
  have hexponent' := hexponent.held.mono
    ((hbase.reaches.mono (Nat.zero_le 1)).trans (.advance c)) (.refl c₁)
  simpa [pieces, binaryNode] using ⟨hbase', hexponent'⟩

theorem call_covering (c : Cursor) : Gives (Located c) (call (n + 1)) c := by
  unfold call
  refine .bind fun callee c₁ h => ?_
  exact ih.callLoop (ih.atom c callee c₁ h) (((writing n).atom c).balanced h) (resumes_of_atom h)

theorem callLoop_covering (hcallee : Located c₀ callee c) (hbalanced : Balanced c₀ c)
    (hresumes : Resumes call (callLoop · callee) c₀ c) :
    Gives (Located c₀) (callLoop (n + 1) callee) c := by
  unfold callLoop
  refine .accept_bind (fun hopen => .bind fun args c₁ h => .expect_bind fun hclose => ?_)
    fun _ => .pure hcallee
  have hargs := ih.items _ _ args c₁ h
  have hone := Cursor.Reaches.advance_of_kind (c := c) (by simp [hopen])
  have hreaches := (hone.trans hargs.reaches).trans (.advance c₁)
  have hstep := hresumes.call_step hopen h hclose
  have hbalanced' := hbalanced.trans
    (.enclosed hopen (((writing n).items _ _).balanced h) hclose)
  refine ih.callLoop ?_ hbalanced' hstep
  refine hcallee.joined hbalanced hreaches
    (hstep.alone fun c => callLoop_at_end).factor.statement_of_factor
    (.token (by simp [hclose])) ((hone.trans hargs.reaches).mono (Nat.zero_le 1)) rfl trivial ?_
  have hcallee' := hcallee.held.mono (.refl c₀) (hreaches.mono (Nat.zero_le 1))
  have hargs' := ((hargs.behind (.advance c)).behind (hcallee.reaches.mono (Nat.zero_le 1))).further
    (.advance c₁)
  simpa [pieces] using ⟨hcallee', by simpa using hargs'.held⟩

theorem items_covering (close : TokenKind) (c : Cursor) :
    Gives (fun xs c' => Keeps c c' (xs.map (.phrase, ·))) (items (n + 1) close) c := by
  unfold items
  refine .peekKind_bind ?_
  split
  · exact .pure (.nil (.refl c))
  · exact ih.itemsLoop (.nil (.refl c))

theorem itemsLoop_covering (hdone : Keeps c₀ c (done.map (.phrase, ·))) :
    Gives (fun xs c' => Keeps c₀ c' (xs.map (.phrase, ·))) (itemsLoop (n + 1) done) c := by
  unfold itemsLoop
  refine .bind fun item c₁ h => ?_
  have hitems := hdone.append (ih.expression c item c₁ h).keeps
  refine .accept_bind (fun _ => ih.itemsLoop ?_) fun _ => .pure ?_
  · exact (hitems.further (.advance c₁)).subset (by simp)
  · exact hitems.subset (by simp)

theorem atom_covering (c : Cursor) : Gives (Located c) (atom (n + 1)) c := by
  refine .imp (atom_whole c) ?_
  unfold atom
  refine .peek_bind ?_
  split
  all_goals rename_i hk
  iterate 2
    refine .next_bind ?_
    split
    · exact .pure fun hwhole => .of_first hwhole (by simp [hk]) (.token (by simp [hk])) trivial
        (by simp [pieces])
    · exact .failAt
  · exact .next_bind (.pure fun hwhole => .of_first hwhole (by simp [hk]) (.token (by simp [hk]))
      trivial (by simp [pieces]))
  · exact .next_bind (.pure fun hwhole => .of_first hwhole (by simp [hk]) (.token (by simp [hk]))
      trivial (by simp [pieces]))
  · refine .next_bind (.bind fun inner c₁ h => .expect_bind fun hclose => .pure fun hwhole => ?_)
    have hinner := ih.expression _ inner c₁ h
    exact ⟨hwhole.reaches, hinner.covers.grouped hk hclose,
      hinner.held.mono (.advance c) (.advance c₁)⟩
  · refine .next_bind (.bind fun elements c₁ h => .expect_bind fun hclose => .pure fun hwhole => ?_)
    have helements := ih.items _ _ elements c₁ h
    refine .of_first hwhole (by simp [hk]) ((Cursor.Covers.token (by simp [hk])).joined
      helements.reaches (.token (by simp [hclose]))) trivial ?_
    simpa [pieces] using ((helements.behind (.advance c)).further (.advance c₁)).held
  · exact ih.choice hk
  · exact ih.forLoop hk
  · exact ih.whileLoop hk
  · exact ih.function hk
  · exact .fail

omit ih in
/-- A construct that ends with the token read last. -/
theorem Located.of_spanFrom {p : List Token} (hbehind : Cursor.Behind p c c')
    (hwhole : Whole c x c') (hk : c.peek.kind ≠ .leftParen ∧ c.peek.kind ≠ .rightParen)
    (hspan : x.span = c.peek.span.through c'.before) (hjoins : Joins c x)
    (hpieces : ∀ q ∈ x.pieces, Held c c' q) : Located c x c' := by
  refine .of_first hwhole hk.1 ?_ hjoins hpieces
  rw [hspan]
  exact .of_behind hbehind hwhole.reaches hk.2

theorem choice_covering (hk : c.peek.kind = .ifWord) :
    Gives (Formed c) (choice (n + 1)) c := by
  refine .imp (P := fun _ c' => ∃ p, Cursor.Behind p c c')
    (fun _ _ h => ((stepping (n + 1)).choice c).behind h) ?_
  unfold choice
  refine .next_bind (.bind fun clauses c' h => .spanFrom_bind (.pure fun hp hwhole => ?_))
  obtain ⟨p, hbehind⟩ := hp
  have hclauses := ih.armsLoop (.nil (.refl _)) clauses c' h
  exact .of_spanFrom hbehind hwhole (by simp [hk]) rfl trivial (hclauses.behind (.advance c)).held

omit ih in
theorem pieces_reverse_subset (done : List (Arm Node)) :
    (Node.choice done.reverse none default).pieces ⊆ (Node.choice done none default).pieces :=
  fun q hq => by simpa [pieces] using hq

omit ih in
/-- An arm behind those already read. -/
theorem Keeps.arm {done : List (Arm Node)} {condition body : Node} (block : Bool)
    (hdone : Keeps c₀ c (Node.choice done none default).pieces) (hcondition : Located c condition c₁)
    (hc₁ : c₁.Reaches 0 c₂) (hbody : Keeps c₂ c' [((Branch.mk body block).form, body)]) :
    Keeps c₀ c' (Node.choice (⟨condition, body, block⟩ :: done) none default).pieces :=
  ((hdone.append hcondition.keeps).append (hbody.behind hc₁)).subset fun q hq => by
    simp only [pieces, List.flatMap_cons, Option.toList_none, List.map_nil, List.append_nil,
      List.mem_append, List.mem_cons, List.not_mem_nil, or_false] at hq ⊢
    rcases hq with (rfl | rfl) | hq
    · exact .inl (.inr rfl)
    · exact .inr rfl
    · exact .inl (.inl hq)

theorem armsLoop_covering {done : List (Arm Node)}
    (hdone : Keeps c₀ c (Node.choice done none default).pieces) :
    Gives (fun p c' => Keeps c₀ c' (Node.choice p.1 p.2 default).pieces)
      (armsLoop (n + 1) done) c := by
  unfold armsLoop
  refine .bind fun condition c₁ h => .expect_bind fun _ =>
    .accept_bind (fun _ => .bind fun body c₂ hbody => ?_) fun _ => .bind fun body c₂ hbody => ?_
  · have hreaches := (Cursor.Reaches.advance c₁).trans (.advance c₁.advance)
    have harms := hdone.arm true (ih.expression c condition c₁ h) hreaches
      (ih.statements _ body c₂ hbody)
    refine .accept_bind (fun _ => .pure ?_) fun _ => .peekKind_bind ?_
    · exact (harms.further (.advance c₂)).subset (pieces_reverse_subset _)
    · split
      · exact ih.moreArms harms
      · exact ih.moreArms harms
      · exact .fail
  · exact ih.moreArms (hdone.arm false (ih.expression c condition c₁ h) (.advance c₁)
      (ih.statement _ body c₂ hbody).keeps)

theorem moreArms_covering {done : List (Arm Node)}
    (hdone : Keeps c₀ c (Node.choice done none default).pieces) :
    Gives (fun p c' => Keeps c₀ c' (Node.choice p.1 p.2 default).pieces)
      (moreArms (n + 1) done) c := by
  unfold moreArms
  refine .accept_bind (fun _ => ih.armsLoop (hdone.further (.advance c))) fun _ =>
    .accept_bind (fun _ => .bind fun otherwise c₁ h => .pure ?_) fun _ => .pure ?_
  · have hotherwise := ih.branch _ otherwise c₁ h
    exact ((hdone.further (.advance c)).append hotherwise).subset fun q hq => by
      simpa [pieces] using hq
  · exact hdone.subset (pieces_reverse_subset done)

theorem branch_covering (c : Cursor) :
    Gives (fun b c' => Keeps c c' [(b.form, b.body)]) (branch (n + 1)) c := by
  unfold branch
  refine .accept_bind (fun _ => .bind fun body c₁ h => .expect_bind fun _ => .pure ?_)
    fun _ => .bind fun body c₁ h => .pure ?_
  · exact ((ih.statements _ body c₁ h).behind (.advance c)).further (.advance c₁)
  · exact (ih.statement c body c₁ h).keeps

theorem forLoop_covering (hk : c.peek.kind = .forWord) : Gives (Formed c) (forLoop (n + 1)) c := by
  refine .imp (P := fun _ c' => ∃ p, Cursor.Behind p c c')
    (fun _ _ h => ((stepping (n + 1)).forLoop c).behind h) ?_
  unfold forLoop
  refine .next_bind (.expect_bind fun _ => .expect_bind fun _ => .bind fun first c₁ hfirst =>
    .expect_bind fun _ => .bind fun last c₂ hlast => .bind fun step c₃ hstep =>
    .expect_bind fun _ => .bind fun body c₄ hbody => .spanFrom_bind (.pure
    fun hp hwhole => ?_))
  obtain ⟨p, hbehind⟩ := hp
  have hstep : Keeps c₂ c₃ (step.toList.map (.phrase, ·)) := by
    suffices h : Gives (fun (step : Option Node) c' => Keeps c₂ c' (step.toList.map (.phrase, ·)))
      _ c₂ from h step c₃ hstep
    refine .accept_bind (fun _ => .bind fun x c' h => .pure ?_) (fun _ => .pure (.nil (.refl c₂)))
    exact (ih.expression _ x c' h).keeps.behind (.advance c₂)
  have hfirst := (ih.expression _ first c₁ hfirst).keeps
  have hlast := (ih.expression _ last c₂ hlast).keeps
  have hbody := (ih.branch _ body c₄ hbody).behind (.advance c₃)
  have hpieces := ((hfirst.further (.advance c₁)).append hlast).append (hstep.append hbody)
  have hreaches := ((Cursor.Reaches.advance c).trans (.advance c.advance)).trans
    (.advance c.advance.advance)
  exact .of_spanFrom hbehind hwhole (by simp [hk]) rfl trivial
    ((hpieces.behind hreaches).subset fun q hq => by simpa [pieces] using hq).held

theorem whileLoop_covering (hk : c.peek.kind = .whileWord) :
    Gives (Formed c) (whileLoop (n + 1)) c := by
  refine .imp (P := fun _ c' => ∃ p, Cursor.Behind p c c')
    (fun _ _ h => ((stepping (n + 1)).whileLoop c).behind h) ?_
  unfold whileLoop
  refine .next_bind (.bind fun condition c₁ h => .expect_bind fun _ => .bind fun body c₂ hbody =>
    .spanFrom_bind (.pure fun hp hwhole => ?_))
  obtain ⟨p, hbehind⟩ := hp
  have hcondition := (ih.expression _ condition c₁ h).keeps
  have hpieces := (hcondition.further (.advance c₁)).append (ih.branch _ body c₂ hbody)
  exact .of_spanFrom hbehind hwhole (by simp [hk]) rfl trivial (hpieces.behind (.advance c)).held

theorem function_covering (hk : c.peek.kind = .fnWord) : Gives (Formed c) (function (n + 1)) c := by
  refine .imp (P := fun _ c' => ∃ p, Cursor.Behind p c c')
    (fun _ _ h => ((stepping (n + 1)).function c).behind h) ?_
  unfold function
  refine .next_bind (.bind fun name c₁ hname => .expect_bind fun _ => .bind fun params c₂ hparams => ?_)
  have hname : c.advance.Reaches 0 c₁ := by
    refine Advances.bind .peekKind (fun kind c => ?_) name c₁ hname
    split
    · exact .bind .next fun _ _ => .pure _
    · exact .pure _
  have hreaches : c.advance.Reaches 0 c₂ := (hname.trans (.advance c₁)).trans
    ((params_advances n _ params c₂ hparams).mono (Nat.zero_le 1))
  refine .accept_bind (fun _ => .bind fun body c₃ hbody => .pure fun _ hwhole => ?_) fun _ =>
    .expect_bind fun _ => .bind fun body c₃ hbody => .expect_bind fun _ =>
      .spanFrom_bind (.pure fun hp hwhole => ?_)
  · have hbody := ih.expression _ body c₃ hbody
    have hreaches := hreaches.trans (.advance c₂)
    refine .of_first hwhole (by simp [hk])
      ((Cursor.Covers.token (by simp [hk])).joined hreaches hbody.covers.closes) trivial ?_
    simpa [pieces] using hbody.held.mono ((Cursor.Reaches.advance c).trans hreaches) (.refl c₃)
  · obtain ⟨p, hbehind⟩ := hp
    have hbody := (ih.statements _ body c₃ hbody).further (.advance c₃)
    have hreaches := ((Cursor.Reaches.advance c).trans hreaches).trans (.advance c₂)
    exact .of_spanFrom hbehind hwhole (by simp [hk]) rfl trivial (hbody.behind hreaches).held

omit ih in
theorem covering (n : Nat) : Covering n := by
  induction n with
  | zero => exact covering_zero
  | succ n ih =>
      exact {
        statements := statements_covering ih
        statementsLoop := statementsLoop_covering ih
        statement := statement_covering ih
        expression := expression_covering ih
        declaration := declaration_covering ih
        annotated := annotated_covering ih
        chain := chain_covering ih
        chainLoop := chainLoop_covering ih
        operand := operand_covering ih
        factor := factor_covering ih
        powerLoop := powerLoop_covering ih
        call := call_covering ih
        callLoop := callLoop_covering ih
        items := items_covering ih
        itemsLoop := itemsLoop_covering ih
        atom := atom_covering ih
        choice := choice_covering ih
        armsLoop := armsLoop_covering ih
        moreArms := moreArms_covering ih
        branch := branch_covering ih
        forLoop := forLoop_covering ih
        whileLoop := whileLoop_covering ih
        function := function_covering ih }

end Grammar

end BasicScript
