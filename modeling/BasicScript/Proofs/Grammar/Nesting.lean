import BasicScript.Proofs.Grammar.Locating
import BasicScript.Proofs.Token.Tiling

/-! # Spans within spans

The span of a node contains those of its parts, one behind the other in the order of the source.
Each production computes its span in its own way, so what a reader has passed is carried along: the
token in front of a cursor starts no earlier than anything read before it ends. -/

namespace BasicScript

open Token Node

/-! ## What opens a block -/

/-- A block, the kind of the token that opens it, and parts that stand in front of this token. -/
structure Node.Opening where
  front : List Node
  opener : TokenKind
  body : Node

/-- A branch that is a block, behind `front`. -/
def Branch.openings (b : Branch Node) (front : List Node) (opener : TokenKind) :
    List Node.Opening :=
  if b.block then [⟨front, opener, b.body⟩] else []

namespace Node

/-- The blocks of a node. An arm is opened behind its condition, an `ELSE` behind the arms, a loop
behind what is evaluated ahead of its turns, and a function behind its parameters. -/
def openings : Node → List Opening
  | choice arms otherwise _ =>
    arms.flatMap (fun a => a.branch.openings [a.condition] .thenWord) ++
      otherwise.toList.flatMap (·.openings (arms.map (·.branch.body)) .elseWord)
  | forLoop _ first last step b _ => b.openings ([first, last] ++ step.toList) .thenWord
  | whileLoop c b _ => b.openings [c] .thenWord
  | function _ _ body arrow _ => if arrow then [] else [⟨[], .rightParen, body⟩]
  | _ => []

/-- The span is empty, and starts where the token behind the newline starts that follows the token
which opens the block. That one is behind `lo` and behind what stands in front of it. -/
def Opening.EmptyAt (o : Opening) (ts : List Token) (lo : Nat) (span : Span) : Prop :=
  ∃ read opener newline t rest, ts = read ++ opener :: newline :: t :: rest ∧
    opener.kind = o.opener ∧ newline.kind = .newline ∧ lo ≤ opener.span.start.offset ∧
    (∀ v ∈ o.front, v.span.stop.offset ≤ opener.span.start.offset) ∧
    span = .empty t.span.start

variable {x y : Node}

theorem block_eq_branch {b : Branch Node} {front : List Node} {opener : TokenKind} :
    (Form.block, y) = (b.form, b.body) ↔ ∃ o ∈ b.openings front opener, o.body = y := by
  obtain ⟨body, block⟩ := b
  cases block <;> simp [Branch.form, Branch.openings, eq_comm]

theorem exists_block_eq_branch {α : Type} {as : List α} {branch : α → Branch Node}
    {front : α → List Node} {opener : TokenKind} :
    (∃ a ∈ as, (Form.block, y) = ((branch a).form, (branch a).body)) ↔
      ∃ o ∈ as.flatMap fun a => (branch a).openings (front a) opener, o.body = y := by
  constructor
  · rintro ⟨a, ha, heq⟩
    obtain ⟨o, ho, hbody⟩ := block_eq_branch.mp heq
    exact ⟨o, List.mem_flatMap.mpr ⟨a, ha, ho⟩, hbody⟩
  · rintro ⟨o, ho, hbody⟩
    obtain ⟨a, ha, ho⟩ := List.mem_flatMap.mp ho
    exact ⟨a, ha, block_eq_branch.mpr ⟨o, ho, hbody⟩⟩

/-- Every block is opened. -/
theorem block_mem_pieces : (.block, y) ∈ x.pieces ↔ ∃ o ∈ x.openings, o.body = y := by
  cases x with
  | choice arms otherwise span =>
      have harms : (Form.block, y) ∈ arms.flatMap (fun a =>
          [(.phrase, a.condition), (a.branch.form, a.branch.body)]) ↔
            ∃ a ∈ arms, (Form.block, y) = (a.branch.form, a.branch.body) := by simp
      have hotherwise : (Form.block, y) ∈ otherwise.toList.map (fun b => (b.form, b.body)) ↔
          ∃ b ∈ otherwise.toList, (Form.block, y) = (b.form, b.body) := by simp [eq_comm]
      rw [pieces, openings, List.mem_append, harms, hotherwise]
      simp only [List.mem_append, or_and_right, exists_or]
      exact or_congr exists_block_eq_branch exists_block_eq_branch
  | forLoop name first last step b span =>
      simp [pieces, openings, ← block_eq_branch]
  | whileLoop c b span => simp [pieces, openings, ← block_eq_branch]
  | function name params body arrow span => cases arrow <;> simp [pieces, openings, eq_comm]
  | _ => simp [pieces, openings]

/-- A node that consists of phrases only has no blocks. -/
theorem openings_eq_nil (h : ∀ p ∈ x.pieces, p.1 = .phrase) : x.openings = [] := by
  refine List.eq_nil_iff_forall_not_mem.mpr fun o ho => ?_
  cases h _ (block_mem_pieces.mpr ⟨o, ho, rfl⟩)

/-! ## Nodes in their place -/

/-- The span of a node runs forward between two positions of the source, those of its parts are
inside and follow one another, and that of an empty block is where the block is opened. -/
structure InPlace (s : Source) (ts : List Token) (q : Form × Node) : Prop where
  start : q.2.span.start.IsIn s
  stop : q.2.span.stop.IsIn s
  forward : q.2.span.start.offset ≤ q.2.span.stop.offset
  inside : ∀ p ∈ q.2.pieces, q.2.span.start.offset ≤ p.2.span.start.offset ∧
    p.2.span.stop.offset ≤ q.2.span.stop.offset
  ordered : q.2.pieces.Pairwise fun p r => p.2.span.stop.offset ≤ r.2.span.start.offset
  opened : ∀ y, (.block, y) ∈ q.2.pieces → ∃ o ∈ q.2.openings, o.body = y
  empty : ∀ o ∈ q.2.openings, ∀ span, o.body = .list [] span →
    o.EmptyAt ts q.2.span.start.offset span

end Node

/-! ## Tokens in their place -/

namespace Cursor

/-- Where the next token starts. -/
def ahead (c : Cursor) : Nat :=
  c.peek.span.start.offset

/-- Where the last token ends. -/
def passed (c : Cursor) : Nat :=
  c.before.stop.offset

end Cursor

/-- A source and its tokens, each of which starts where those before it have ended. -/
structure Tokenized where
  source : Source
  tokens : List Token
  finish : Token
  start : ∀ t ∈ tokens ++ [finish], t.span.start.IsIn source
  stop : ∀ t ∈ tokens, t.span.stop.IsIn source
  forward : ∀ t ∈ tokens, t.span.start.offset ≤ t.span.stop.offset
  ordered : (tokens ++ [finish]).Pairwise fun t u => t.span.stop.offset ≤ u.span.start.offset

namespace Tokenized

variable {w : Tokenized} {c c' : Cursor} {d : Nat}

/-- `c` is a place in the tokens. -/
structure Amid (w : Tokenized) (c : Cursor) : Prop where
  split : ∃ read, w.tokens = read ++ c.rest
  finish : c.finish = w.finish

/-- `c` is a place behind some token. -/
structure Past (w : Tokenized) (c : Cursor) : Prop extends Amid w c where
  last : ∃ read t, w.tokens = read ++ t :: c.rest ∧ c.before = t.span

theorem Amid.of_reaches (h : w.Amid c) (hr : c.Reaches d c') : w.Amid c' := by
  obtain ⟨hfinish, read', hread', -⟩ := hr
  obtain ⟨read, hread⟩ := h.split
  exact ⟨⟨read ++ read', by rw [hread, hread', List.append_assoc]⟩, hfinish.trans h.finish⟩

/-- The next token comes first among those that are left. -/
theorem Amid.peek_split (h : w.Amid c) :
    ∃ read rest, w.tokens ++ [w.finish] = read ++ c.peek :: rest := by
  obtain ⟨read, hread⟩ := h.split
  cases hrest : c.rest with
  | nil => exact ⟨read, [], by simp [hread, hrest, Cursor.peek_of_rest_nil hrest, h.finish]⟩
  | cons t r =>
      exact ⟨read, r ++ [w.finish], by simp [hread, hrest, Cursor.peek_of_rest_cons hrest]⟩

theorem Amid.start (h : w.Amid c) : c.peek.span.start.IsIn w.source := by
  obtain ⟨read, rest, hsplit⟩ := h.peek_split
  exact w.start _ (by simp [hsplit])

theorem Past.stop (h : w.Past c) : c.before.stop.IsIn w.source := by
  obtain ⟨read, t, hread, hbefore⟩ := h.last
  rw [hbefore]
  exact w.stop t (by simp [hread])

theorem Past.passed_le (h : w.Past c) : c.passed ≤ c.ahead := by
  obtain ⟨read, t, hread, hbefore⟩ := h.last
  have hordered := w.ordered
  rw [hread, List.append_assoc, List.cons_append] at hordered
  rw [Cursor.passed, hbefore]
  refine (List.pairwise_cons.mp (List.pairwise_append.mp hordered).2.1).1 c.peek ?_
  cases hrest : c.rest with
  | nil => simp [Cursor.peek_of_rest_nil hrest, h.finish]
  | cons u r => simp [Cursor.peek_of_rest_cons hrest]

/-- A token is passed. -/
theorem Amid.advance (h : w.Amid c) (hk : c.peek.kind ≠ .endOfInput) :
    w.Past c.advance ∧ c.advance.before = c.peek.span ∧ c.ahead ≤ c.advance.passed := by
  obtain ⟨t, r, hr⟩ := List.exists_cons_of_ne_nil (Cursor.rest_ne_nil hk)
  obtain ⟨read, hread⟩ := h.split
  rw [hr] at hread
  have hbefore : c.advance.before = t.span := by rw [Cursor.advance_of_rest_cons hr]
  have hrest : c.advance.rest = r := by rw [Cursor.advance_of_rest_cons hr]
  refine ⟨⟨h.of_reaches (.advance c), read, t, by rw [hrest, hread], hbefore⟩, ?_, ?_⟩
  · rw [hbefore, Cursor.peek_of_rest_cons hr]
  · rw [Cursor.ahead, Cursor.passed, hbefore, Cursor.peek_of_rest_cons hr]
    exact w.forward t (by simp [hread])

theorem Amid.ahead_le (h : w.Amid c) (hr : c.Reaches d c') : c.ahead ≤ c'.ahead := by
  obtain ⟨hfinish, read', hread', -⟩ := hr
  cases read' with
  | nil =>
      have hpeek : c'.peek = c.peek := by rw [Cursor.peek, Cursor.peek, hread', hfinish]; rfl
      rw [Cursor.ahead, Cursor.ahead, hpeek]
  | cons t read' =>
      obtain ⟨read, hread⟩ := h.split
      rw [hread', List.cons_append] at hread
      have hordered := w.ordered
      have hforward := w.forward t (by simp [hread])
      rw [hread, List.append_assoc, List.cons_append] at hordered
      have hbehind := (List.pairwise_cons.mp (List.pairwise_append.mp hordered).2.1).1 c'.peek ?_
      · rw [Cursor.ahead, Cursor.ahead, Cursor.peek_of_rest_cons (by rw [hread', List.cons_append])]
        omega
      · cases hrest : c'.rest with
        | nil => simp [Cursor.peek_of_rest_nil hrest, hfinish, h.finish]
        | cons u r => simp [Cursor.peek_of_rest_cons hrest]

/-- A newline behind the next token, and the token that follows. -/
theorem Amid.newline_split (h : w.Amid c) (hk : c.peek.kind ≠ .endOfInput)
    (hnewline : c.advance.peek.kind = .newline) :
    ∃ read newline rest, w.tokens ++ [w.finish] =
      read ++ c.peek :: newline :: c.advance.advance.peek :: rest ∧ newline.kind = .newline := by
  obtain ⟨opener, r, hr⟩ := List.exists_cons_of_ne_nil (Cursor.rest_ne_nil hk)
  obtain ⟨newline, r', hr'⟩ := List.exists_cons_of_ne_nil
    (Cursor.rest_ne_nil (c := c.advance) (by simp [hnewline]))
  have hrest : c.rest = c.peek :: newline :: c.advance.advance.rest := by
    rw [Cursor.advance_of_rest_cons hr', Cursor.peek_of_rest_cons hr, hr, ← hr',
      Cursor.advance_of_rest_cons hr]
  rw [Cursor.peek_of_rest_cons hr'] at hnewline
  obtain ⟨read, hread⟩ := h.split
  have hamid := h.of_reaches ((Cursor.Reaches.advance c).trans (.advance c.advance))
  cases hlast : c.advance.advance.rest with
  | nil =>
      refine ⟨read, newline, [], ?_, hnewline⟩
      rw [hread, hrest, hlast, Cursor.peek_of_rest_nil hlast, hamid.finish, List.append_assoc]
      rfl
  | cons t q =>
      refine ⟨read, newline, q ++ [w.finish], ?_, hnewline⟩
      rw [hread, hrest, hlast, Cursor.peek_of_rest_cons hlast, List.append_assoc]
      rfl

/-- If the block is empty, it starts where it is opened, behind `lo`. -/
def Opens (w : Tokenized) (lo : Nat) (o : Opening) : Prop :=
  ∀ span, o.body = .list [] span → o.EmptyAt (w.tokens ++ [w.finish]) lo span

/-! ## Rows of nodes -/

/-- A node is in its place with all that it consists of. -/
def Sound (w : Tokenized) (q : Form × Node) : Prop :=
  ∀ r, Occurs q r → InPlace w.source (w.tokens ++ [w.finish]) r

/-- Sound nodes, one behind the other between two offsets. -/
inductive Row (w : Tokenized) : Nat → List (Form × Node) → Nat → Prop
  | nil {lo hi : Nat} (h : lo ≤ hi) : Row w lo [] hi
  | cons {lo hi : Nat} {q : Form × Node} {qs : List (Form × Node)}
      (hlo : lo ≤ q.2.span.start.offset) (hq : w.Sound q)
      (hqs : Row w q.2.span.stop.offset qs hi) : Row w lo (q :: qs) hi

theorem Sound.self {q : Form × Node} (h : w.Sound q) :
    InPlace w.source (w.tokens ++ [w.finish]) q :=
  h q (.refl q)

namespace Row

variable {lo mid hi lo' hi' : Nat} {q a b : Form × Node} {qs rs : List (Form × Node)} {x : Node}

theorem le (h : w.Row lo qs hi) : lo ≤ hi := by
  induction h with
  | nil h => exact h
  | cons hlo hq _ ih => exact Nat.le_trans hlo (Nat.le_trans hq.self.forward ih)

theorem widen (h : w.Row lo qs hi) (hlo : lo' ≤ lo) (hhi : hi ≤ hi') : w.Row lo' qs hi' := by
  induction h generalizing lo' with
  | nil h => exact .nil (by omega)
  | cons hle hq _ ih => exact .cons (Nat.le_trans hlo hle) hq (ih (Nat.le_refl _) hhi)

theorem append (h : w.Row lo qs mid) (h' : w.Row mid rs hi) : w.Row lo (qs ++ rs) hi := by
  induction h with
  | nil h => exact h'.widen h (Nat.le_refl _)
  | cons hlo hq _ ih => exact .cons hlo hq (ih h')

theorem inside (h : w.Row lo qs hi) :
    ∀ p ∈ qs, lo ≤ p.2.span.start.offset ∧ p.2.span.stop.offset ≤ hi := by
  induction h with
  | nil => simp
  | cons hlo hq hqs ih =>
      refine List.forall_mem_cons.mpr ⟨⟨hlo, hqs.le⟩, fun p hp => ⟨?_, (ih p hp).2⟩⟩
      exact Nat.le_trans hlo (Nat.le_trans hq.self.forward (ih p hp).1)

theorem ordered (h : w.Row lo qs hi) :
    qs.Pairwise fun p r => p.2.span.stop.offset ≤ r.2.span.start.offset := by
  induction h with
  | nil => exact .nil
  | cons _ _ hqs ih => exact List.pairwise_cons.mpr ⟨fun p hp => (hqs.inside p hp).1, ih⟩

theorem sound (h : w.Row lo qs hi) : ∀ p ∈ qs, w.Sound p := by
  induction h with
  | nil => simp
  | cons _ hq _ ih => exact List.forall_mem_cons.mpr ⟨hq, ih⟩

/-- A row starts with its first node and ends with its last. -/
theorem tight (h : w.Row lo qs hi) (ha : qs.head? = some a) (hb : qs.getLast? = some b) :
    w.Row a.2.span.start.offset qs b.2.span.stop.offset := by
  induction h generalizing a with
  | nil => cases ha
  | @cons lo hi q qs hlo hq hqs ih =>
      cases ha
      refine .cons (Nat.le_refl _) hq ?_
      cases qs with
      | nil =>
          cases hb
          exact .nil (Nat.le_refl _)
      | cons r rs =>
          rw [List.getLast?_cons_cons] at hb
          cases hqs with
          | cons hr _ _ => exact (ih rfl hb).widen hr (Nat.le_refl _)

/-- A node whose parts are a row between the ends of its span is sound. -/
theorem node (form : Form) (hstart : x.span.start.IsIn w.source)
    (hstop : x.span.stop.IsIn w.source)
    (h : w.Row x.span.start.offset x.pieces x.span.stop.offset)
    (hopened : ∀ o ∈ x.openings, w.Opens x.span.start.offset o) : w.Sound (form, x) := by
  intro r hr
  obtain rfl | ⟨u, hu, hr⟩ := hr.cases_head
  · exact ⟨hstart, hstop, h.le, h.inside, h.ordered, fun y => block_mem_pieces.mp, hopened⟩
  · exact h.sound u hu r hr

/-- The same of a node that has no blocks. -/
theorem plain (form : Form) (hstart : x.span.start.IsIn w.source)
    (hstop : x.span.stop.IsIn w.source)
    (h : w.Row x.span.start.offset x.pieces x.span.stop.offset)
    (hphrases : ∀ p ∈ x.pieces, p.1 = .phrase) : w.Sound (form, x) := by
  refine h.node form hstart hstop fun o ho => ?_
  rw [openings_eq_nil hphrases] at ho
  cases ho

theorem phrase (hlo : lo ≤ x.span.start.offset) (hx : w.Sound (.phrase, x))
    (hhi : x.span.stop.offset ≤ hi) : w.Row lo [(.phrase, x)] hi :=
  .cons hlo hx (.nil hhi)

end Row

/-! ## What a reader has passed -/

/-- A row of nodes has been read, up to the next token. -/
structure Spread (w : Tokenized) (lo : Nat) (qs : List (Form × Node)) (c : Cursor) : Prop where
  amid : w.Amid c
  row : w.Row lo qs c.ahead

/-- A row of nodes has been read, up to the last token. -/
structure Reads (w : Tokenized) (lo : Nat) (qs : List (Form × Node)) (c : Cursor) : Prop where
  past : w.Past c
  row : w.Row lo qs c.passed

variable {lo hi : Nat} {qs rs : List (Form × Node)} {x v : Node}

theorem Spread.start (h : w.Amid c) : w.Spread c.ahead [] c :=
  ⟨h, .nil (Nat.le_refl _)⟩

theorem Spread.further (h : w.Spread lo qs c) (hr : c.Reaches d c') : w.Spread lo qs c' :=
  ⟨h.amid.of_reaches hr, h.row.widen (Nat.le_refl _) (h.amid.ahead_le hr)⟩

theorem Spread.token (h : w.Spread lo qs c) (hk : c.peek.kind ≠ .endOfInput) :
    w.Reads lo qs c.advance := by
  obtain ⟨hpast, -, hle⟩ := h.amid.advance hk
  exact ⟨hpast, h.row.widen (Nat.le_refl _) hle⟩

theorem Spread.reads (h : w.Spread lo qs c) (h' : w.Reads c.ahead rs c') :
    w.Reads lo (qs ++ rs) c' :=
  ⟨h'.past, h.row.append h'.row⟩

theorem Spread.spread (h : w.Spread lo qs c) (h' : w.Spread c.ahead rs c') :
    w.Spread lo (qs ++ rs) c' :=
  ⟨h'.amid, h.row.append h'.row⟩

theorem Reads.spread (h : w.Reads lo qs c) : w.Spread lo qs c :=
  ⟨h.past.toAmid, h.row.widen (Nat.le_refl _) h.past.passed_le⟩

namespace Reads

/-- A node from its first token to its last. -/
theorem enclosed (hc : w.Amid c) (h : w.Reads c.ahead x.pieces c')
    (hspan : x.span = c.peek.span.through c'.before)
    (hopened : ∀ o ∈ x.openings, w.Opens c.ahead o) : w.Reads c.ahead [(.phrase, x)] c' := by
  have hstart : x.span.start = c.peek.span.start := by rw [hspan]; rfl
  have hstop : x.span.stop = c'.before.stop := by rw [hspan]; rfl
  have hrow : w.Row x.span.start.offset x.pieces x.span.stop.offset := by
    rw [hstart, hstop]
    exact h.row
  have hsound := Row.node .phrase (hstart ▸ hc.start) (hstop ▸ h.past.stop) hrow
    (by rw [hstart]; exact hopened)
  exact ⟨h.past, .phrase (Nat.le_of_eq (by rw [hstart]; rfl)) hsound
    (Nat.le_of_eq (by rw [hstop]; rfl))⟩

/-- A node of one token. -/
theorem leaf (hc : w.Amid c) (hk : c.peek.kind ≠ .endOfInput) (hpieces : x.pieces = [])
    (hspan : x.span = c.peek.span) : w.Reads c.ahead [(.phrase, x)] c.advance := by
  have h := (Spread.start hc).token hk
  rw [← hpieces] at h
  refine h.enclosed hc ?_ ?_
  · rw [hspan, (hc.advance hk).2.1]
    rfl
  · rw [openings_eq_nil (by simp [hpieces])]
    exact List.forall_mem_nil _

/-- A node from its first token to the end of its only part. -/
theorem prefixed (hc : w.Amid c) (hpieces : x.pieces = [(.phrase, v)])
    (h : w.Reads c.ahead [(.phrase, v)] c') (hspan : x.span = c.peek.span.through v.span) :
    w.Reads c.ahead [(.phrase, x)] c' := by
  have hstart : x.span.start = c.peek.span.start := by rw [hspan]; rfl
  have hstop : x.span.stop = v.span.stop := by rw [hspan]; rfl
  have hv := h.row.sound _ List.mem_cons_self
  have hinside := h.row.inside _ List.mem_cons_self
  have hrow : w.Row x.span.start.offset x.pieces x.span.stop.offset := by
    rw [hstart, hstop, hpieces]
    exact .phrase hinside.1 hv (Nat.le_refl _)
  have hsound := Row.plain .phrase (hstart ▸ hc.start) (hstop ▸ hv.self.stop) hrow
    (by simp [hpieces])
  exact ⟨h.past, .phrase (Nat.le_of_eq (by rw [hstart]; rfl)) hsound
    (by rw [hstop]; exact hinside.2)⟩

/-- A node from its first part to its last. -/
theorem joined {l r : Node} (hpieces : x.pieces = [(.phrase, l), (.phrase, r)])
    (h : w.Reads lo [(.phrase, l), (.phrase, r)] c') (hspan : x.span = l.span.through r.span) :
    w.Reads lo [(.phrase, x)] c' := by
  have hstart : x.span.start = l.span.start := by rw [hspan]; rfl
  have hstop : x.span.stop = r.span.stop := by rw [hspan]; rfl
  have hl := h.row.sound (.phrase, l) (by simp)
  have hr := h.row.sound (.phrase, r) (by simp)
  have hrow : w.Row x.span.start.offset x.pieces x.span.stop.offset := by
    rw [hstart, hstop, hpieces]
    exact h.row.tight rfl rfl
  have hsound := Row.plain .phrase (hstart ▸ hl.self.start) (hstop ▸ hr.self.stop) hrow
    (by simp [hpieces])
  exact ⟨h.past, .phrase (hstart ▸ (h.row.inside (.phrase, l) (by simp)).1) hsound
    (hstop ▸ (h.row.inside (.phrase, r) (by simp)).2)⟩

/-- A node from its first part to its last token. -/
theorem suffixed {vs : List Node} (hpieces : x.pieces = (.phrase, v) :: vs.map (.phrase, ·))
    (h : w.Reads lo ((.phrase, v) :: vs.map (.phrase, ·)) c')
    (hspan : x.span = v.span.through c'.before) : w.Reads lo [(.phrase, x)] c' := by
  have hstart : x.span.start = v.span.start := by rw [hspan]; rfl
  have hstop : x.span.stop = c'.before.stop := by rw [hspan]; rfl
  have hv := h.row.sound (.phrase, v) (by simp)
  have hrow : w.Row x.span.start.offset x.pieces x.span.stop.offset := by
    rw [hstart, hstop, hpieces]
    cases h.row with
    | cons _ hq hqs => exact .cons (Nat.le_refl _) hq hqs
  have hsound := Row.plain .phrase (hstart ▸ hv.self.start) (hstop ▸ h.past.stop) hrow
    (by simp [hpieces])
  exact ⟨h.past, .phrase (hstart ▸ (h.row.inside (.phrase, v) (by simp)).1) hsound
    (Nat.le_of_eq (by rw [hstop]; rfl))⟩

end Reads

/-- The lines of a block have been read. Where it is opened is known to its construct. -/
structure Block (w : Tokenized) (c : Cursor) (x : Node) (c' : Cursor) : Prop where
  amid : w.Amid c'
  sound : w.Sound (.block, x)
  low : c.ahead ≤ x.span.start.offset
  high : x.span.stop.offset ≤ c'.ahead
  empty : ∀ span, x = .list [] span → span = .empty c.peek.span.start

theorem Block.of_lines {lines : List Node} (hc : w.Amid c)
    (h : w.Spread c.ahead (lines.map (.phrase, ·)) c') :
    w.Block c (.list lines (Grammar.statementsSpan c.peek.span.start lines)) c' := by
  cases lines with
  | nil =>
      refine ⟨h.amid, ?_, Nat.le_refl _, h.row.le, fun _ heq => by cases heq; rfl⟩
      exact Row.plain .block hc.start hc.start (.nil (Nat.le_refl _)) (List.forall_mem_nil _)
  | cons first rest =>
      obtain ⟨last, hlast⟩ : ∃ last, (first :: rest).getLast? = some last :=
        ⟨_, List.getLast?_eq_some_getLast (List.cons_ne_nil _ _)⟩
      have hspan : Grammar.statementsSpan c.peek.span.start (first :: rest) =
          first.span.through last.span := by
        rw [Grammar.statementsSpan, hlast]
        rfl
      have hlast' : ((first :: rest).map (Form.phrase, ·)).getLast? = some (Form.phrase, last) := by
        rw [List.getLast?_map, hlast]
        rfl
      have hmem := List.mem_of_getLast? hlast'
      have hstart := (h.row.sound _ List.mem_cons_self).self.start
      have hstop := (h.row.sound _ hmem).self.stop
      rw [hspan]
      refine ⟨h.amid, ?_, (h.row.inside _ List.mem_cons_self).1, (h.row.inside _ hmem).2,
        fun _ heq => by cases heq⟩
      exact Row.plain .block hstart hstop (h.row.tight rfl hlast') (by simp [pieces, parts])

/-- A block behind the next token and a newline. -/
theorem Block.spread (hc : w.Amid c) (h : w.Block c.advance.advance x c') :
    w.Spread c.advance.ahead [(.block, x)] c' := by
  have hle := (hc.of_reaches (.advance c)).ahead_le (.advance c.advance)
  exact ⟨h.amid, .cons (Nat.le_trans hle h.low) h.sound (.nil h.high)⟩

/-- The next token opens the block behind it and a newline. -/
theorem Block.opens (hc : w.Amid c) (hk : c.peek.kind ≠ .endOfInput)
    (hnewline : c.advance.peek.kind = .newline) (h : w.Block c.advance.advance x c')
    (hlo : lo ≤ c.ahead) (front : List Node) (hfront : ∀ v ∈ front, v.span.stop.offset ≤ c.ahead) :
    w.Opens lo ⟨front, c.peek.kind, x⟩ := by
  intro span hx
  obtain ⟨read, newline, rest, hsplit, hkind⟩ := hc.newline_split hk hnewline
  exact ⟨read, _, newline, _, rest, hsplit, rfl, hkind, hlo, hfront, h.empty span hx⟩

end Tokenized

/-! ## Reading -/

namespace Grammar

variable {w : Tokenized} {c c' c₁ : Cursor} {n lo : Nat} {level : Level} {x left base callee : Node}
  {done : List Node}

/-- A node has been read between two cursors. -/
def Phrased (w : Tokenized) (c : Cursor) (x : Node) (c' : Cursor) : Prop :=
  w.Reads c.ahead [(.phrase, x)] c'

/-- A branch has been read behind the next token, which opens it if it is a block. -/
structure Branched (w : Tokenized) (c : Cursor) (b : Branch Node) (c' : Cursor) : Prop where
  reads : w.Reads c.advance.ahead [(b.form, b.body)] c'
  opens : ∀ {lo}, lo ≤ c.ahead → ∀ front : List Node,
    (∀ v ∈ front, v.span.stop.offset ≤ c.ahead) → ∀ o ∈ b.openings front c.peek.kind, w.Opens lo o

/-- The arms of an `IF` have been read up to the next token, and their blocks are opened. -/
structure ArmsSpread (w : Tokenized) (lo : Nat) (arms : List (Arm Node)) (c : Cursor) : Prop where
  spread : w.Spread lo (Node.choice arms none default).pieces c
  opens : ∀ o ∈ (Node.choice arms none default).openings, w.Opens lo o

/-- The arms of an `IF` and its `ELSE` have been read up to the last token, and the blocks are
opened. -/
structure ArmsRead (w : Tokenized) (lo : Nat) (p : List (Arm Node) × Option (Branch Node))
    (c : Cursor) : Prop where
  reads : w.Reads lo (Node.choice p.1 p.2 default).pieces c
  opens : ∀ o ∈ (Node.choice p.1 p.2 default).openings, w.Opens lo o

/-- What each function of the grammar with fuel `n` passes. -/
structure Nesting (w : Tokenized) (n : Nat) : Prop where
  statements : ∀ {c}, w.Amid c → Gives (w.Block c) (statements n) c
  statementsLoop : ∀ {lo done c}, w.Spread lo (done.reverse.map (.phrase, ·)) c →
    Gives (fun lines c' => w.Spread lo (lines.map (.phrase, ·)) c') (statementsLoop n done) c
  statement : ∀ {c}, w.Amid c → Gives (Phrased w c) (statement n) c
  expression : ∀ {c}, w.Amid c → Gives (Phrased w c) (expression n) c
  declaration : ∀ {tag c}, w.Amid c → Gives (Phrased w c) (declaration n tag) c
  annotated : ∀ {c}, w.Amid c → Gives (Phrased w c) (annotated n) c
  chain : ∀ {level c}, w.Amid c → Gives (Phrased w c) (chain n level) c
  chainLoop : ∀ {level left lo c}, w.Reads lo [(.phrase, left)] c →
    Gives (fun x c' => w.Reads lo [(.phrase, x)] c') (chainLoop n level left) c
  operand : ∀ {level c}, w.Amid c → Gives (Phrased w c) (operand n level) c
  factor : ∀ {c}, w.Amid c → Gives (Phrased w c) (factor n) c
  powerLoop : ∀ {base lo c}, w.Reads lo [(.phrase, base)] c →
    Gives (fun x c' => w.Reads lo [(.phrase, x)] c') (powerLoop n base) c
  call : ∀ {c}, w.Amid c → Gives (Phrased w c) (call n) c
  callLoop : ∀ {callee lo c}, w.Reads lo [(.phrase, callee)] c →
    Gives (fun x c' => w.Reads lo [(.phrase, x)] c') (callLoop n callee) c
  items : ∀ {close c}, w.Amid c →
    Gives (fun xs c' => w.Spread c.ahead (xs.map (.phrase, ·)) c') (items n close) c
  itemsLoop : ∀ {lo done c}, w.Spread lo (done.reverse.map (.phrase, ·)) c →
    Gives (fun xs c' => w.Spread lo (xs.map (.phrase, ·)) c') (itemsLoop n done) c
  atom : ∀ {c}, w.Amid c → Gives (Phrased w c) (atom n) c
  choice : ∀ {c}, w.Amid c → Gives (Phrased w c) (choice n) c
  armsLoop : ∀ {lo done c}, ArmsSpread w lo done.reverse c →
    Gives (ArmsRead w lo) (armsLoop n done) c
  moreArms : ∀ {lo done c}, ArmsSpread w lo done.reverse c →
    (c.peek.kind ≠ .elifWord → c.peek.kind ≠ .elseWord → ArmsRead w lo (done.reverse, none) c) →
    Gives (ArmsRead w lo) (moreArms n done) c
  branch : ∀ {c}, w.Amid c → c.peek.kind ≠ .endOfInput →
    Gives (Branched w c) (branch n) c.advance
  forLoop : ∀ {c}, w.Amid c → Gives (Phrased w c) (forLoop n) c
  whileLoop : ∀ {c}, w.Amid c → Gives (Phrased w c) (whileLoop n) c
  function : ∀ {c}, w.Amid c → Gives (Phrased w c) (function n) c

theorem nesting_zero : Nesting w 0 := by
  constructor <;> intros <;> exact .throw

/-- The parenthesis that closes the parameters comes last. -/
theorem params_closing (n : Nat) (c : Cursor) :
    Gives (fun _ c' => ∃ d, c.Reaches 0 d ∧ d.peek.kind = .rightParen ∧ c' = d.advance)
      (params n) c := by
  unfold params
  refine .peekKind_bind ?_
  split
  · refine .next_bind (.bind fun names c₁ h => .expect_bind fun hclose => .pure ?_)
    exact ⟨c₁, (Cursor.Reaches.advance c).trans (paramsLoop_advances _ n _ names c₁ h), hclose, rfl⟩
  · exact .expect_bind fun hclose => .pure ⟨c, .refl c, hclose, rfl⟩

section

variable (ih : Nesting w n)

include ih

theorem statements_nesting (hc : w.Amid c) : Gives (w.Block c) (statements (n + 1)) c := by
  unfold statements
  refine .peek_bind (.bind fun lines c' h => .pure ?_)
  exact .of_lines hc (ih.statementsLoop (.start hc) lines c' h)

theorem statementsLoop_nesting (hdone : w.Spread lo (done.reverse.map (.phrase, ·)) c) :
    Gives (fun lines c' => w.Spread lo (lines.map (.phrase, ·)) c')
      (statementsLoop (n + 1) done) c := by
  unfold statementsLoop
  have hblank := hdone.further (Advances.skipNewlines () _ rfl)
  refine .skipNewlines_bind (.peekKind_bind ?_)
  split
  · exact .pure hblank
  · refine .bind fun line c' h => .peekKind_bind ?_
    have hlines := (hblank.reads (ih.statement hblank.amid line c' h)).spread
    have hlines : w.Spread lo ((line :: done).reverse.map (.phrase, ·)) c' := by
      simpa using hlines
    split
    · exact ih.statementsLoop hlines
    · exact .pure hlines

theorem statement_nesting (hc : w.Amid c) : Gives (Phrased w c) (statement (n + 1)) c := by
  unfold statement
  refine .peekKind_bind ?_
  split
  · rename_i hk
    refine .next_bind (.peekKind_bind ?_)
    split
    · refine .bind fun value c' h => .pure ?_
      have hspread := (Tokenized.Spread.start hc).further (.advance c)
      exact .prefixed hc rfl (hspread.reads (ih.expression hspread.amid value c' h)) rfl
    · exact .pure (.leaf hc (by simp [hk]) rfl rfl)
  · rename_i hk
    exact .next_bind (.pure (.leaf hc (by simp [hk]) rfl rfl))
  · rename_i hk
    exact .next_bind (.pure (.leaf hc (by simp [hk]) rfl rfl))
  · exact ih.expression hc

theorem expression_nesting (hc : w.Amid c) : Gives (Phrased w c) (expression (n + 1)) c := by
  unfold expression
  refine .peekKind_bind ?_
  split
  · exact ih.declaration hc
  · refine .get_bind ?_
    split
    · exact ih.annotated hc
    · exact ih.chain hc

theorem declaration_nesting {tag : Tag} (hc : w.Amid c) :
    Gives (Phrased w c) (declaration (n + 1) tag) c := by
  unfold declaration
  refine .next_bind (.expect_bind fun _ => .expect_bind fun _ => .bind fun value c' h => .pure ?_)
  have hspread := (((Tokenized.Spread.start hc).further (.advance c)).further
    (.advance c.advance)).further (.advance c.advance.advance)
  exact .prefixed hc rfl (hspread.reads (ih.expression hspread.amid value c' h)) rfl

theorem annotated_nesting (hc : w.Amid c) : Gives (Phrased w c) (annotated (n + 1)) c := by
  unfold annotated
  refine .next_bind (.next_bind (.next_bind ?_))
  split
  · exact .failAt
  · refine .expect_bind fun _ => .bind fun value c' h => .pure ?_
    have hspread := ((((Tokenized.Spread.start hc).further (.advance c)).further
      (.advance c.advance)).further (.advance c.advance.advance)).further
      (.advance c.advance.advance.advance)
    exact .prefixed hc rfl (hspread.reads (ih.expression hspread.amid value c' h)) rfl

theorem chain_nesting (hc : w.Amid c) : Gives (Phrased w c) (chain (n + 1) level) c := by
  unfold chain
  refine .peekKind_bind ?_
  split
  · refine .next_bind (.bind fun operand c' h => .pure ?_)
    have hspread := (Tokenized.Spread.start hc).further (.advance c)
    exact .prefixed hc rfl (hspread.reads (ih.chain hspread.amid operand c' h)) rfl
  · refine .bind fun left c₁ h => ?_
    exact ih.chainLoop (ih.operand hc left c₁ h)

theorem chainLoop_nesting (hleft : w.Reads lo [(.phrase, left)] c) :
    Gives (fun x c' => w.Reads lo [(.phrase, x)] c') (chainLoop (n + 1) level left) c := by
  unfold chainLoop
  refine .peekKind_bind ?_
  split
  · exact .pure hleft
  · refine .next_bind (.bind fun right c₁ h => ?_)
    have hspread := hleft.spread.further (.advance c)
    exact ih.chainLoop (.joined rfl (hspread.reads (ih.operand hspread.amid right c₁ h)) rfl)

theorem operand_nesting (hc : w.Amid c) : Gives (Phrased w c) (operand (n + 1) level) c := by
  unfold operand
  split
  · exact ih.chain hc
  · exact ih.factor hc

theorem factor_nesting (hc : w.Amid c) : Gives (Phrased w c) (factor (n + 1)) c := by
  unfold factor
  refine .peekKind_bind ?_
  split
  · refine .next_bind (.bind fun operand c' h => .pure ?_)
    have hspread := (Tokenized.Spread.start hc).further (.advance c)
    exact .prefixed hc rfl (hspread.reads (ih.factor hspread.amid operand c' h)) rfl
  · exact .bind fun base c₁ h => ih.powerLoop (ih.call hc base c₁ h)

theorem powerLoop_nesting (hbase : w.Reads lo [(.phrase, base)] c) :
    Gives (fun x c' => w.Reads lo [(.phrase, x)] c') (powerLoop (n + 1) base) c := by
  unfold powerLoop
  refine .accept_bind (fun _ => .bind fun exponent c₁ h => ?_) fun _ => .pure hbase
  have hspread := hbase.spread.further (.advance c)
  exact ih.powerLoop (.joined rfl (hspread.reads (ih.factor hspread.amid exponent c₁ h)) rfl)

theorem call_nesting (hc : w.Amid c) : Gives (Phrased w c) (call (n + 1)) c := by
  unfold call
  exact .bind fun callee c₁ h => ih.callLoop (ih.atom hc callee c₁ h)

theorem callLoop_nesting (hcallee : w.Reads lo [(.phrase, callee)] c) :
    Gives (fun x c' => w.Reads lo [(.phrase, x)] c') (callLoop (n + 1) callee) c := by
  unfold callLoop
  refine .accept_bind (fun _ => .bind fun args c₁ h => .expect_bind fun hclose => ?_)
    fun _ => .pure hcallee
  have hspread := hcallee.spread.further (.advance c)
  have hargs := hspread.spread (ih.items hspread.amid args c₁ h)
  have hk : c₁.peek.kind ≠ .endOfInput := by simp [hclose]
  exact ih.callLoop (.suffixed rfl (hargs.token hk) (by rw [(hargs.amid.advance hk).2.1]; rfl))

theorem items_nesting {close : TokenKind} (hc : w.Amid c) :
    Gives (fun xs c' => w.Spread c.ahead (xs.map (.phrase, ·)) c') (items (n + 1) close) c := by
  unfold items
  refine .peekKind_bind ?_
  split
  · exact .pure (.start hc)
  · exact ih.itemsLoop (.start hc)

theorem itemsLoop_nesting (hdone : w.Spread lo (done.reverse.map (.phrase, ·)) c) :
    Gives (fun xs c' => w.Spread lo (xs.map (.phrase, ·)) c') (itemsLoop (n + 1) done) c := by
  unfold itemsLoop
  refine .bind fun item c₁ h => ?_
  have hitems := (hdone.reads (ih.expression hdone.amid item c₁ h)).spread
  have hitems : w.Spread lo ((item :: done).reverse.map (.phrase, ·)) c₁ := by
    simpa using hitems
  exact .accept_bind (fun _ => ih.itemsLoop (hitems.further (.advance c₁))) fun _ => .pure hitems

theorem atom_nesting (hc : w.Amid c) : Gives (Phrased w c) (atom (n + 1)) c := by
  unfold atom
  refine .peek_bind ?_
  split
  all_goals rename_i hk
  iterate 2
    refine .next_bind ?_
    split
    · exact .pure (.leaf hc (by simp [hk]) rfl rfl)
    · exact .failAt
  · exact .next_bind (.pure (.leaf hc (by simp [hk]) rfl rfl))
  · exact .next_bind (.pure (.leaf hc (by simp [hk]) rfl rfl))
  · refine .next_bind (.bind fun inner c₁ h => .expect_bind fun hclose => .pure ?_)
    have hspread := (Tokenized.Spread.start hc).further (.advance c)
    exact (hspread.reads (ih.expression hspread.amid inner c₁ h)).spread.token (by simp [hclose])
  · refine .next_bind (.bind fun elements c₁ h => .expect_bind fun hclose => .pure ?_)
    have hspread := (Tokenized.Spread.start hc).further (.advance c)
    have helements := hspread.spread (ih.items hspread.amid elements c₁ h)
    have hclose : c₁.peek.kind ≠ .endOfInput := by simp [hclose]
    exact .enclosed hc (helements.token hclose) (by rw [(helements.amid.advance hclose).2.1]; rfl)
      (List.forall_mem_nil _)
  · exact ih.choice hc
  · exact ih.forLoop hc
  · exact ih.whileLoop hc
  · exact ih.function hc
  · exact .fail

theorem choice_nesting (hc : w.Amid c) : Gives (Phrased w c) (choice (n + 1)) c := by
  unfold choice
  refine .next_bind (.bind fun clauses c' h => .spanFrom_bind (.pure ?_))
  have hspread := (Tokenized.Spread.start hc).further (.advance c)
  have hnone : ArmsSpread w c.ahead ([] : List (Arm Node)).reverse c.advance :=
    ⟨hspread, List.forall_mem_nil _⟩
  have harms := ih.armsLoop hnone clauses c' h
  exact .enclosed hc harms.reads rfl harms.opens

omit ih in
theorem pieces_arms_concat (done : List (Arm Node)) (condition : Node) (b : Branch Node) :
    (Node.choice (⟨condition, b⟩ :: done).reverse none default).pieces =
      (Node.choice done.reverse none default).pieces ++
        ([(.phrase, condition)] ++ [(b.form, b.body)]) := by
  simp [pieces]

omit ih in
theorem mem_openings_concat {done : List (Arm Node)} {condition : Node} {b : Branch Node}
    {o : Opening} :
    o ∈ (Node.choice (⟨condition, b⟩ :: done).reverse none default).openings ↔
      o ∈ (Node.choice done.reverse none default).openings ∨
        o ∈ b.openings [condition] .thenWord := by
  simp [openings]

theorem armsLoop_nesting {done : List (Arm Node)} (hdone : ArmsSpread w lo done.reverse c) :
    Gives (ArmsRead w lo) (armsLoop (n + 1) done) c := by
  unfold armsLoop
  refine .bind fun condition c₁ h => .expect_bind fun hthen => ?_
  have hread := ih.expression hdone.spread.amid condition c₁ h
  have hcondition := hread.spread.further (.advance c₁)
  refine .accept_bind (fun hnewline => .bind fun body c₂ hbody => ?_)
    fun _ => .bind fun body c₂ hbody => ?_
  · have hblock := ih.statements (hcondition.amid.of_reaches (.advance _)) body c₂ hbody
    have hbehind : w.Spread lo [] c := ⟨hdone.spread.amid, .nil hdone.spread.row.le⟩
    have hfront := (hbehind.reads hread).spread
    have hopens := hblock.opens hread.past.toAmid (by simp [hthen]) hnewline hfront.row.le
      [condition] (by simpa using (hfront.row.inside _ List.mem_cons_self).2)
    rw [hthen] at hopens
    have harms : ArmsSpread w lo (⟨condition, body, true⟩ :: done).reverse c₂ := by
      refine ⟨?_, fun o ho => ?_⟩
      · rw [pieces_arms_concat]
        exact hdone.spread.spread (hcondition.spread (hblock.spread hread.past.toAmid))
      · obtain ho | ho := mem_openings_concat.mp ho
        · exact hdone.opens o ho
        · exact List.mem_singleton.mp ho ▸ hopens
    refine .accept_bind (fun hend => .pure ⟨harms.spread.token (by simp [hend]), harms.opens⟩)
      fun _ => .peekKind_bind ?_
    split
    · rename_i hk
      exact ih.moreArms harms fun helif _ => absurd hk helif
    · rename_i hk
      exact ih.moreArms harms fun _ helse => absurd hk helse
    · exact .fail
  · have harms : ArmsRead w lo ((⟨condition, body, false⟩ :: done).reverse, none) c₂ := by
      refine ⟨?_, fun o ho => ?_⟩
      · rw [pieces_arms_concat]
        exact hdone.spread.reads (hcondition.reads (ih.statement hcondition.amid body c₂ hbody))
      · obtain ho | ho := mem_openings_concat.mp ho
        · exact hdone.opens o ho
        · cases ho
    exact ih.moreArms ⟨harms.reads.spread, harms.opens⟩ fun _ _ => harms

theorem moreArms_nesting {done : List (Arm Node)} (hdone : ArmsSpread w lo done.reverse c)
    (hlast : c.peek.kind ≠ .elifWord → c.peek.kind ≠ .elseWord →
      ArmsRead w lo (done.reverse, none) c) :
    Gives (ArmsRead w lo) (moreArms (n + 1) done) c := by
  unfold moreArms
  refine .accept_bind
    (fun _ => ih.armsLoop ⟨hdone.spread.further (.advance c), hdone.opens⟩) fun helif =>
    .accept_bind (fun helse => .bind fun otherwise c₁ h => .pure ?_)
      fun helse => .pure (hlast helif helse)
  have hotherwise := ih.branch hdone.spread.amid (by simp [helse]) otherwise c₁ h
  have hpieces : (Node.choice done.reverse (some otherwise) default).pieces =
      (Node.choice done.reverse none default).pieces ++ [(otherwise.form, otherwise.body)] := by
    simp [pieces]
  have hbodies : ∀ v ∈ done.reverse.map (·.branch.body), v.span.stop.offset ≤ c.ahead := by
    refine List.forall_mem_map.mpr fun a ha => ?_
    exact (hdone.spread.row.inside (a.branch.form, a.branch.body)
      (List.mem_append_left _ (List.mem_flatMap.mpr ⟨a, ha, by simp⟩))).2
  have hopens := hotherwise.opens hdone.spread.row.le _ hbodies
  rw [helse] at hopens
  refine ⟨?_, fun o ho => ?_⟩
  · rw [hpieces]
    exact (hdone.spread.further (.advance c)).reads hotherwise.reads
  · have ho : o ∈ (Node.choice done.reverse none default).openings ∨
        o ∈ otherwise.openings (done.reverse.map (·.branch.body)) .elseWord := by
      simpa [openings] using ho
    exact ho.elim (hdone.opens o) (hopens o)

theorem branch_nesting (hc : w.Amid c) (hk : c.peek.kind ≠ .endOfInput) :
    Gives (Branched w c) (branch (n + 1)) c.advance := by
  have hamid := hc.of_reaches (.advance c)
  unfold branch
  refine .accept_bind (fun hnewline => .bind fun body c₁ h => .expect_bind fun hend => .pure ?_)
    fun _ => .bind fun body c₁ h => .pure ?_
  · have hblock := ih.statements (hamid.of_reaches (.advance _)) body c₁ h
    refine ⟨(hblock.spread hc).token (by simp [hend]), fun hlo front hfront => ?_⟩
    exact List.forall_mem_singleton.mpr (hblock.opens hc hk hnewline hlo front hfront)
  · exact ⟨ih.statement hamid body c₁ h, fun _ _ _ => List.forall_mem_nil _⟩

theorem forLoop_nesting (hc : w.Amid c) : Gives (Phrased w c) (forLoop (n + 1)) c := by
  unfold forLoop
  refine .next_bind (.expect_bind fun _ => .expect_bind fun _ => .bind fun first c₁ hfirst =>
    .expect_bind fun _ => .bind fun last c₂ hlast => .bind fun step c₃ hstep =>
    .expect_bind fun hthen => .bind fun body c₄ hbody => .spanFrom_bind (.pure ?_))
  have hname := (((Tokenized.Spread.start hc).further (.advance c)).further
    (.advance c.advance)).further (.advance c.advance.advance)
  have hfirst := (hname.reads (ih.expression hname.amid first c₁ hfirst)).spread.further
    (.advance c₁)
  have hlast := (hfirst.reads (ih.expression hfirst.amid last c₂ hlast)).spread
  have hstep : w.Spread c₂.ahead (step.toList.map (.phrase, ·)) c₃ := by
    suffices h : Gives (fun (step : Option Node) c' =>
        w.Spread c₂.ahead (step.toList.map (.phrase, ·)) c') _ c₂ from h step c₃ hstep
    have hstart := Tokenized.Spread.start hlast.amid
    refine .accept_bind (fun _ => .bind fun x c' h => .pure ?_) fun _ => .pure hstart
    have hfurther := hstart.further (.advance c₂)
    exact (hfurther.reads (ih.expression hfurther.amid x c' h)).spread
  have hbounds := hlast.spread hstep
  have hbody := ih.branch hbounds.amid (by simp [hthen]) body c₄ hbody
  have hopens := hbody.opens hbounds.row.le ([first, last] ++ step.toList) fun v hv =>
    (hbounds.row.inside (.phrase, v) (by simpa using hv)).2
  rw [hthen] at hopens
  exact .enclosed hc ((hbounds.further (.advance c₃)).reads hbody.reads) rfl hopens

theorem whileLoop_nesting (hc : w.Amid c) : Gives (Phrased w c) (whileLoop (n + 1)) c := by
  unfold whileLoop
  refine .next_bind (.bind fun condition c₁ h => .expect_bind fun hthen =>
    .bind fun body c₂ hbody => .spanFrom_bind (.pure ?_))
  have hspread := (Tokenized.Spread.start hc).further (.advance c)
  have hcondition := (hspread.reads (ih.expression hspread.amid condition c₁ h)).spread
  have hbody := ih.branch hcondition.amid (by simp [hthen]) body c₂ hbody
  have hopens := hbody.opens hcondition.row.le [condition]
    (by simpa using (hcondition.row.inside _ List.mem_cons_self).2)
  rw [hthen] at hopens
  exact .enclosed hc ((hcondition.further (.advance c₁)).reads hbody.reads) rfl hopens

theorem function_nesting (hc : w.Amid c) : Gives (Phrased w c) (function (n + 1)) c := by
  unfold function
  refine .next_bind (.bind fun name c₁ hname => .expect_bind fun _ =>
    .bind fun params c₂ hparams => ?_)
  have hname : c.advance.Reaches 0 c₁ := by
    refine Advances.bind .peekKind (fun kind c => ?_) name c₁ hname
    split
    · exact .bind .next fun _ _ => .pure _
    · exact .pure _
  obtain ⟨d, hd, hclose, rfl⟩ := params_closing n _ params c₂ hparams
  have hparams := (((Tokenized.Spread.start hc).further (.advance c)).further hname).further
    ((Cursor.Reaches.advance c₁).trans hd)
  have hspread := hparams.further (.advance d)
  refine .accept_bind (fun _ => .bind fun body c₃ hbody => .pure ?_) fun _ =>
    .expect_bind fun hnewline => .bind fun body c₃ hbody => .expect_bind fun hend =>
      .spanFrom_bind (.pure ?_)
  · have hspread := hspread.further (.advance d.advance)
    exact .prefixed hc rfl (hspread.reads (ih.expression hspread.amid body c₃ hbody)) rfl
  · have hblock := ih.statements (hspread.amid.of_reaches (.advance _)) body c₃ hbody
    have hopens := hblock.opens hparams.amid (by simp [hclose]) hnewline hparams.row.le []
      (List.forall_mem_nil _)
    rw [hclose] at hopens
    have hbody := hspread.spread (hblock.spread hparams.amid)
    exact .enclosed hc (hbody.token (by simp [hend])) rfl (List.forall_mem_singleton.mpr hopens)

omit ih in
theorem nesting (w : Tokenized) (n : Nat) : Nesting w n := by
  induction n with
  | zero => exact nesting_zero
  | succ n ih =>
      exact {
        statements := statements_nesting ih
        statementsLoop := statementsLoop_nesting ih
        statement := statement_nesting ih
        expression := expression_nesting ih
        declaration := declaration_nesting ih
        annotated := annotated_nesting ih
        chain := chain_nesting ih
        chainLoop := chainLoop_nesting ih
        operand := operand_nesting ih
        factor := factor_nesting ih
        powerLoop := powerLoop_nesting ih
        call := call_nesting ih
        callLoop := callLoop_nesting ih
        items := items_nesting ih
        itemsLoop := itemsLoop_nesting ih
        atom := atom_nesting ih
        choice := choice_nesting ih
        armsLoop := armsLoop_nesting ih
        moreArms := moreArms_nesting ih
        branch := branch_nesting ih
        forLoop := forLoop_nesting ih
        whileLoop := whileLoop_nesting ih
        function := function_nesting ih }

end

end Grammar

/-! ## Programs -/

/-- The tokens of a source follow one another. -/
theorem Tokenized.exists_of_tokens {s : Source} {ts : List Token} (h : s.tokens = .ok ts) :
    ∃ w : Tokenized, w.source = s ∧ w.tokens ++ [w.finish] = ts ∧
      (∀ t ∈ w.tokens, t.kind ≠ .endOfInput) ∧ w.finish.kind = .endOfInput := by
  obtain ⟨us, hus, htiling⟩ := Scan.tiling_of_run h
  obtain rfl : ts = us := hus
  obtain ⟨ts, e, rfl, hts, he⟩ := Scan.Tiling.ended [] htiling rfl
  have hstart : ∀ t ∈ ts ++ [e], t.span.start.IsIn s := fun t ht => by
    obtain ht | ht := List.mem_append.mp ht
    · exact (hts t ht).2.start
    · exact List.mem_singleton.mp ht ▸ he.start
  exact ⟨⟨s, ts, e, hstart, fun t ht => (hts t ht).2.stop,
    fun t ht => Nat.le_of_lt (hts t ht).2.nonempty, htiling.ordered⟩, rfl, rfl,
    fun t ht => (hts t ht).1, he.kind⟩

theorem Tokenized.amid_ofTokens {w : Tokenized} (hplain : ∀ t ∈ w.tokens, t.kind ≠ .endOfInput)
    (hfinish : w.finish.kind = .endOfInput) : w.Amid (.ofTokens (w.tokens ++ [w.finish])) where
  split := ⟨[], by rw [Cursor.rest_ofTokens hplain hfinish, List.nil_append]⟩
  finish := by
    have hnone : w.tokens.find? (·.kind = .endOfInput) = none := by simpa using hplain
    show Cursor.finishOf _ = _
    rw [Cursor.finishOf, List.find?_append, hnone]
    simp [hfinish]

namespace Node

variable {s : Source} {x : Node}

/-- In a program every node is in its place, whatever it is part of. -/
theorem inPlace_of_occurs (hx : ofSource s = .ok x) :
    ∃ ts, s.tokens = .ok ts ∧ ∀ q, Occurs (.block, x) q → InPlace s ts q := by
  obtain ⟨ts, hts, hx⟩ := ofSource_eq_ok hx
  obtain ⟨w, rfl, rfl, hplain, hfinish⟩ := Tokenized.exists_of_tokens hts
  obtain ⟨n, c, hread, -⟩ := statements_of_ofTokens hx
  have hblock := (Grammar.nesting w n).statements (w.amid_ofTokens hplain hfinish) x c hread
  exact ⟨_, hts, hblock.sound⟩

/-- An empty block in front of another one. It starts behind the newline of its own `THEN`, with
lines that are left blank. -/
theorem inPlace_of_occurs_empty :
    let s : Source := ⟨"t", "IF a THEN\n\n\nELSE\nb\nEND"⟩
    ∃ x ts q o, ofSource s = .ok x ∧ s.tokens = .ok ts ∧ Occurs (.block, x) q ∧
      o ∈ q.2.openings ∧ o.opener = .thenWord ∧ o.body = list [] (.empty ⟨10, 1, 0, s⟩) ∧
      o.EmptyAt ts q.2.span.start.offset (.empty ⟨10, 1, 0, s⟩) := by
  intro s
  have hread : (ofSource s).map (fun x => (x.pieces.flatMap (·.2.openings)).head?.map
      fun o => (o.opener, o.body.pieces.length, o.body.span)) =
        .ok (some (.thenWord, 0, .empty ⟨10, 1, 0, s⟩)) := by decide +kernel
  obtain ⟨x, hx, hfirst⟩ := ok_of_map hread
  obtain ⟨o, ho, heq⟩ := Option.map_eq_some_iff.mp hfirst
  obtain ⟨hopener, heq⟩ := Prod.mk.inj heq
  obtain ⟨hlength, hspan⟩ := Prod.mk.inj heq
  obtain ⟨q, hq, ho⟩ := List.mem_flatMap.mp (List.mem_of_mem_head? ho)
  have hblock : (.block, o.body) ∈ q.2.pieces := block_mem_pieces.mpr ⟨o, ho, rfl⟩
  obtain ⟨lines, span, hbody⟩ := listed_of_occurs hx (.head hq (.head hblock (.refl _)))
  rw [hbody] at hlength hspan
  obtain rfl : lines = [] := by simpa [pieces, parts] using hlength
  obtain rfl : span = .empty ⟨10, 1, 0, s⟩ := hspan
  obtain ⟨ts, hts, hplace⟩ := inPlace_of_occurs hx
  have hoccurs : Occurs (.block, x) q := .head hq (.refl _)
  exact ⟨x, ts, q, o, hx, hts, hoccurs, ho, hopener, hbody, (hplace q hoccurs).empty o ho _ hbody⟩

end Node

end BasicScript
