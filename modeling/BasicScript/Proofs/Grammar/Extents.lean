import BasicScript.Proofs.Grammar.Covering
import BasicScript.Proofs.Grammar.Joining
import BasicScript.Proofs.Token.Stretches

/-! # The text of a node

The text that the span of a node covers is read as that node again, by itself, exactly if its
parentheses match. They do not if parentheses are left out at one of its ends only. -/

namespace BasicScript

/-! ## Parentheses that match -/

namespace TokenKind

/-- Every closing parenthesis closes one that is open, and none is left open. -/
def Matched (ks : List TokenKind) : Prop :=
  ks.count .leftParen = ks.count .rightParen ∧
    ∀ front ∈ ks.inits, front.count .rightParen ≤ front.count .leftParen

instance (ks : List TokenKind) : Decidable (Matched ks) :=
  inferInstanceAs (Decidable (_ ∧ _))

namespace Matched

variable {ks ks' : List TokenKind} {k : TokenKind}

theorem nil : Matched [] := by decide

theorem le_of_prefix (h : Matched ks) {front : List TokenKind} (hfront : front <+: ks) :
    front.count .rightParen ≤ front.count .leftParen :=
  h.2 front ((List.mem_inits front ks).mpr hfront)

theorem append (h : Matched ks) (h' : Matched ks') : Matched (ks ++ ks') := by
  refine ⟨by rw [List.count_append, List.count_append, h.1, h'.1], fun front hfront => ?_⟩
  rw [List.mem_inits] at hfront
  rcases List.prefix_or_prefix_of_prefix hfront (List.prefix_append ks ks') with hle | ⟨front, rfl⟩
  · exact h.le_of_prefix hle
  · rw [List.count_append, List.count_append, h.1]
    exact Nat.add_le_add_left (h'.le_of_prefix ((List.prefix_append_right_inj ks).mp hfront)) _

theorem single (ho : k ≠ .leftParen) (hc : k ≠ .rightParen) : Matched [k] := by
  revert ho hc
  cases k <;> decide

/-- The last token makes no difference if it is no parenthesis. -/
theorem concat_iff (ho : k ≠ .leftParen) (hc : k ≠ .rightParen) :
    Matched (ks ++ [k]) ↔ Matched ks := by
  refine ⟨fun h => ⟨?_, fun front hfront => ?_⟩, fun h => h.append (.single ho hc)⟩
  · have hcount := h.1
    simpa [List.count_append, List.count_singleton, ho, hc] using hcount
  · exact h.le_of_prefix (((List.mem_inits front ks).mp hfront).trans (List.prefix_append ks [k]))

theorem enclosed (h : Matched ks) : Matched (.leftParen :: (ks ++ [.rightParen])) := by
  refine ⟨by simp [h.1], fun front hfront => ?_⟩
  rw [List.mem_inits, List.prefix_cons_iff] at hfront
  rcases hfront with rfl | ⟨front, rfl, hfront⟩
  · simp
  rcases List.prefix_concat_iff.mp hfront with rfl | hfront
  · simp [h.1]
  · have hle := h.le_of_prefix hfront
    simp only [List.count_cons_self, ne_eq, reduceCtorEq, not_false_eq_true, List.count_cons_of_ne]
    omega

/-- Opening parentheses in front and closing ones behind are none if what is between them matches,
unless they are all there is. -/
theorem eq_nil_of_core {front core back : List TokenKind} (hfront : ∀ k ∈ front, k = .leftParen)
    (hback : ∀ k ∈ back, k = .rightParen) (h : Matched (front ++ (core ++ back)))
    (hcore : Matched core)
    (hparts : front ≠ [] → ∃ p q, front ++ (core ++ back) = p ++ q ∧ p ≠ [] ∧ q ≠ [] ∧ Matched p) :
    front = [] ∧ back = [] := by
  have lefts {ks : List TokenKind} (hks : ∀ k ∈ ks, k = .leftParen) :
      ks.count .leftParen = ks.length ∧ ks.count .rightParen = 0 := by
    refine ⟨List.count_eq_length.mpr fun k hk => (hks k hk).symm, List.count_eq_zero.mpr ?_⟩
    intro hmem
    cases hks _ hmem
  have rights {ks : List TokenKind} (hks : ∀ k ∈ ks, k = .rightParen) :
      ks.count .leftParen = 0 ∧ ks.count .rightParen = ks.length := by
    refine ⟨List.count_eq_zero.mpr ?_, List.count_eq_length.mpr fun k hk => (hks k hk).symm⟩
    intro hmem
    cases hks _ hmem
  obtain ⟨hleft, hright⟩ := lefts hfront
  obtain ⟨hleft', hright'⟩ := rights hback
  have hlength : front.length = back.length := by
    have hcount := h.1
    have hcore := hcore.1
    simp only [List.count_append] at hcount
    omega
  by_cases hne : front = []
  · rw [hne, List.length_nil] at hlength
    exact ⟨hne, List.length_eq_zero_iff.mp hlength.symm⟩
  obtain ⟨p, q, hpq, hp, hq, hmatched⟩ := hparts hne
  have hcount := hmatched.1
  have hpos := List.length_pos_iff.mpr hp
  have hpos' := List.length_pos_iff.mpr hq
  have hfrontPos := List.length_pos_iff.mpr hne
  rcases List.append_eq_append_iff.mp hpq with ⟨bs, rfl, hbs⟩ | ⟨as, rfl, -⟩
  · rcases List.append_eq_append_iff.mp hbs with ⟨cs, rfl, rfl⟩ | ⟨as, rfl, -⟩
    · -- all of what is between them, and some of those behind
      have hcs : ∀ k ∈ cs, k = .rightParen := fun k hk => hback k (List.mem_append_left q hk)
      have hcs := rights hcs
      have hcore := hcore.1
      simp only [List.count_append, List.length_append] at hcount hlength
      omega
    · -- a part of what is between them
      have hle := hcore.le_of_prefix (List.prefix_append bs as)
      simp only [List.count_append] at hcount
      omega
  · -- some of those in front
    have hp : ∀ k ∈ p, k = .leftParen := fun k hk => hfront k (List.mem_append_left as hk)
    have hp := lefts hp
    omega

end Matched

end TokenKind

theorem Token.Strips.matched {ts us : List Token} (h : Strips ts us) :
    TokenKind.Matched (ts.map Token.kind) := by
  have hgroup {o c : Token} {ts ts' : List Token} (ho : o.kind = .leftParen)
      (hc : c.kind = .rightParen) (h : TokenKind.Matched (ts.map Token.kind))
      (h' : TokenKind.Matched (ts'.map Token.kind)) :
      TokenKind.Matched ((o :: (ts ++ c :: ts')).map Token.kind) := by
    simpa [ho, hc] using h.enclosed.append h'
  induction h with
  | nil => exact .nil
  | newline ht _ ih => exact (TokenKind.Matched.single (by simp [ht]) (by simp [ht])).append ih
  | keep _ ho hc _ ih => exact (TokenKind.Matched.single ho hc).append ih
  | enclosed ho hc _ _ ih ih' => exact hgroup ho hc ih ih'
  | grouped ho hc _ _ ih ih' => exact hgroup ho hc ih ih'

/-! ## The tokens of a node -/

namespace Grammar

open Token Node

variable {s : Source} {ts : List Token} {d d' : Cursor} {q : Form × Node}

/-- The parentheses that a span leaves out are none if those inside match. -/
theorem Made.core_eq {front core back : List Token} (h : Made d d' q)
    (hrest : d.rest = front ++ (core ++ (back ++ d'.rest)))
    (hopening : ∀ t ∈ front, t.kind = .leftParen) (hclosing : ∀ t ∈ back, t.kind = .rightParen)
    (hparts : d.peek.kind = .leftParen → ∃ e, d.Reaches 1 e ∧ e.Reaches 1 d' ∧ Balanced d e)
    (hcore : TokenKind.Matched (core.map Token.kind)) :
    (d.cut d'.rest.length).rest = core := by
  have hassoc : d.rest = (front ++ (core ++ back)) ++ d'.rest := by simp [hrest]
  have hstretch : (d.cut d'.rest.length).rest = front ++ (core ++ back) := by
    rw [Cursor.cut, hassoc, List.length_append, Nat.add_sub_cancel, List.take_left]
  have hwhole : TokenKind.Matched ((front ++ (core ++ back)).map Token.kind) := by
    obtain ⟨n, e, hlines, hend⟩ := h.read
    obtain ⟨p, us, hp, hstrips⟩ := ((writing n).statementsLoop [] _).balanced hlines
    rw [hend, List.append_nil] at hp
    rw [← hstretch, hp]
    exact hstrips.matched
  have hsplits (hne : front.map Token.kind ≠ []) : ∃ p q,
      front.map Token.kind ++ (core.map Token.kind ++ back.map Token.kind) = p ++ q ∧ p ≠ [] ∧
        q ≠ [] ∧ TokenKind.Matched p := by
    have hpeek : d.peek.kind = .leftParen := by
      obtain ⟨t, front, rfl⟩ := List.exists_cons_of_ne_nil fun h : front = [] => hne (by simp [h])
      rw [Cursor.peek_of_rest_cons hrest]
      exact hopening t List.mem_cons_self
    obtain ⟨e, he, he', p, us, hp, hstrips⟩ := hparts hpeek
    have hlen := he.length_le
    have hlen' := he'.length_le
    obtain ⟨-, p', hp', -⟩ := he'
    have hsplit : front ++ (core ++ back) = p ++ p' := by
      rw [hassoc, hp', ← List.append_assoc p] at hp
      exact List.append_cancel_right hp
    refine ⟨p.map Token.kind, p'.map Token.kind, ?_, ?_, ?_, hstrips.matched⟩
    · rw [← List.map_append, ← List.map_append, ← List.map_append, hsplit]
    · intro hnil
      rw [hp, List.map_eq_nil_iff.mp hnil] at hlen
      simp at hlen
    · intro hnil
      rw [hp', List.map_eq_nil_iff.mp hnil] at hlen'
      simp at hlen'
  rw [List.map_append, List.map_append] at hwhole
  obtain ⟨hnil, hnil'⟩ := hwhole.eq_nil_of_core (by simpa using hopening) (by simpa using hclosing)
    hcore hsplits
  rw [hstretch, List.map_eq_nil_iff.mp hnil, List.map_eq_nil_iff.mp hnil', List.nil_append,
    List.append_nil]

/-- The text of a node is cut into some of the tokens it is read from, and into all of them if their
parentheses match. -/
theorem Made.tokens (h : Made d d' q) (hts : s.tokens = .ok ts)
    (hd : (Cursor.ofTokens ts).Reaches 0 d) (name : String) :
    ∃ core us, Source.tokens ⟨name, q.2.span.text⟩ = .ok us ∧
      us.map symbol = core.map symbol ++ [⟨.endOfInput, none⟩] ∧
      (∀ t ∈ core, t.kind ≠ .endOfInput) ∧
      (TokenKind.Matched (core.map Token.kind) → (d.cut d'.rest.length).rest = core) := by
  have hkinds := Cursor.ne_endOfInput_of_reaches hd
  obtain ⟨ts, e, rfl, hfront, he⟩ := Source.tokens_ended hts
  obtain ⟨-, read, hread, -⟩ := hd
  rw [Cursor.rest_ofTokens hfront he] at hread
  subst hread
  rcases h.span with ⟨-, hrest, hempty⟩ | ⟨⟨front, core, back, first, last, hrest, hfirst, hlast,
    hopening, hclosing, hspan, -⟩, hparts⟩
  · have htext : q.2.span.text = "" := by
      rw [Span.text, hempty, Nat.sub_self, List.take_zero, String.ofList_nil]
    have hus : Source.tokens ⟨name, ""⟩ =
        .ok [⟨.endOfInput, none, .single (.start ⟨name, ""⟩)⟩] := by
      simp [Source.tokens, Scan.run]
    refine ⟨[], _, htext ▸ hus, rfl, by simp, fun _ => ?_⟩
    exact Cursor.rest_cut_of_le (Nat.le_of_eq (by rw [hrest]))
  · have hsplit : read ++ d.rest ++ [e] =
        (read ++ front) ++ (core ++ (back ++ (d'.rest ++ [e]))) := by simp [hrest]
    rw [hsplit] at hts
    obtain ⟨us, hus, hsymbols⟩ := Source.tokens_stretch hts (by simp) hfirst hlast name
    exact ⟨core, us, hspan ▸ hus, hsymbols, fun t ht => hkinds t (by simp [hrest, ht]),
      h.core_eq hrest hopening hclosing hparts⟩

end Grammar

/-! ## Reading the text of a node -/

/-- `y` is the program that a node in its form makes up by itself, up to spans: its one statement,
or the statements of the block that it is. -/
def Form.Rereads : Form → Node → Node → Prop
  | .phrase, x, y => ∃ x' span, y = .list [x'] span ∧ x.Alike x'
  | .block, x, y => x.Alike y

namespace Node

open Grammar

variable {s : Source} {ts : List Token} {x : Node} {q : Form × Node}

theorem alike_list {xs ys : List Node} (h : List.Forall₂ Alike xs ys) (s s' : Span) :
    Alike (list xs s) (list ys s') := by
  rw [Alike, bare_list, bare_list, map_bare_eq_iff.mpr h]

/-- Statements that end with the tokens make up a program, whatever the fuel. -/
theorem ofTokens_of_statementsLoop {n : Nat} {lines : List Node} {c : Cursor}
    (h : statementsLoop n [] (.ofTokens ts) = .ok lines c) (hc : c.rest = []) :
    ∃ span, ofTokens ts = .ok (.list lines span) := by
  have hle : n ≤ max n (fuelFor ts - 1) := Nat.le_max_left _ _
  have h := ((cutting 0 n).statementsLoop hle [] (.ofTokens ts)).same h
  have hlen : (Cursor.ofTokens ts).rest.length ≤ ts.length :=
    (List.takeWhile_prefix _).length_le
  have hsame := (settled (.ofTokens ts)).statementsLoop [] (fuelFor ts - 1)
    (max n (fuelFor ts - 1)) (by unfold fuelFor; omega) (by unfold fuelFor; omega)
  exact ⟨_, ofTokens_eq_ok (hsame.1.trans h) hc⟩

/-- A program is its statements, and they are all there is. -/
theorem statements_of_ofTokens (h : ofTokens ts = .ok x) :
    ∃ n c, statements n (.ofTokens ts) = .ok x c ∧ c.rest = [] := by
  obtain ⟨c, h⟩ := ofTokens_eq_ok_iff.mp h
  unfold program at h
  obtain ⟨y, c', hread, hend⟩ := ok_of_bind h
  rw [Grammar.peekKind_bind] at hend
  split at hend
  · rename_i hk
    cases hend
    exact ⟨_, _, hread, Cursor.rest_eq_nil ((progress _).statements _ _ _ hread) hk⟩
  · cases hend

/-- The parentheses of a program match. -/
theorem matched_of_ofTokens {e : Token} (hplain : ∀ t ∈ ts, t.kind ≠ .endOfInput)
    (he : e.kind = .endOfInput) (h : ofTokens (ts ++ [e]) = .ok x) :
    TokenKind.Matched (ts.map Token.kind) := by
  obtain ⟨c, d, hread, hend⟩ := statements_of_ofTokens h
  obtain ⟨p, us, hp, hstrips⟩ := ((writing _).statements _).balanced hread
  rw [Cursor.rest_ofTokens hplain he, hend, List.append_nil] at hp
  exact hp ▸ hstrips.matched

/-- Each node of a program is made of tokens of its source. -/
theorem made_of_occurs (hts : ofTokens ts = .ok x) (hq : Occurs (.block, x) q) :
    ∃ d d', (Cursor.ofTokens ts).Reaches 0 d ∧ Made d d' q := by
  obtain ⟨n, c, hread, -⟩ := statements_of_ofTokens hts
  have hheld := ((covering n).statements _ x c hread).held (.block, x) List.mem_cons_self
  obtain ⟨d, d', hd, hmade, -⟩ := hheld q hq
  exact ⟨d, d', hd, hmade⟩

/-- Tokens that a node is made of are read as that node, wherever they stand. -/
theorem rereads_of_made {d d' : Cursor} (h : Grammar.Made d d' q)
    (hts : (d.cut d'.rest.length).Leads [] (.ofTokens ts)) :
    ∃ y, ofTokens ts = .ok y ∧ q.1.Rereads q.2 y := by
  obtain ⟨n, e, hlines, hend⟩ := h.read
  obtain ⟨ys, e', hlines', halike, hlead⟩ :=
    (following severed_nil n).statementsLoop [] [] hts _ e hlines (.inr rfl)
  have hend' : e'.rest = [] := by simpa [Cursor.Leads, hend] using hlead
  obtain ⟨span, hread⟩ := ofTokens_of_statementsLoop hlines' hend'
  obtain ⟨lines, _, hlines, rfl, halike⟩ := halike
  refine ⟨_, hread, ?_⟩
  obtain ⟨form, z⟩ := q
  cases form with
  | phrase =>
      obtain rfl : [z] = lines := hlines
      cases halike with
      | @cons _ z' _ _ hz hnil =>
          cases hnil
          exact ⟨z', span, rfl, hz⟩
  | block =>
      obtain ⟨xs, s, rfl⟩ := h.listed rfl
      obtain rfl : xs = lines := hlines
      exact alike_list halike s span

/-- The text of a node of a program is cut into tokens. If their parentheses match, they are read as
that node, and else they are no program at all. -/
theorem span_text_rereads (hx : ofSource s = .ok x) (hq : Occurs (.block, x) q) (name : String) :
    ∃ us, Source.tokens ⟨name, q.2.span.text⟩ = .ok us ∧
      if TokenKind.Matched (us.map Token.kind) then
        ∃ y, ofSource ⟨name, q.2.span.text⟩ = .ok y ∧ q.1.Rereads q.2 y
      else ∃ d, ofSource ⟨name, q.2.span.text⟩ = .error d := by
  obtain ⟨ts, hts, hx⟩ := ofSource_eq_ok hx
  obtain ⟨d, d', hd, hmade⟩ := made_of_occurs hx hq
  obtain ⟨core, us, hus, hsymbols, hcore, hwhole⟩ := hmade.tokens hts hd name
  have hread : ofSource ⟨name, q.2.span.text⟩ = ofTokens us := by
    rw [ofSource, hus]
    rfl
  rw [hread]
  obtain ⟨vs, es, rfl, hvs, hes⟩ := List.map_eq_append_iff.mp hsymbols
  obtain ⟨e, rfl, he⟩ := List.map_eq_singleton_iff.mp hes
  have hekind : e.kind = .endOfInput := congrArg Symbol.kind he
  have hvsKinds : vs.map Token.kind = core.map Token.kind := by
    have hmap := congrArg (List.map Symbol.kind) hvs
    rwa [List.map_map, List.map_map] at hmap
  have hmatchedIff : TokenKind.Matched ((vs ++ [e]).map Token.kind) ↔
      TokenKind.Matched (core.map Token.kind) := by
    rw [List.map_append, List.map_singleton, hvsKinds, hekind]
    exact TokenKind.Matched.concat_iff (by decide) (by decide)
  have hplain : ∀ t ∈ vs, t.kind ≠ .endOfInput := by
    intro t ht hkind
    have hmem : t.kind ∈ core.map Token.kind := hvsKinds ▸ List.mem_map_of_mem ht
    obtain ⟨u, hu, hkindu⟩ := List.mem_map.mp hmem
    exact hcore u hu (hkindu.trans hkind)
  refine ⟨_, hus, ?_⟩
  split
  · rename_i hmatched
    rw [hmatchedIff] at hmatched
    refine rereads_of_made hmade ?_
    rw [Cursor.Leads, Cursor.rest_ofTokens hplain hekind, hvs, hwhole hmatched, List.append_nil]
  · rename_i hmatched
    rw [hmatchedIff] at hmatched
    cases hy : ofTokens (vs ++ [e]) with
    | error d => exact ⟨d, rfl⟩
    | ok y => exact absurd (hvsKinds ▸ matched_of_ofTokens hplain hekind hy) hmatched

/-- The block of a loop, a line with parentheses of its own. -/
theorem span_text_rereads_block :
    let s : Source := ⟨"t", "WHILE a THEN\nf(b)\nEND"⟩
    ∃ x lines span, ofSource s = .ok x ∧ Occurs (.block, x) (.block, list lines span) ∧
      span.text = "f(b)" ∧ ∃ us, Source.tokens ⟨"u", span.text⟩ = .ok us ∧
        if TokenKind.Matched (us.map Token.kind) then
          ∃ y, ofSource ⟨"u", span.text⟩ = .ok y ∧ Form.block.Rereads (list lines span) y
        else ∃ d, ofSource ⟨"u", span.text⟩ = .error d := by
  intro s
  have hread : (ofSource s).map (fun x =>
      (x.pieces.flatMap (·.2.pieces)).map fun p => (p.1, p.2.span.text)) =
        .ok [(.phrase, "a"), (.block, "f(b)")] := by decide +kernel
  obtain ⟨x, hx, hpieces⟩ := ok_of_map hread
  obtain ⟨⟨form, block⟩, hblock, heq⟩ := List.mem_map.mp
    (hpieces ▸ List.mem_cons_of_mem _ List.mem_cons_self)
  obtain ⟨rfl, htext⟩ := Prod.mk.inj heq
  obtain ⟨loop, hloop, hblock⟩ := List.mem_flatMap.mp hblock
  have hoccurs : Occurs (.block, x) (.block, block) := .head hloop (.head hblock (.refl _))
  obtain ⟨ts, -, hts⟩ := ofSource_eq_ok hx
  obtain ⟨d, d', -, hmade⟩ := made_of_occurs hts hoccurs
  obtain ⟨lines, span, rfl⟩ := hmade.listed rfl
  exact ⟨x, lines, span, hx, hoccurs, htext, span_text_rereads hx hoccurs "u"⟩

/-- The parenthesis in front of an operator's first operand is left out and the one behind it is
not, so the text that the span covers is no program. -/
theorem span_text_misses_parenthesis :
    ∃ s x q, ofSource s = .ok x ∧ Occurs (.block, x) q ∧ q.2.span.text = "a)+b" ∧
      ∀ name y, ofSource ⟨name, q.2.span.text⟩ ≠ .ok y := by
  obtain ⟨a, paren, plus, b, finish, htokens⟩ : ∃ a paren plus b finish,
      Source.tokens ⟨"u", "a)+b"⟩ = .ok
        [⟨.identifier, some (.text "a"), a⟩, ⟨.rightParen, none, paren⟩, ⟨.plus, none, plus⟩,
          ⟨.identifier, some (.text "b"), b⟩, ⟨.endOfInput, none, finish⟩] :=
    ⟨_, _, _, _, _, by with_unfolding_all rfl⟩
  have herror (name : String) : ∃ d, ofSource ⟨name, "a)+b"⟩ = .error d :=
    ⟨_, ofSource_eq_error.mpr (.inr ⟨_, Source.run_start_of_tokens _ htokens, rfl⟩)⟩
  have hread : (ofSource ⟨"t", "(a)+b"⟩).map (fun x => x.pieces.map (·.2.span.text)) =
      .ok ["a)+b"] := by decide +kernel
  obtain ⟨x, hx, hpieces⟩ := ok_of_map hread
  obtain ⟨q, hq, htext⟩ := List.mem_map.mp (hpieces ▸ List.mem_singleton_self "a)+b")
  refine ⟨_, x, q, hx, .head hq (.refl _), htext, fun name y hy => ?_⟩
  obtain ⟨d, herror⟩ := herror name
  rw [htext, herror] at hy
  cases hy

end Node

end BasicScript
