import BasicScript.Proofs.Grammar.Blocks
import BasicScript.Proofs.Grammar.Parsing

/-! # Reading what is printed

Reading the tokens of a printed program yields the program, whatever its layout is and wherever its
tokens stand. -/

namespace BasicScript

open BasicScript.Symbol (kindOf)

namespace Node

/-! ## Roles of parts -/

theorem fitsAll_iff {role : Role} {xs : List Node} :
    fitsAll role xs = true ↔ ∀ x ∈ xs, fits role x = true := by
  induction xs with
  | nil => simp [fitsAll]
  | cons x xs ih => simp [fitsAll, ih]

theorem fitsOption_iff {x : Option Node} :
    fitsOption x = true ↔ ∀ y ∈ x, fits .expression y = true := by
  cases x <;> simp [fitsOption]

theorem fitsElse_iff {b : Option (Branch Node)} :
    fitsElse b = true ↔ ∀ c ∈ b, fitsBranch c = true := by
  cases b <;> simp [fitsElse]

theorem fitsArms_iff {as : List (Arm Node)} :
    fitsArms as = true ↔
      ∀ a ∈ as, fits .expression a.condition = true ∧ fitsBranch a.branch = true := by
  induction as with
  | nil => simp [fitsArms]
  | cons a as ih =>
      obtain ⟨c, b⟩ := a
      simp [fitsArms, ih]

end Node

namespace Grammar

variable {L : Layout}

/-- The symbols of a node spell it in every role that it fits. -/
structure SpellsNode (L : Layout) (x : Node) : Prop where
  expression : x.fits .expression = true → Spells x.tightness (x.symbols L) x.bare
  line : x.fits .statement = true → SpellsStatement closes (x.symbols L) x.bare
  body : x.fits .statement = true → SpellsStatement quits (x.fitted 1 (x.symbols L)) x.bare
  block : x.fits .block = true → SpellsBlock L x

namespace SpellsNode

variable {x : Node}

theorem item (h : SpellsNode L x) (hx : x.fits .expression = true) : SpellsItem L x :=
  spells_fitted (h.expression hx) (by decide)

theorem branch {b : Branch Node} (h : SpellsNode L b.body) (hb : Node.fitsBranch b = true) :
    SpellsBranch L b := by
  obtain ⟨body, block⟩ := b
  constructor
  · rintro rfl
    exact h.block hb
  · rintro rfl
    exact h.body hb

/-- An expression is also a statement. -/
theorem of_expression (hrole : x.fits .statement = true → x.fits .expression = true)
    (h : x.fits .expression = true → Spells x.tightness (x.symbols L) x.bare)
    (hblock : x.fits .block = true → SpellsBlock L x) : SpellsNode L x where
  expression := h
  line hx := spells_expression (h (hrole hx))
  body hx := spells_item (spells_fitted (h (hrole hx)) (by decide))
  block := hblock

/-- A statement that is no expression is never in parentheses. -/
theorem of_statement (hrole : x.fits .expression = false) (ht : x.tightness = 7)
    (h : x.fits .statement = true → SpellsStatement quits (x.symbols L) x.bare)
    (hblock : x.fits .block = false) : SpellsNode L x where
  expression hx := by rw [hrole] at hx; cases hx
  line hx := (h hx).of_quits
  body hx := by
    have hfitted : x.fitted 1 (x.symbols L) = x.symbols L := by simp [Node.fitted, ht]
    rw [hfitted]
    exact h hx
  block hx := by rw [hblock] at hx; cases hx

end SpellsNode

/-- The symbols of every node spell it. -/
theorem spellsNode (L : Layout) (x : Node) : SpellsNode L x := by
  induction x using Node.parts_induction with
  | h x ih =>
  cases x with
  | number n s => exact .of_expression id (fun _ => spells_number n) nofun
  | text a s => exact .of_expression id (fun _ => spells_text a) nofun
  | ident a s => exact .of_expression id (fun _ => spells_ident a) nofun
  | list xs s =>
      refine .of_expression id (fun hx => ?_) fun hx => ?_
      · have hxs := Node.fitsAll_iff.mp hx
        rw [Node.bare_list]
        exact spells_list fun y hy => (ih y hy).item (hxs y hy)
      · have hxs := Node.fitsAll_iff.mp hx
        exact spells_block s fun y hy => (ih y hy).line (hxs y hy)
  | declaration tag a v s =>
      refine .of_expression id (fun hv => ?_) nofun
      have hitem := (ih v (by simp)).item hv
      rw [Node.bare_declaration, Node.symbols]
      split
      · exact spells_annotated tag a hitem
      · exact spells_declaration tag a hitem
  | binary op l r s =>
      refine .of_expression id (fun hx => ?_) nofun
      simp only [Node.fits, Bool.and_eq_true] at hx
      have hl := (ih l (by simp)).expression hx.1.2
      have hr := (ih r (by simp)).expression hx.2
      have hnode : (Node.binary op l r s).bare = binaryNode op l.bare r.bare := by
        rw [Node.bare_binary, binaryNode, Node.bare_span, Node.through_bare_span]
      rw [hnode, Node.symbols]
      by_cases hop : op = .power
      · subst hop
        exact spells_power (spells_fitted hl (by decide)) (spells_fitted hr (by decide))
      · obtain ⟨level, hoperator, htight, hleft, hright⟩ := exists_level hop
        rw [Node.tightness, htight, hleft, hright]
        have hle := level.operandSlot_le
        have hlt := level.slot_lt_operandSlot
        exact spells_chain hoperator (spells_fitted hl (by omega)) (spells_fitted hr (by omega))
  | unary op v s =>
      refine .of_expression id (fun hv => ?_) nofun
      have hspells := (ih v (by simp)).expression hv
      rw [Node.bare_unary, ← Node.through_bare_span v]
      cases op with
      | negate => exact spells_negate (spells_fitted hspells (by decide))
      | not => exact spells_not (spells_fitted hspells (by decide))
  | choice arms otherwise s =>
      refine .of_expression id (fun hx => ?_) nofun
      simp only [Node.fits, Bool.and_eq_true, Node.fitsArms_iff, Node.fitsElse_iff] at hx
      obtain ⟨⟨⟨-, hne⟩, harms⟩, helse⟩ := hx
      rw [Node.bare_choice]
      refine spells_choice (by simpa using hne) (fun a ha => ?_) fun b hb => ?_
      · exact ⟨(ih _ (Node.condition_mem_parts ha)).item (harms a ha).1,
          (ih _ (Node.body_mem_parts ha)).branch (harms a ha).2⟩
      · exact (ih _ (Node.otherwise_mem_parts hb)).branch (helse b hb)
  | forLoop a first last step b s =>
      refine .of_expression id (fun hx => ?_) nofun
      simp only [Node.fits, Bool.and_eq_true, Node.fitsOption_iff] at hx
      obtain ⟨⟨⟨⟨-, hfirst⟩, hlast⟩, hstep⟩, hb⟩ := hx
      rw [Node.bare_forLoop]
      exact spells_for a ((ih first (by simp)).item hfirst)
        ((ih last (by simp)).item hlast)
        (fun x hx => (ih x (by simp [Option.mem_def.mp hx])).item (hstep x hx))
        ((ih b.body (by simp)).branch hb)
  | whileLoop c b s =>
      refine .of_expression id (fun hx => ?_) nofun
      simp only [Node.fits, Bool.and_eq_true] at hx
      rw [Node.bare_whileLoop]
      exact spells_while ((ih c (by simp)).item hx.1.2)
        ((ih b.body (by simp)).branch hx.2)
  | function name params body arrow s =>
      refine .of_expression id (fun hx => ?_) nofun
      have hbody := ih body (by simp)
      rw [Node.bare_function]
      cases arrow with
      | true => exact spells_function_arrow (hbody.item hx)
      | false => exact spells_function_block (hbody.block hx)
  | call f args s =>
      refine .of_expression id (fun hx => ?_) nofun
      simp only [Node.fits, Bool.and_eq_true, Node.fitsAll_iff] at hx
      obtain ⟨⟨-, hf⟩, hargs⟩ := hx
      have hcallee := (ih f (by simp)).expression hf
      rw [Node.bare_call]
      exact spells_call (spells_fitted hcallee (by decide)) f.bare_span
        fun y hy => (ih y (by simp [hy])).item (hargs y hy)
  | returnWith v s =>
      refine .of_statement rfl rfl (fun hx => ?_) rfl
      rw [Node.bare_returnWith]
      cases v with
      | none => exact spells_return
      | some x => exact spells_return_item ((ih x (by simp)).item hx)
  | continueLoop s => exact .of_statement rfl rfl (fun _ => spells_continue) rfl
  | breakLoop s => exact .of_statement rfl rfl (fun _ => spells_break) rfl

/-- Reading the symbols of a program, with enough fuel, yields the program. -/
theorem program_reads {x : Node} (hx : x.fits .block = true) :
    Reads program (x.blockSymbols L 0) x.bare [] := by
  have hblock := (spellsNode L x).block hx 0 [] rfl fun _ => rfl
  rw [List.append_nil] at hblock
  unfold program
  exact .bind hblock (.peekKind_bind (.pure _ _))

end Grammar

namespace Node

open Grammar

/-- The symbols of a program. -/
def print (L : Layout) (x : Node) : List Symbol :=
  blockSymbols L 0 x

theorem symbols_ofSymbols (ss : List Symbol) :
    (Cursor.ofSymbols ss).rest.map Token.symbol = ss := by
  rw [Cursor.ofSymbols, List.map_map]
  exact List.map_id _

/-- Whatever its layout, the tokens of a printed program are read as that program. -/
theorem ofTokens_print (L : Layout) (x : Node) (hx : x.fits .block = true) (ts : List Token)
    (hts : Token.symbols ts = x.print L) :
    ∃ y, ofTokens ts = .ok y ∧ y.Alike x := by
  obtain ⟨N, hN⟩ := program_reads (L := L) hx
  have hfuel := Nat.le_max_left (fuelFor ts) N
  have hlead : (Cursor.ofSymbols (x.print L)).Leads [] (Cursor.ofTokens ts) := by
    rw [Cursor.Leads, symbols_ofSymbols, List.append_nil]
    exact hts
  obtain ⟨y, c, hy, hxy, -⟩ := program_follows hlead _ _ (hN _ (Nat.le_max_right (fuelFor ts) N))
  refine ⟨y, (ofTokens_eq_ok_iff_of_le hfuel).mpr ⟨c, hy⟩, ?_⟩
  calc
    y.bare = x.bare.bare := hxy.symm
    _ = x.bare := bare_bare x

/-- An `IF` without an `ELSE` as the last line of an arm, and the `ELSE` of that arm. -/
def nestedChoice : Node :=
  .list [.choice [⟨.ident "a" default, .list [.choice [⟨.ident "b" default,
    .breakLoop default, false⟩] none default] default, true⟩]
    (some ⟨.declaration .num "c" (.number (.int 1) default) default, false⟩) default] default

/-- With each part on lines of its own, the `ELSE` is read as one of the outer `IF`. -/
theorem ofTokens_print_nestedChoice :
    nestedChoice.fits .block = true ∧
    ∃ y, ofTokens ((nestedChoice.print ⟨fun _ => true, fun _ => 0, fun _ => 0⟩).map
      Symbol.token) = .ok y ∧ y.Alike nestedChoice :=
  ⟨rfl, ofTokens_print ⟨fun _ => true, fun _ => 0, fun _ => 0⟩ nestedChoice rfl _ rfl⟩

end Node

end BasicScript
