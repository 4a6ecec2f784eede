import BasicScript.Evaluation.Library
import BasicScript.Proofs.Data.Rendering
import Mathlib.Logic.Relation
import Mathlib.Tactic.Choose

/-! # How lists are written out

A value is written by its unfolding: the tree of its elements, in which a list that is met inside
itself is not unfolded again. Every value has exactly one unfolding, whatever the lists share and
however they contain one another. -/

namespace BasicScript

/-- A value with its lists written out, except those met inside themselves. -/
inductive Unfolding where
  | number (n : Number)
  | text (t : String)
  | function (name : String)
  | builtin (b : Builtin)
  | again
  | list (items : List Unfolding)

namespace Unfolding

instance : Inhabited Unfolding := ⟨again⟩

mutual

/-- The text of an unfolding. The elements of a list are joined with commas. When quoted, they stand
in brackets, and texts stand in quotes. -/
def written (style : Style) : Unfolding → String
  | number n => n.text
  | text t =>
    match style with
    | .plain => t
    | .quoted => "\"" ++ t ++ "\""
  | function name => "<function " ++ name ++ ">"
  | builtin b => "<built-in function " ++ b.name ++ ">"
  | again => "[...]"
  | list items =>
    match style with
    | .plain => String.intercalate ", " (writtenAll style items)
    | .quoted => "[" ++ String.intercalate ", " (writtenAll style items) ++ "]"

def writtenAll (style : Style) : List Unfolding → List String
  | [] => []
  | u :: us => written style u :: writtenAll style us

end

theorem writtenAll_eq_map (style : Style) (us : List Unfolding) :
    writtenAll style us = us.map (written style) := by
  induction us with
  | nil => rfl
  | cons u us ih => exact congrArg (written style u :: ·) ih

/-- The renderer writes a text as its unfolding is written. -/
theorem text_eq_written (style : Style) (t : String) : style.text t = (text t).written style := by
  cases style <;> rfl

/-- The renderer puts elements together as the unfolding of a list is written. -/
theorem list_eq_written (style : Style) (us : List Unfolding) :
    style.list (us.map (written style)) = (list us).written style := by
  rw [← writtenAll_eq_map]
  cases style <;> rfl

@[simp]
theorem written_text_quoted (t : String) : (text t).written .quoted = "\"" ++ t ++ "\"" :=
  rfl

@[simp]
theorem written_list_quoted (us : List Unfolding) :
    (list us).written .quoted =
      "[" ++ String.intercalate ", " (us.map (written .quoted)) ++ "]" := by
  rw [← writtenAll_eq_map]
  rfl

end Unfolding

namespace Store

/-- Inside the lists `enclosing` a value unfolds: a list that is one of them is met again, and any
other by its elements, one by one. -/
inductive Unfolds (s : Store) : List ListRef → Value → Unfolding → Prop
  | number {enclosing v n} (h : v.datum = .number n) : Unfolds s enclosing v (.number n)
  | text {enclosing v t} (h : v.datum = .text t) : Unfolds s enclosing v (.text t)
  | function {enclosing v f} (h : v.datum = .function f) : Unfolds s enclosing v (.function f.name)
  | builtin {enclosing v b} (h : v.datum = .builtin b) : Unfolds s enclosing v (.builtin b)
  | again {enclosing v l} (h : v.datum = .list l) (hl : l ∈ enclosing) :
      Unfolds s enclosing v .again
  | list {enclosing v l us} (h : v.datum = .list l) (hl : l ∉ enclosing)
      (hlength : us.length = (s.elements l).size)
      (hitems : ∀ (i : Nat) x u, (s.elements l)[i]? = some x → us[i]? = some u →
        Unfolds s (l :: enclosing) x u) : Unfolds s enclosing v (.list us)

/-- The unfolding `u` of `v` has the unfolding `y` of `x` in it, inside the lists `enclosing`. -/
inductive Shows (s : Store) (v : Value) (u : Unfolding) :
    List ListRef → Value → Unfolding → Prop
  | whole : Shows s v u [] v u
  | item {enclosing w l us x y} {i : Nat} (h : Shows s v u enclosing w (.list us))
      (hw : w.datum = .list l) (hx : (s.elements l)[i]? = some x) (hy : us[i]? = some y) :
      Shows s v u (l :: enclosing) x y

/-- A list has another one among its elements. -/
def Holds (s : Store) (k l : ListRef) : Prop :=
  ∃ x ∈ s.elements k, x.datum = .list l

variable {s : Store} {enclosing : List ListRef} {v w : Value} {u y : Unfolding} {l : ListRef}

/-! ## There is one unfolding -/

theorem Unfolds.unique {u' : Unfolding} (h : s.Unfolds enclosing v u)
    (h' : s.Unfolds enclosing v u') : u = u' := by
  induction h generalizing u' with
  | number hv => cases h' <;> simp_all
  | text hv => cases h' <;> simp_all
  | function hv => cases h' <;> simp_all
  | builtin hv => cases h' <;> simp_all
  | again hv hl => cases h' <;> simp_all
  | list hv hl hlength hitems ih =>
      cases h' with
      | list hv' hl' hlength' hitems' =>
          cases hv.symm.trans hv'
          congr 1
          apply List.ext_getElem (hlength.trans hlength'.symm)
          intro i hi hi'
          have hx := Array.getElem?_eq_getElem (Nat.lt_of_lt_of_eq hi hlength)
          exact ih i _ _ hx (List.getElem?_eq_getElem hi)
            (hitems' i _ _ hx (List.getElem?_eq_getElem hi'))
      | _ => simp_all

/-- The fuel is enough to write out all of the unfolding. -/
theorem exists_unfolds {n : Nat} (hs : s.Nested enclosing)
    (hn : s.lists.size < n + enclosing.length) (v : Value) :
    ∃ u, s.Unfolds enclosing v u ∧ ∀ style, s.write style n enclosing v = u.written style := by
  induction n generalizing enclosing v with
  | zero =>
      have hle := hs.length_le
      omega
  | succ n ih =>
      cases hv : v.datum with
      | number x => exact ⟨_, .number hv, fun style => by simp only [write, hv]; rfl⟩
      | text t =>
          refine ⟨_, .text hv, fun style => ?_⟩
          simp only [write, hv, Unfolding.text_eq_written]
      | function f => exact ⟨_, .function hv, fun style => by simp only [write, hv]; rfl⟩
      | builtin b => exact ⟨_, .builtin hv, fun style => by simp only [write, hv]; rfl⟩
      | list l =>
          by_cases hl : l ∈ enclosing
          · refine ⟨.again, .again hv hl, fun style => ?_⟩
            simp only [write, hv, List.contains_iff_mem, if_pos hl]
            rfl
          · have hwrite (style : Style) : s.write style (n + 1) enclosing v =
                style.list ((s.elements l).toList.map (s.write style n (l :: enclosing))) := by
              simp only [write, hv, List.contains_iff_mem, if_neg hl]
            by_cases hpresent : l.index < s.lists.size
            · choose items hitems hwritten using
                ih (hs.cons hl hpresent) (by rw [List.length_cons]; omega)
              refine ⟨.list ((s.elements l).toList.map items), .list hv hl (by simp) ?_, ?_⟩
              · intro i x u hx hu
                rw [List.getElem?_map, Array.getElem?_toList, hx] at hu
                cases hu
                exact hitems x
              · intro style
                rw [hwrite, ← Unfolding.list_eq_written, List.map_map]
                exact congrArg style.list (List.map_congr_left fun x _ => hwritten x style)
            · have hempty := s.elements_of_size_le (Nat.le_of_not_lt hpresent)
              refine ⟨.list [], .list hv hl (by rw [hempty]; rfl) (by simp), fun style => ?_⟩
              rw [hwrite, hempty, ← Unfolding.list_eq_written]
              rfl

/-! ## Lists inside themselves -/

theorem Shows.unfolds (h : s.Shows v u enclosing w y) (hv : s.Unfolds [] v u) :
    s.Unfolds enclosing w y := by
  induction h with
  | whole => exact hv
  | item h hw hx hy ih =>
      cases ih with
      | list hw' hl hlength hitems =>
          cases hw.symm.trans hw'
          exact hitems _ _ _ hx hy

/-- A list is written again only where it stands inside itself. -/
theorem Unfolds.eq_again_iff (h : s.Unfolds enclosing w y) (hw : w.datum = .list l) :
    y = .again ↔ l ∈ enclosing := by
  cases h with
  | again hw' hl =>
      cases hw.symm.trans hw'
      exact iff_of_true rfl hl
  | list hw' hl =>
      cases hw.symm.trans hw'
      exact iff_of_false nofun hl
  | _ => simp_all

/-- Any other list is written with all its elements. -/
theorem Unfolds.length_items (h : s.Unfolds enclosing w y) (hw : w.datum = .list l)
    (hl : l ∉ enclosing) : ∃ us, y = .list us ∧ us.length = (s.elements l).size := by
  cases h with
  | again hw' hl' =>
      cases hw.symm.trans hw'
      exact absurd hl' hl
  | list hw' hl' hlength =>
      cases hw.symm.trans hw'
      exact ⟨_, rfl, hlength⟩
  | _ => simp_all

/-- What a list encloses is among its elements, or among theirs. -/
theorem Shows.transGen_holds (h : s.Shows v u enclosing w y) (hw : w.datum = .list l)
    {k : ListRef} (hk : k ∈ enclosing) : Relation.TransGen s.Holds k l := by
  induction h generalizing l with
  | whole => cases hk
  | item h hw' hx hy ih =>
      have hholds : s.Holds _ l := ⟨_, Array.mem_of_getElem? hx, hw⟩
      obtain rfl | hk := List.mem_cons.mp hk
      · exact .single hholds
      · exact (ih hw' hk).tail hholds

end Store

/-- Every value has exactly one unfolding, and it is written as that in either style, by `print` and
by `print_ret`, which leave the store as it is. A list is written `[...]` exactly where it stands
inside itself, and else with all its elements; so one that does not contain itself is written in
full wherever it occurs. -/
theorem values_are_written_unfolded {H : Type} [Host H] (runSource : Source → Run H Value)
    (site : CallSite) (m : Machine H) (v : Value) :
    ∃ u, m.store.Unfolds [] v u ∧ (∀ u', m.store.Unfolds [] v u' → u' = u) ∧
      (∀ style, m.store.render style v = u.written style) ∧
      Builtin.printRet.execute runSource site [v] m = .ok (.ofText (u.written .plain)) m ∧
      Builtin.print.execute runSource site [v] m =
        .ok .null { m with host := Host.writeLine (u.written .plain) m.host } ∧
      ∀ enclosing w y l, m.store.Shows v u enclosing w y → w.datum = .list l →
        (y = .again ↔ l ∈ enclosing) ∧
        (l ∉ enclosing → ∃ us, y = .list us ∧ us.length = (m.store.elements l).size) ∧
        (¬ Relation.TransGen m.store.Holds l l → y ≠ .again) := by
  obtain ⟨u, hu, hwrite⟩ := Store.exists_unfolds (.nil m.store) (Nat.lt_succ_self _) v
  have hdisplay : m.store.display v = u.written .plain := hwrite .plain
  refine ⟨u, hu, fun u' hu' => hu'.unique hu, hwrite, ?_, ?_, fun enclosing w y l hy hw => ?_⟩
  · rw [← hdisplay]
    rfl
  · rw [← hdisplay]
    rfl
  · have hunfolds := hy.unfolds hu
    refine ⟨hunfolds.eq_again_iff hw, hunfolds.length_items hw, fun hacyclic hagain => ?_⟩
    exact hacyclic (hy.transGen_holds hw ((hunfolds.eq_again_iff hw).mp hagain))

end BasicScript
