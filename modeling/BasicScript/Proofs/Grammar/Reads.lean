import BasicScript.Proofs.Grammar.Reader
import BasicScript.Proofs.Program.Printing

/-! # Reading symbols

Reading bare symbols, all of them at the same place, with as much fuel as it takes. -/

namespace BasicScript

def Symbol.token (s : Symbol) : Token :=
  ⟨s.kind, s.literal, default⟩

/-- The place in front of symbols. -/
def Cursor.ofSymbols (ss : List Symbol) : Cursor :=
  ⟨default, ss.map Symbol.token, default, rfl⟩

/-- The kind of the next symbol. -/
def Symbol.kindOf (ss : List Symbol) : TokenKind :=
  (ss.head?.map kind).getD .endOfInput

open BasicScript.Symbol (kindOf)

@[simp] theorem Symbol.kindOf_nil : kindOf [] = .endOfInput :=
  rfl

@[simp] theorem Symbol.kindOf_cons (s : Symbol) (ss : List Symbol) : kindOf (s :: ss) = s.kind :=
  rfl

namespace Cursor

theorem kind_ofSymbols (ss : List Symbol) : (ofSymbols ss).peek.kind = kindOf ss := by
  cases ss <;> rfl

theorem span_ofSymbols (ss : List Symbol) : (ofSymbols ss).peek.span = default := by
  cases ss <;> rfl

theorem kind_second_ofSymbols (ss : List Symbol) :
    (ofSymbols ss).peekSecond.kind = kindOf ss.tail := by
  rcases ss with - | ⟨s, - | ⟨u, ss⟩⟩ <;> rfl

/-- Newlines in front are passed over. -/
theorem behindNewlines_ofSymbols (n : Nat) (ss : List Symbol) (h : kindOf ss ≠ .newline) :
    (ofSymbols (Symbol.newlines n ++ ss)).behindNewlines = ofSymbols ss := by
  have hblank : (ofSymbols (Symbol.newlines n ++ ss)).rest.takeWhile (·.kind = .newline) =
      (Symbol.newlines n).map Symbol.token := by
    simp only [ofSymbols, List.map_append]
    rw [List.takeWhile_append_of_pos]
    · cases ss with
      | nil => simp
      | cons s ss =>
          rw [List.map_cons, List.takeWhile_cons_of_neg, List.append_nil]
          simp [Symbol.token, show s.kind ≠ .newline from h]
    · intro t ht
      simp only [Symbol.newlines, List.map_replicate, List.mem_replicate] at ht
      rw [ht.2]
      rfl
  have hspan : ((Symbol.newlines n).map Symbol.token).getLast?.map Token.span =
      if n = 0 then none else some default := by
    simp only [Symbol.newlines, List.map_replicate, List.getLast?_replicate]
    split <;> rfl
  simp only [behindNewlines, hblank, hspan]
  simp only [ofSymbols, List.map_append, List.drop_left]
  split <;> rfl

end Cursor

namespace Grammar

variable {α β : Type}

/-- With enough fuel, reading `ss` yields `a` and leaves `ss'`. -/
def Reads (r : Nat → Reader α) (ss : List Symbol) (a : α) (ss' : List Symbol) : Prop :=
  ∃ N, ∀ n, N ≤ n → r n (.ofSymbols ss) = .ok a (.ofSymbols ss')

namespace Reads

variable {ss ss' ss'' : List Symbol} {a : α} {b : β}

theorem pure (a : α) (ss : List Symbol) : Reads (fun _ => pure a) ss a ss :=
  ⟨0, fun _ _ => rfl⟩

/-- What a function does with a unit of fuel less. -/
theorem succ {r : Nat → Reader α} (h : Reads (fun n => r (n + 1)) ss a ss') :
    Reads r ss a ss' := by
  obtain ⟨N, h⟩ := h
  refine ⟨N + 1, fun n hn => ?_⟩
  obtain ⟨n, rfl⟩ : ∃ k, n = k + 1 := ⟨n - 1, by omega⟩
  exact h n (by omega)

theorem bind {r : Nat → Reader α} {f : Nat → α → Reader β} (h : Reads r ss a ss')
    (hf : Reads (f · a) ss' b ss'') : Reads (fun n => r n >>= f n) ss b ss'' := by
  obtain ⟨N, h⟩ := h
  obtain ⟨M, hf⟩ := hf
  refine ⟨max N M, fun n hn => ?_⟩
  exact (bind_of_ok (h n (by omega))).trans (hf n (by omega))

section Primitive

variable {f : Nat → Token → Reader β} {s : Symbol}

theorem peek_bind (h : Reads (f · (Cursor.ofSymbols ss).peek) ss b ss') :
    Reads (fun n => peek >>= f n) ss b ss' :=
  h

theorem peekKind_bind {f : Nat → TokenKind → Reader β} (h : Reads (f · (kindOf ss)) ss b ss') :
    Reads (fun n => peekKind >>= f n) ss b ss' := by
  obtain ⟨N, h⟩ := h
  refine ⟨N, fun n hn => (Grammar.peekKind_bind _).trans ?_⟩
  rw [Cursor.kind_ofSymbols]
  exact h n hn

theorem get_bind {f : Nat → Cursor → Reader β} (h : Reads (f · (.ofSymbols ss)) ss b ss') :
    Reads (fun n => (get : Reader Cursor) >>= f n) ss b ss' :=
  h

theorem next_bind (h : Reads (f · s.token) ss b ss') :
    Reads (fun n => next >>= f n) (s :: ss) b ss' :=
  h

theorem spanFrom_bind {f : Nat → Span → Reader β} (h : Reads (f · default) ss b ss') :
    Reads (fun n => spanFrom default >>= f n) ss b ss' :=
  h

theorem expect_bind {kind : TokenKind} {fault : GrammarFault} (hk : s.kind = kind)
    (h : Reads (f · s.token) ss b ss') :
    Reads (fun n => expect kind fault >>= f n) (s :: ss) b ss' := by
  obtain ⟨N, h⟩ := h
  refine ⟨N, fun n hn => (Grammar.expect_bind ..).trans ?_⟩
  rw [Cursor.kind_ofSymbols, Symbol.kindOf_cons, if_pos hk]
  exact h n hn

theorem accept_bind {kind : TokenKind} {f : Nat → Bool → Reader β} (hk : s.kind = kind)
    (h : Reads (f · true) ss b ss') :
    Reads (fun n => accept kind >>= f n) (s :: ss) b ss' := by
  obtain ⟨N, h⟩ := h
  refine ⟨N, fun n hn => (Grammar.accept_bind ..).trans ?_⟩
  rw [Cursor.kind_ofSymbols, Symbol.kindOf_cons, if_pos hk]
  exact h n hn

theorem refuse_bind {kind : TokenKind} {f : Nat → Bool → Reader β} (hk : kindOf ss ≠ kind)
    (h : Reads (f · false) ss b ss') :
    Reads (fun n => accept kind >>= f n) ss b ss' := by
  obtain ⟨N, h⟩ := h
  refine ⟨N, fun n hn => (Grammar.accept_bind ..).trans ?_⟩
  rw [Cursor.kind_ofSymbols, if_neg hk]
  exact h n hn

theorem skipNewlines_bind {f : Nat → Unit → Reader β} (n : Nat) (hk : kindOf ss ≠ .newline)
    (h : Reads (f · ()) ss b ss') :
    Reads (fun n => skipNewlines >>= f n) (Symbol.newlines n ++ ss) b ss' := by
  obtain ⟨N, h⟩ := h
  refine ⟨N, fun m hm => (Grammar.skipNewlines_bind _).trans ?_⟩
  rw [Cursor.behindNewlines_ofSymbols n ss hk]
  exact h m hm

end Primitive

end Reads

end Grammar

end BasicScript
