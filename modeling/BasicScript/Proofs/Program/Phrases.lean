import BasicScript.Proofs.Program.Printing
import Mathlib.Computability.Language

/-! # Phrases

The tokens that a tree stands for, in their order: its literals, names, operators, keywords,
brackets and commas, and the parentheses of calls and parameters. A tree says neither where its
tokens stand nor which form a declaration has, so what it has is a language of token lists.
Newlines and parentheses that only group are not part of it. -/

namespace BasicScript

namespace Token

/-- One token, of which `p` holds. -/
def single (p : Token → Prop) : Language Token :=
  {ts | ∃ t, ts = [t] ∧ p t}

def word (k : TokenKind) : Language Token :=
  single (·.kind = k)

def named (x : String) : Language Token :=
  single fun t => t.kind = .identifier ∧ t.textOrEmpty = x

def quoted (s : String) : Language Token :=
  single fun t => t.kind = .string ∧ t.textOrEmpty = s

def numeral (n : Number) : Language Token :=
  single fun t => (t.kind = .int ∨ t.kind = .float) ∧ t.literal = some (.number n)

theorem mem_single {p : Token → Prop} {t : Token} (h : p t) : [t] ∈ single p :=
  ⟨t, rfl, h⟩

end Token

/-! ## Separated phrases -/

/-- Phrases one behind the other, with a separator between them. -/
def joined (sep : Language Token) : List (Language Token) → Language Token
  | [] => 1
  | p :: ps => p * if ps.isEmpty then 1 else sep * joined sep ps

/-- Phrases with a separator behind each of them. -/
def led (sep : Language Token) (ps : List (Language Token)) : Language Token :=
  (ps.map (· * sep)).prod

section

variable (sep p : Language Token) (ps : List (Language Token))

@[simp] theorem led_nil : led sep [] = 1 :=
  rfl

theorem led_concat : led sep (ps ++ [p]) = led sep ps * (p * sep) := by
  simp [led]

theorem joined_concat : joined sep (ps ++ [p]) = led sep ps * p := by
  induction ps with
  | nil => simp [joined]
  | cons q ps ih => simp [joined, ih, led, mul_assoc]

theorem led_concat_eq : led sep (ps ++ [p]) = joined sep (ps ++ [p]) * sep := by
  rw [led_concat, joined_concat, mul_assoc]

end

/-! ## Phrases of trees -/

namespace Node

open Token

def paramPhrases (params : List String) : Language Token :=
  joined (word .comma) (params.map named)

/-- The `END` of a block. -/
def ending (block : Bool) : Language Token :=
  if block then word .endWord else 1

/-- Whether the last clause of an `IF` is a block: its `ELSE`, or else the last of its arms. -/
def endsInBlock (arms : List (Arm Node)) (otherwise : Option (Branch Node)) : Bool :=
  match otherwise with
  | some b => b.block
  | none => (arms.getLast?.map (·.branch.block)).getD false

mutual

/-- The phrases that are read as a node on its own. -/
def phrases : Node → Language Token
  | number n _ => numeral n
  | text s _ => quoted s
  | ident x _ => named x
  | list xs _ => word .leftBracket * itemPhrases xs * word .rightBracket
  | declaration tag x v _ =>
    (word tag.kind * named x + named x * word .colon * word tag.kind) * word .assign * phrases v
  | binary op l r _ => phrases l * word op.symbol.kind * phrases r
  | unary op x _ => word op.symbol.kind * phrases x
  | choice arms otherwise _ =>
    word .ifWord * (armPhrases arms * elsePhrases otherwise * ending (endsInBlock arms otherwise))
  | forLoop x first last step b _ =>
    word .forWord * named x * word .assign * phrases first * word .toWord * phrases last *
      stepPhrases step * word .thenWord * (bodyPhrases b * ending b.block)
  | whileLoop c b _ =>
    word .whileWord * phrases c * word .thenWord * (bodyPhrases b * ending b.block)
  | function name params body arrow _ =>
    word .fnWord * (name.elim 1 named) * word .leftParen * paramPhrases params *
      word .rightParen * if arrow then word .arrow * phrases body
        else blockPhrases body * word .endWord
  | call f args _ => phrases f * word .leftParen * itemPhrases args * word .rightParen
  | returnWith v _ => word .returnWord * resultPhrases v
  | continueLoop _ => word .continueWord
  | breakLoop _ => word .breakWord

/-- The phrases of a program or a block, whose statements have no brackets around them. -/
def blockPhrases : Node → Language Token
  | list xs _ => linePhrases xs
  | _ => 0

def linePhrases : List Node → Language Token
  | [] => 1
  | x :: xs => phrases x * linePhrases xs

/-- Expressions with commas between them. -/
def itemPhrases : List Node → Language Token
  | [] => 1
  | x :: xs => phrases x * if xs.isEmpty then 1 else word .comma * itemPhrases xs

/-- The statements of a block, or the one statement that is carried out. -/
def bodyPhrases : Branch Node → Language Token
  | ⟨body, block⟩ => if block then blockPhrases body else phrases body

/-- Arms with `ELIF` between them; only the last clause of an `IF` has an `END`. -/
def armPhrases : List (Arm Node) → Language Token
  | [] => 1
  | ⟨c, b⟩ :: as => phrases c * word .thenWord * bodyPhrases b *
    if as.isEmpty then 1 else word .elifWord * armPhrases as

def elsePhrases : Option (Branch Node) → Language Token
  | none => 1
  | some b => word .elseWord * bodyPhrases b

def stepPhrases : Option Node → Language Token
  | none => 1
  | some x => word .stepWord * phrases x

def resultPhrases : Option Node → Language Token
  | none => 1
  | some x => phrases x

end

def armPhrase (a : Arm Node) : Language Token :=
  phrases a.condition * word .thenWord * bodyPhrases a.branch

theorem linePhrases_eq (xs : List Node) : linePhrases xs = (xs.map phrases).prod := by
  induction xs with
  | nil => rfl
  | cons x xs ih => rw [linePhrases, ih, List.map_cons, List.prod_cons]

theorem itemPhrases_eq (xs : List Node) :
    itemPhrases xs = joined (word .comma) (xs.map phrases) := by
  induction xs with
  | nil => rfl
  | cons x xs ih => rw [itemPhrases, ih, List.map_cons, joined, List.isEmpty_map]

theorem armPhrases_eq (as : List (Arm Node)) :
    armPhrases as = joined (word .elifWord) (as.map armPhrase) := by
  induction as with
  | nil => rfl
  | cons a as ih => rw [armPhrases, ih, List.map_cons, joined, List.isEmpty_map]; rfl

end Node

/-! ## Leaving tokens out -/

/-- `us` are the tokens `ts` without the newlines and without some pairs of parentheses that
match. -/
inductive Token.Strips : List Token → List Token → Prop
  | nil : Strips [] []
  | newline {t : Token} {ts us : List Token} (ht : t.kind = .newline) (h : Strips ts us) :
    Strips (t :: ts) us
  | keep {t : Token} {ts us : List Token} (hn : t.kind ≠ .newline) (ho : t.kind ≠ .leftParen)
    (hc : t.kind ≠ .rightParen) (h : Strips ts us) : Strips (t :: ts) (t :: us)
  | enclosed {o c : Token} {ts ts' us us' : List Token} (ho : o.kind = .leftParen)
    (hc : c.kind = .rightParen) (h : Strips ts us) (h' : Strips ts' us') :
    Strips (o :: (ts ++ c :: ts')) (o :: (us ++ c :: us'))
  | grouped {o c : Token} {ts ts' us us' : List Token} (ho : o.kind = .leftParen)
    (hc : c.kind = .rightParen) (h : Strips ts us) (h' : Strips ts' us') :
    Strips (o :: (ts ++ c :: ts')) (us ++ us')

namespace Token.Strips

variable {ts ts' us us' : List Token}

theorem append (h : Strips ts us) (h' : Strips ts' us') : Strips (ts ++ ts') (us ++ us') := by
  induction h with
  | nil => exact h'
  | newline ht _ ih => exact .newline ht ih
  | keep hn ho hc _ ih => exact .keep hn ho hc ih
  | enclosed ho hc h _ _ ih => simpa using Strips.enclosed ho hc h ih
  | grouped ho hc h _ _ ih => simpa using Strips.grouped ho hc h ih

theorem newlines (h : ∀ t ∈ ts, t.kind = .newline) : Strips ts [] := by
  induction ts with
  | nil => exact .nil
  | cons t ts ih =>
      exact .newline (h t List.mem_cons_self) (ih fun u hu => h u (List.mem_cons_of_mem t hu))

end Token.Strips

end BasicScript
