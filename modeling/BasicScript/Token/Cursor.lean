import BasicScript.Token.Basic

/-!
Cursors into token lists. A token list ends at its first end of input, and no cursor goes past it;
every step forward leaves one token less to read.
-/

namespace BasicScript

/-- A place between tokens: the span of the token before it, the tokens behind it, and the end of
input, which comes after those. -/
structure Cursor where
  before : Span
  rest : List Token
  finish : Token
  kind_finish : finish.kind = .endOfInput

namespace Cursor

/-- The end of input of a token list: its first, or else one at the span of the last token. -/
def finishOf (ts : List Token) : Token :=
  (ts.find? (·.kind = .endOfInput)).getD
    ⟨.endOfInput, none, (ts.getLast?.map Token.span).getD default⟩

theorem kind_finishOf (ts : List Token) : (finishOf ts).kind = .endOfInput := by
  unfold finishOf
  cases h : ts.find? (·.kind = .endOfInput) with
  | none => rfl
  | some t => simpa using List.find?_some h

/-- The place in front of all tokens. -/
def ofTokens (ts : List Token) : Cursor :=
  ⟨default, ts.takeWhile (·.kind != .endOfInput), finishOf ts, kind_finishOf ts⟩

/-- The token behind the cursor. -/
def peek (c : Cursor) : Token :=
  c.rest.head?.getD c.finish

/-- The token behind that; the end of input is never passed. -/
def peekSecond (c : Cursor) : Token :=
  c.rest.tail.head?.getD c.finish

/-- The cursor behind the next token; the end of input is never passed. -/
def advance (c : Cursor) : Cursor :=
  match c.rest with
  | [] => c
  | t :: r => { c with before := t.span, rest := r }

/-- The cursor behind all newlines in front. -/
def behindNewlines (c : Cursor) : Cursor :=
  let blank := c.rest.takeWhile (·.kind = .newline)
  { c with
    before := (blank.getLast?.map Token.span).getD c.before
    rest := c.rest.drop blank.length }

end Cursor

end BasicScript
