import BasicScript.Evaluation.Machine

/-!
The built-in functions. Each one checks its arguments before it does anything, so a call that is
refused changes nothing; a script that fails keeps what it did before.
-/

namespace BasicScript

/-- Where a built-in function is called, and its frame and those around it. -/
structure CallSite where
  span : Span
  trace : Trace
deriving Inhabited

namespace CallSite

def failure (site : CallSite) (message : String) : Diagnostic :=
  ⟨.runtime, message, none, site.span, site.trace⟩

/-- A fault of the host. -/
def hostFailure (site : CallSite) (f : Host.Fault) : Diagnostic :=
  ⟨.internal, f.message, none, site.span, site.trace⟩

end CallSite

namespace Builtin

variable {H : Type} [Host H]

/-- An argument that has to be a list. -/
def listArg (site : CallSite) (which : String) (v : Value) : Run H ListRef :=
  match v.list? with
  | some l => return l
  | none => .fail (site.failure (which ++ " must be list"))

/-- Removes the element at an index and yields it. -/
def popAt (site : CallSite) (l : ListRef) (n : Number) : Run H Value := do
  let xs ← Run.inspect (·.elements l)
  match n.toInt?.bind (resolveIndex xs.size) with
  | none => .fail (site.failure (Operation.outOfBounds "removed"))
  | some p =>
    let element := xs[p]?.getD default
    Run.change (·.modifyList l (·.eraseIdxIfInBounds p))
    return element

/-- A script that cannot be loaded. -/
def loadFailure (site : CallSite) (path : String) (f : Host.Fault) : Diagnostic :=
  site.failure ("Failed to load script \"" ++ path ++ "\". Error: " ++ f.message)

/-- A script that has failed; the text of its failure is part of the message. -/
def scriptFailure (site : CallSite) (path : String) (d : Diagnostic) : Diagnostic :=
  site.failure ("Failed to finish executing script \"" ++ path ++ "\". Error: " ++ d.text)

/-- Runs the program in a file in the global scope. -/
def runFile (runSource : Source → Run H Value) (site : CallSite) (path : String) :
    Run H Value := do
  let text ← Run.ask (loadFailure site path) fun h => (Host.load h path, h)
  Run.note (.including path)
  let _ ← Run.mapFailure (scriptFailure site path) (runSource ⟨path, text⟩)
  return .null

/-- What a call with the wrong number of arguments is told. -/
def miscount (b : Builtin) (count : Nat) : String :=
  b.name ++ " expects " ++ toString b.params.length ++ " argument(s), got " ++ toString count

/-- Carries out a built-in function; `runSource` runs a program. -/
def execute (runSource : Source → Run H Value) (site : CallSite) :
    Builtin → List Value → Run H Value
  | print, [v] => do
    let line ← Run.inspect (·.display v)
    Run.tell (Host.writeLine line)
    return .null
  | printRet, [v] => return .ofText (← Run.inspect (·.display v))
  | input, [] => return .ofText (← Run.ask site.hostFailure Host.readLine)
  | inputNum, [] => return .ofNumber (← Run.ask site.hostFailure Host.readNumber)
  | clear, [] => do
    Run.tell Host.clear
    return .null
  | isNum, [v] => return .ofBool v.number?.isSome
  | isStr, [v] => return .ofBool v.text?.isSome
  | isList, [v] => return .ofBool v.list?.isSome
  | isFun, [v] => return .ofBool v.datum.isCallable
  | append, [list, v] => do
    let l ← listArg site "First argument" list
    Run.change (·.modifyList l (·.push v))
    return .null
  | pop, [list, index] => do
    let l ← listArg site "First argument" list
    match index.number? with
    | none => .fail (site.failure "Second argument must be number")
    | some n => popAt site l n
  | extend, [listA, listB] => do
    let a ← listArg site "First argument" listA
    let b ← listArg site "Second argument" listB
    let added ← Run.inspect (·.elements b)
    Run.change (·.modifyList a (· ++ added))
    return .null
  | len, [list] => do
    let l ← listArg site "Argument" list
    let elements ← Run.inspect (·.elements l)
    return .ofInt (Int64.ofNat elements.size)
  | run, [path] =>
    match path.text? with
    | none => .fail (site.failure "Argument must be string")
    | some path => runFile runSource site path
  | b, args => .fail (site.failure (b.miscount args.length))

end Builtin

end BasicScript
