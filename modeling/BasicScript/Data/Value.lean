import BasicScript.Diagnostic
import BasicScript.Program.Node

/-!
What programs compute with. Numbers and texts are plain data; a list is a reference into the store,
so all its holders see the same elements; a function holds the scope it was defined in.
-/

namespace BasicScript

/-- A reference to the elements of a list. -/
structure ListRef where
  index : Nat
deriving Repr, DecidableEq, Inhabited

/-- A scope: the table that names are bound in, and the tables around it, innermost first. -/
structure Scope where
  table : Nat
  outer : List Nat
deriving Repr, DecidableEq, Inhabited

namespace Scope

/-- The tables in which a name is looked up, in order. -/
def chain (s : Scope) : List Nat :=
  s.table :: s.outer

/-- The scope around a scope. -/
def parent? (s : Scope) : Option Scope :=
  match s.outer with
  | [] => none
  | t :: r => some ⟨t, r⟩

/-- The scope of whole programs. -/
def globals : Scope :=
  ⟨0, []⟩

end Scope

/-- The functions that every program finds defined. -/
inductive Builtin where
  | print | printRet | input | inputNum | clear
  | isNum | isStr | isList | isFun
  | append | pop | extend | len
  | run
deriving Repr, DecidableEq, Inhabited

namespace Builtin

def all : List Builtin :=
  [print, printRet, input, inputNum, clear, isNum, isStr, isList, isFun, append, pop, extend, len,
    run]

def name : Builtin → String
  | print => "print"
  | printRet => "print_ret"
  | input => "input"
  | inputNum => "input_num"
  | clear => "clear"
  | isNum => "is_num"
  | isStr => "is_str"
  | isList => "is_list"
  | isFun => "is_fun"
  | append => "append"
  | pop => "pop"
  | extend => "extend"
  | len => "len"
  | run => "RUN"

def params : Builtin → List String
  | print | printRet | isNum | isStr | isList | isFun => ["value"]
  | input | inputNum | clear => []
  | append => ["list", "value"]
  | pop => ["list", "index"]
  | extend => ["list_a", "list_b"]
  | len => ["list"]
  | run => ["fn"]

end Builtin

/-- A function defined in a program. An arrow function yields the value of its body. -/
structure Closure where
  name : String
  params : List String
  body : Node
  arrow : Bool
  scope : Scope

instance : Inhabited Closure := ⟨⟨"", [], default, false, default⟩⟩

/-- What a value is, apart from where it came from. -/
inductive Datum where
  | number (n : Number)
  | text (s : String)
  | list (l : ListRef)
  | function (f : Closure)
  | builtin (b : Builtin)

instance : Inhabited Datum := ⟨.number default⟩

namespace Datum

def typeName : Datum → String
  | number _ => "num"
  | text _ => "text"
  | list _ => "list"
  | function _ => "function"
  | builtin _ => "built-in function"

/-- Whether a declaration with a tag may hold this. -/
def conforms : Datum → Tag → Bool
  | number _, .num | text _, .text | list _, .list => true
  | _, _ => false

def isCallable : Datum → Bool
  | function _ | builtin _ => true
  | _ => false

end Datum

/-- A value, with the place it came from and the frames that were active there; both only feed
diagnostics. -/
structure Value where
  datum : Datum
  span : Span
  trace : Trace
deriving Inhabited

namespace Value

/-- A value that comes from nowhere in particular. -/
def plain (d : Datum) : Value :=
  ⟨d, default, []⟩

def ofNumber (n : Number) : Value :=
  plain (.number n)

def ofInt (n : Int64) : Value :=
  ofNumber (.int n)

def ofBool (b : Bool) : Value :=
  ofNumber (.ofBool b)

def ofText (s : String) : Value :=
  plain (.text s)

/-- The value of what produces none. -/
def null : Value :=
  ofInt 0

def number? (v : Value) : Option Number :=
  match v.datum with
  | .number n => some n
  | _ => none

def list? (v : Value) : Option ListRef :=
  match v.datum with
  | .list l => some l
  | _ => none

def text? (v : Value) : Option String :=
  match v.datum with
  | .text s => some s
  | _ => none

def withSpan (v : Value) (span : Span) : Value :=
  { v with span }

def withTrace (v : Value) (trace : Trace) : Value :=
  { v with trace }

/-- Something that goes wrong with a value, reported where the value came from. -/
def failure (v : Value) (span : Span) (message : String) : Diagnostic :=
  ⟨.runtime, message, none, span, v.trace⟩

end Value

end BasicScript
