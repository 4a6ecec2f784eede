import BasicScript.Data.Value
import Std.Data.TreeMap

/-!
The store of a session: the tables that bind names and the elements of all lists. Tables and lists
are only ever added, so a reference once made stays good.
-/

namespace BasicScript

/-- The names bound in one scope, in order. -/
abbrev Table := Std.TreeMap String Value

structure Store where
  tables : Array Table
  lists : Array (Array Value)

namespace Store

/-- The store with one empty table, the globals. -/
def start : Store :=
  ⟨#[{}], #[]⟩

instance : Inhabited Store := ⟨start⟩

/-- The names bound in a table. -/
def table (s : Store) (t : Nat) : Table :=
  s.tables[t]?.getD {}

/-- A new scope with no scope around it. -/
def newScope (s : Store) : Scope × Store :=
  (⟨s.tables.size, []⟩, { s with tables := s.tables.push {} })

/-- A new scope inside another. -/
def child (s : Store) (scope : Scope) : Scope × Store :=
  (⟨s.tables.size, scope.chain⟩, { s with tables := s.tables.push {} })

/-- The value of a name in the first table of a list that binds it. -/
def lookupIn (s : Store) (name : String) : List Nat → Option Value
  | [] => none
  | t :: r =>
    match (s.table t)[name]? with
    | some v => some v
    | none => s.lookupIn name r

/-- The value of a name in the nearest scope that binds it. -/
def lookup (s : Store) (scope : Scope) (name : String) : Option Value :=
  s.lookupIn name scope.chain

/-- Binds a name in a scope, hiding any binding around it. -/
def bind (s : Store) (scope : Scope) (name : String) (v : Value) : Store :=
  { s with tables := s.tables.modify scope.table (·.insert name v) }

/-- Drops the binding of a name in a scope itself. -/
def unbind (s : Store) (scope : Scope) (name : String) : Store :=
  { s with tables := s.tables.modify scope.table (·.erase name) }

/-- The value of a name in a scope itself. -/
def localValue (s : Store) (scope : Scope) (name : String) : Option Value :=
  (s.table scope.table)[name]?

/-- Drops the binding of a name in a scope itself, which is the answer. -/
def remove (s : Store) (scope : Scope) (name : String) : Option Value × Store :=
  (s.localValue scope name, s.unbind scope name)

/-- The names bound in a scope itself, in order. -/
def names (s : Store) (scope : Scope) : List String :=
  (s.table scope.table).keys

/-- Binds names to values, pairwise and in order. -/
def bindAll (s : Store) (scope : Scope) : List String → List Value → Store
  | x :: xs, v :: vs => (s.bind scope x v).bindAll scope xs vs
  | _, _ => s

/-- The elements of a list. -/
def elements (s : Store) (l : ListRef) : Array Value :=
  s.lists[l.index]?.getD #[]

/-- A new list. -/
def newList (s : Store) (elements : Array Value) : ListRef × Store :=
  (⟨s.lists.size⟩, { s with lists := s.lists.push elements })

/-- Changes the elements of a list for all its holders. -/
def modifyList (s : Store) (l : ListRef) (f : Array Value → Array Value) : Store :=
  { s with lists := s.lists.modify l.index f }

/-- Numbers other than zero, texts and lists other than the empty ones, and all functions hold. -/
def holds (s : Store) (v : Value) : Bool :=
  match v.datum with
  | .number n => !n.isZero
  | .text t => !t.isEmpty
  | .list l => !(s.elements l).isEmpty
  | .function _ | .builtin _ => true

end Store

end BasicScript
