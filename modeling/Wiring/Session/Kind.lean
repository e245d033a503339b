import Wiring.World

/-!
# The values of sessions

Sessions wire texts, integers and services, and lists and maps of them, as their `Kind` says. A
`Service` is changed by member hooks; everything else stays as it was made. A service can be bound
as itself or as a plugin, which are different types for the same object.
-/

namespace Wiring.Session

/-- A kind of values that sessions can write down. -/
inductive Kind where
  | text
  | integer
  | service
  | plugin
  | list (element : Kind)
  | map (element : Kind)
deriving DecidableEq, Inhabited

namespace Kind

/-- The type that values of a kind are bound as, which `Name.key` asks for. -/
def type : Kind → ValueType
  | .text => .plain "alloc::string::String"
  | .integer => .plain "i64"
  | .service => .plain "driver::Service"
  | .plugin => .plain "dyn driver::Plugin"
  | .list element => .list element.type
  | .map element => .map element.type

/-- The kind of the entries of a list or map, as `ValueType.element` has it for types. -/
def element : Kind → Kind
  | .list element => element
  | .map element => element
  | kind => kind

/-- Whether values of a kind are services, bound as themselves or as plugins. -/
def isService : Kind → Bool
  | .service | .plugin => true
  | _ => false

end Kind

/-- An object with a place that can be filled once and notes that can be added to. -/
structure Service where
  name : String
  slot : Option String := none
  notes : List String := []

/-- What the objects of sessions hold, lists and maps apart, which the container makes. -/
inductive Datum where
  | text (text : String)
  | integer (value : Int64)
  | service (service : Service)

instance : Inhabited Datum := ⟨.text ""⟩

/-- A key whose kind is known, so that its value can be shown. -/
structure Name where
  kind : Kind
  qualifier : Option String := none
deriving DecidableEq

namespace Name

def key (name : Name) : Key :=
  .named name.kind.type name.qualifier

end Name

end Wiring.Session
