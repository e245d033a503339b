/-!
# Types and keys

A `Key` asks for a value of a `ValueType`, possibly told apart from others of that type by a
`Qualifier`. Keys are equal when type and qualifier are, and `Key.compare` sorts them by the name of
the type first, so that a sorted listing reads naturally. `Key.display` is the form in messages,
`Key.describe` the one in the description of an injector.
-/

namespace Wiring

/-- A type of bound values. A `list` or a `map` holds shared values of its element type. -/
inductive ValueType where
  | plain (name : String)
  | list (element : ValueType)
  | map (element : ValueType)
deriving DecidableEq, Inhabited

namespace ValueType

/-- The name under which a type appears in messages, such as those of `Fault.message`. -/
def name : ValueType → String
  | .plain name => name
  | .list element => "alloc::vec::Vec<alloc::sync::Arc<" ++ element.name ++ ">>"
  | .map element =>
    "std::collections::hash::map::HashMap<alloc::string::String, alloc::sync::Arc<" ++
      element.name ++ ">>"

/-- Types compared by their structure. Unlike the names that `name` gives, this tells apart types
that share a name. -/
def compare : ValueType → ValueType → Ordering
  | .plain a, .plain b => Ord.compare a b
  | .plain _, _ => .lt
  | _, .plain _ => .gt
  | .list a, .list b => a.compare b
  | .list _, .map _ => .lt
  | .map _, .list _ => .gt
  | .map a, .map b => a.compare b

instance : Ord ValueType := ⟨compare⟩

/-- The type of the entries that make up a value of this type; a `plain` type is its own element. -/
def element : ValueType → ValueType
  | .list element => element
  | .map element => element
  | .plain name => .plain name

end ValueType

/-- What tells keys of one type apart: see `Key.named` and `Key.ofObject`. -/
inductive Qualifier where
  /-- A text that was chosen for it. -/
  | text (text : String)
  /-- The number of an object that was added to a list without a key, as `World.entryNumber` gives
  it. -/
  | object (number : Nat)
deriving DecidableEq, Inhabited

namespace Qualifier

/-- How a qualifier is shown, within the quotes of `Key.display`. -/
def display : Qualifier → String
  | .text content => content
  | .object number => "instance@#" ++ toString number

/-- Texts are compared by their characters and come before all objects, objects by their numbers. -/
def compare : Qualifier → Qualifier → Ordering
  | .text a, .text b => Ord.compare a b
  | .text _, .object _ => .lt
  | .object _, .text _ => .gt
  | .object a, .object b => Ord.compare a b

instance : Ord Qualifier := ⟨compare⟩

end Qualifier

/-- A request for a value of `type`, possibly distinguished by a `Qualifier`. -/
structure Key where
  type : ValueType
  qualifier : Option Qualifier := none
deriving DecidableEq, Inhabited

namespace Key

/-- The key of a type with a chosen `Qualifier.text`, or with no qualifier. -/
def named (type : ValueType) (qualifier : Option String) : Key :=
  ⟨type, qualifier.map .text⟩

/-- The key of an entry of a list that was added without one: its `Qualifier.object` is the number
that the object has been given. -/
def ofObject (type : ValueType) (number : Nat) : Key :=
  ⟨type, some (.object number)⟩

/-- The `ValueType.name`, then the qualifier in quotes. The qualifier is written as it is, so a text
with quotes in it can look like something else. -/
def display (k : Key) : String :=
  match k.qualifier with
  | none => k.type.name
  | some q => k.type.name ++ "(\"" ++ q.display ++ "\")"

/-- The form in which a key stands in the description of an injector: what `display` gives, between
angle brackets. -/
def describe (k : Key) : String :=
  "Key<" ++ k.display ++ ">"

/-- Keys by the name of their type, then by `ValueType.compare`, which decides among types of one
name, then by `Qualifier.compare`; a key without a qualifier comes first. -/
def compare (a b : Key) : Ordering :=
  (Ord.compare a.type.name b.type.name).then
    ((Ord.compare a.type b.type).then (Ord.compare a.qualifier b.qualifier))

instance : Ord Key := ⟨compare⟩

/-- Sorts keyed items by `Key.compare`, leaving items with equal keys in the order they had. -/
def sortOn {α : Type} (key : α → Key) (items : List α) : List α :=
  items.mergeSort fun a b => (Ord.compare (key a) (key b)).isLE

/-- Keys as they stand in messages, each by `Key.display`, joined in the order of the path they make
up. -/
def path (keys : List Key) : String :=
  String.intercalate " -> " (keys.map display)

end Key

end Wiring
