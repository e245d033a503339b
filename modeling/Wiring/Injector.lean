import Wiring.Log
import Wiring.Provider
import Wiring.Table
import Wiring.WaitGraph

/-!
# Injectors

An `Injector` holds bindings by key, the member hooks of each type in the order of their
registration, the kinds of modules installed, and the `WaitGraph` of those that wait for its
singletons. All of it is data; the operations are those of the `World` that holds the injector.
-/

namespace Wiring

/-- What one injector holds. A new one has no bindings, no hooks and no modules, and nobody
waits. -/
structure Injector (ρ : Type) where
  bindings : Table Key (Binding ρ) := .empty
  hooks : Table ValueType (List ρ) := .empty
  installed : List ModuleId := []
  waits : WaitGraph := {}

namespace Injector

variable {ρ : Type}

instance : Inhabited (Injector ρ) := ⟨{}⟩

def contains (injector : Injector ρ) (key : Key) : Bool :=
  injector.bindings.contains key

def scopeOf (injector : Injector ρ) (key : Key) : Option Scope :=
  (injector.bindings.get? key).map (·.scope)

/-- The number of bound keys, in `bindings`. -/
def size (injector : Injector ρ) : Nat :=
  injector.bindings.size

/-- The hooks of a type, in the order of their registration; none for a type that has no row. -/
def hooksOf (injector : Injector ρ) (type : ValueType) : List ρ :=
  (injector.hooks.get? type).getD []

/-- The binding of a key, which has to be one of the key's own type, else the fault is
`typeMismatch`. -/
def find (injector : Injector ρ) (key : Key) : Except Fault (Option (Binding ρ)) :=
  match injector.bindings.get? key with
  | none => .ok none
  | some binding =>
    if binding.key.type = key.type then .ok (some binding)
    else .error (.typeMismatch key "Binding")

/-- The bound keys with their scopes, ascending by `Key.compare`. -/
def listing (injector : Injector ρ) : List (Key × Scope) :=
  Key.sortOn (·.1) (injector.bindings.values.map fun b => (b.key, b.scope))

/-- The injector on one line: its `listing` and the number of types with hooks. -/
def describe (injector : Injector ρ) : String :=
  let rows := injector.listing.map fun (key, scope) =>
    "(" ++ key.describe ++ ", " ++ scope.describe ++ ")"
  "Injector \x7b bindings: [" ++ String.intercalate ", " rows ++ "], member_hooks: " ++
    toString injector.hooks.size ++ " \x7d"

/-- A block of lines, each moved to the right; a line break inside an item starts a line too. -/
def indent (text : String) : String :=
  String.intercalate "\n" ((text.splitOn "\n").map ("    " ++ ·))

/-- Opening and closing text round items that stand on lines of their own, each by `indent` and with
a comma. -/
def block (opening closing : String) (items : List String) : String :=
  if items.isEmpty then opening ++ closing
  else opening ++ "\n" ++ String.join (items.map fun item => indent (item ++ ",") ++ "\n") ++ closing

/-- The injector with one item a line, nested by indentation: what `describe` says, in a `block`. -/
def describeNested (injector : Injector ρ) : String :=
  let rows := injector.listing.map fun (key, scope) => block "(" ")" [key.describe, scope.describe]
  block "Injector \x7b" "\x7d"
    ["bindings: " ++ block "[" "]" rows, "member_hooks: " ++ toString injector.hooks.size]

end Injector

end Wiring
