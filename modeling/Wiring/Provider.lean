import Wiring.Key
import Wiring.Scope

/-!
# Providers

A `Provider` says how a value is produced. Providers are plain data: what they share with others and
change over time (a kept value, the entries of a list or map) lies in numbered places of the
`World`, and what the user wrote is named by a routine of the `Host`. A `Binding` keeps a provider
as it was bound, with the stages added since, and in the wrapper of the current scope.
-/

namespace Wiring

/-- A shared object. Two references are the same object exactly if they are equal; what the object
holds is `World.content?`. -/
structure Ref where
  index : Nat
deriving DecidableEq, Inhabited

/-- The place where a singleton keeps its value, a `Slot` of the world. -/
structure SlotId where
  index : Nat
deriving DecidableEq, Inhabited

/-- The place of the entries of a list, a `Roster` of the world. -/
structure RosterId where
  index : Nat
deriving DecidableEq, Inhabited

/-- The place of the entries of a map, a `Catalog` of the world. -/
structure CatalogId where
  index : Nat
deriving DecidableEq, Inhabited

/-- A step that completes or replaces the value produced so far; `Engine.complete` carries it out.
-/
inductive Stage (ρ : Type) where
  /-- Runs the member hooks of a type on the value and passes it on. -/
  | memberInjection (type : ValueType)
  /-- Whatever the host's routine does with the value. -/
  | routine (routine : ρ)

/-- A way to produce a value; `Engine.produce` carries it out. -/
inductive Provider (ρ : Type) where
  /-- Always this object. -/
  | fixed (object : Ref)
  /-- What the host's routine makes, an object of type `type`. -/
  | factory (type : ValueType) (routine : ρ)
  /-- Whatever is bound under `key` at the time. -/
  | lookup (key : Key)
  /-- What `delegate` produces, led through `stages`. -/
  | decorating (delegate : Provider ρ) (stages : List (Stage ρ))
  /-- What `delegate` produced first, an object of type `type`, kept in `slot`. Waits for it are
  recorded under `key`. -/
  | singleton (slot : SlotId) (key : Key) (type : ValueType) (delegate : Provider ρ)
  /-- The list of what the entries of a roster produce. -/
  | list (roster : RosterId)
  /-- The map of what the entries of a catalog produce. -/
  | map (catalog : CatalogId)

namespace Provider

variable {ρ : Type}

/-- The number of wrappers (`decorating` or `singleton`) round the provider at the core. -/
def wrappers : Provider ρ → Nat
  | .decorating delegate _ => delegate.wrappers + 1
  | .singleton _ _ _ delegate => delegate.wrappers + 1
  | _ => 0

/-- The sort of a provider, where a caller can tell; a `list` and a `factory` are both `other`. -/
def sort : Provider ρ → String
  | .fixed _ => "instance"
  | .decorating _ _ => "decorating"
  | .singleton _ _ _ _ => "singleton"
  | .lookup _ => "lookup"
  | _ => "other"

/-- A given object, completed by the member hooks of its type each time it is produced: a
`Stage.memberInjection` round `fixed`. -/
def completing (type : ValueType) (object : Ref) : Provider ρ :=
  .decorating (.fixed object) [.memberInjection type]

/-- What a routine makes, completed by the member hooks of its type before anyone sees it: a
`Stage.memberInjection` round `factory`. -/
def completed (type : ValueType) (routine : ρ) : Provider ρ :=
  .decorating (.factory type routine) [.memberInjection type]

end Provider

/-- What is bound under a key: the provider `base` as it was bound, that provider with the stages
added since (`decorated`), and the latter in the wrapper of the current scope (`effective`), which
alone is used to resolve. -/
structure Binding (ρ : Type) where
  key : Key
  base : Provider ρ
  decorated : Provider ρ
  effective : Provider ρ
  scope : Scope

namespace Binding

variable {ρ : Type}

/-- Whether resolving uses the provider exactly as it was bound, nothing having been wrapped round
it: `effective` has no more `wrappers` than `base`. -/
def isBare (b : Binding ρ) : Bool :=
  b.effective.wrappers = b.base.wrappers

end Binding

end Wiring
