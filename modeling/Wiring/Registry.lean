import Wiring.World

/-!
# The registry: binding, scoping and decorating

A change of a binding builds its effective provider anew from the decorated one, in the wrapper that
`World.wrap` makes for its scope. A new wrapper has kept nothing yet, so `World.rewrap` is also how
`World.release` and `World.shutDown` let go of a kept value.
-/

namespace Wiring.World

variable {ρ σ π : Type}

/-- A provider in the wrapper of a scope: as it is, or as a `Provider.singleton` with a new, empty
slot of its own. -/
def wrap (w : World ρ σ π) (scope : Scope) (key : Key) (provider : Provider ρ) :
    Provider ρ × World ρ σ π :=
  match scope with
  | .noScope => (provider, w)
  | .singleton =>
    let (slot, w) := w.newSlot
    (.singleton slot key key.type provider, w)

def setBinding (w : World ρ σ π) (id : InjectorId) (key : Key) (binding : Binding ρ) :
    World ρ σ π :=
  w.modifyInjector id fun injector =>
    { injector with bindings := injector.bindings.insert key binding }

/-- Stores a new binding of `key` to `provider`, wrapped by `World.wrap` and with no stages yet. -/
def establish (w : World ρ σ π) (id : InjectorId) (key : Key) (provider : Provider ρ)
    (scope : Scope) : World ρ σ π :=
  let (effective, w) := w.wrap scope key provider
  w.setBinding id key { key, base := provider, decorated := provider, effective, scope }

/-- Stores `binding` in a new wrapper of `scope`, round what its decorations have made of it. -/
def rewrap (w : World ρ σ π) (id : InjectorId) (binding : Binding ρ) (scope : Scope) :
    World ρ σ π :=
  let (effective, w) := w.wrap scope binding.key binding.decorated
  w.setBinding id binding.key { binding with effective, scope }

/-- Binds `key` to `provider`, in place of what it was bound to, and notes whether there was
something. -/
def bind (w : World ρ σ π) (id : InjectorId) (key : Key) (provider : Provider ρ)
    (scope : Scope) : World ρ σ π :=
  let again := (w.injector id).contains key
  (w.establish id key provider scope).note (.bound key scope again)

/-- Gives the binding of `key` another scope, or its own anew, by `World.rewrap`. A key without
binding is refused. -/
def changeScope (w : World ρ σ π) (id : InjectorId) (key : Key) (scope : Scope) :
    Except Fault Unit × World ρ σ π :=
  match (w.injector id).bindings.get? key with
  | none => w.raise (.bindingNotFound key)
  | some binding =>
    (.ok (), (w.note (.changingScope key binding.scope scope)).rewrap id binding scope)

/-- Adds a stage at the end of what the binding of `key` produces, by `World.rewrap` in the scope
that it has. A key without binding is refused. -/
def decorate (w : World ρ σ π) (id : InjectorId) (key : Key) (stage : Stage ρ) :
    Except Fault Unit × World ρ σ π :=
  match (w.injector id).find key with
  | .error fault => w.raise fault
  | .ok none => w.raise (.bindingNotFound key)
  | .ok (some binding) =>
    -- the stage goes inside the wrapper, so a singleton keeps the decorated value
    let decorated := .decorating binding.decorated [stage]
    (.ok (), (w.note (.decorating key)).rewrap id { binding with decorated } binding.scope)

/-- The provider that resolving `key` uses, `Binding.effective`, or the fault that nothing is bound.
-/
def providerOf (w : World ρ σ π) (id : InjectorId) (key : Key) :
    Except Fault (Provider ρ) × World ρ σ π :=
  match (w.injector id).find key with
  | .error fault => w.raise fault
  | .ok none => w.raise (.unboundKey key)
  | .ok (some binding) => (.ok binding.effective, w)

/-- The binding of `key`, if there is one of the key's type. Nothing is raised where there is none.
-/
def bindingOf (w : World ρ σ π) (id : InjectorId) (key : Key) :
    Option (Binding ρ) × World ρ σ π :=
  match (w.injector id).find key with
  | .error fault => (none, w.note (.fault fault))
  | .ok binding => (binding, w)

/-- Gives the binding of `key` a new wrapper by `World.rewrap`, if it is a singleton. -/
def release (w : World ρ σ π) (id : InjectorId) (key : Key) : World ρ σ π :=
  match (w.injector id).bindings.get? key with
  | none => w
  | some binding => if binding.scope.isSingleton then w.rewrap id binding binding.scope else w

/-- Lets go of every value that a singleton has kept, by `World.release` of each key. Bindings stay
as they are. -/
def shutDown (w : World ρ σ π) (id : InjectorId) : World ρ σ π :=
  let bindings := (w.injector id).bindings
  let released := (bindings.values.filter (·.scope.isSingleton)).length
  (bindings.keys.foldl (·.release id ·) w).note (.shutDown released bindings.size)

/-- Registers a hook after those that the type has, in the order of `Injector.hooksOf`. -/
def addHook (w : World ρ σ π) (id : InjectorId) (type : ValueType) (hook : ρ) : World ρ σ π :=
  w.modifyInjector id fun injector =>
    { injector with hooks := injector.hooks.insert type (injector.hooksOf type ++ [hook]) }

def markInstalled (w : World ρ σ π) (id : InjectorId) (module : ModuleId) : World ρ σ π :=
  w.modifyInjector id fun injector =>
    { injector with installed := injector.installed ++ [module] }

/-- The provider that `key` was bound to, `Binding.base`. If there is none, the key is bound first,
with no scope, to the one that `create` makes. -/
def baseOr (w : World ρ σ π) (id : InjectorId) (key : Key)
    (create : World ρ σ π → Provider ρ × World ρ σ π) :
    Except Fault (Provider ρ) × World ρ σ π :=
  match (w.injector id).find key with
  | .error fault => w.raise fault
  | .ok (some binding) => (.ok binding.base, w)
  | .ok none =>
    let (provider, w) := create (w.note (.creatingCollection key))
    (.ok provider, w.establish id key provider .noScope)

/-- What a bound key was bound to is found by `World.baseOr`, and `create` makes nothing. -/
theorem baseOr_of_bound {w : World ρ σ π} {id : InjectorId} {key : Key} {binding : Binding ρ}
    (h : (w.injector id).find key = .ok (some binding))
    (create : World ρ σ π → Provider ρ × World ρ σ π) :
    w.baseOr id key create = (.ok binding.base, w) := by
  rw [baseOr, h]

theorem baseOr_of_fault {w : World ρ σ π} {id : InjectorId} {key : Key} {fault : Fault}
    (h : (w.injector id).find key = .error fault)
    (create : World ρ σ π → Provider ρ × World ρ σ π) :
    w.baseOr id key create = w.raise fault := by
  rw [baseOr, h]

end Wiring.World
