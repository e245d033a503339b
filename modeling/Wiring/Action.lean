import Wiring.Collections

/-!
# Actions

The operations that are over at once: they change the world and run none of the host's code. An
`Action` says of what type its answer is (`Action.Answer`), and `Action.perform` carries it out.
-/

namespace Wiring

/-- An operation that runs no code of the host. -/
inductive Action (ρ σ π : Type) where
  /-- Makes a new object. -/
  | allocate (content : Content π)
  /-- Reads an object. -/
  | read (object : Ref)
  /-- Changes what an object holds. -/
  | write (object : Ref) (content : Content π)
  /-- Reads the host's memory. -/
  | recall
  /-- Replaces the host's memory. -/
  | remember (memory : σ)
  /-- Notes a fault that the host's code found. -/
  | report (fault : Fault)
  | newInjector
  /-- What an injector holds at the time. -/
  | inspect (id : InjectorId)
  | bind (id : InjectorId) (key : Key) (provider : Provider ρ) (scope : Scope)
  | binding (id : InjectorId) (key : Key)
  | changeScope (id : InjectorId) (key : Key) (scope : Scope)
  | decorate (id : InjectorId) (key : Key) (stage : Stage ρ)
  | provider (id : InjectorId) (key : Key)
  | shutDown (id : InjectorId)
  | addHook (id : InjectorId) (type : ValueType) (hook : ρ)
  /-- Makes an empty slot for a singleton on its own. -/
  | newSlot
  | slot (id : SlotId)
  /-- Makes a list on its own, known as the list of `list`. -/
  | newRoster (list : Key)
  | roster (id : RosterId)
  | enrol (id : RosterId) (entry : Key) (provider : Provider ρ)
  | place (id : RosterId) (entry : Key) (side : Side) (other : Key)
  | orderedKeys (id : RosterId)
  /-- Makes a map on its own, known as the map of `map`. -/
  | newCatalog (map : Key)
  | catalog (id : CatalogId)
  | putEntry (id : CatalogId) (name : String) (provider : Provider ρ)
  /-- Sees to it that `list` is bound to a list. -/
  | openList (id : InjectorId) (list : Key)
  | contribute (id : InjectorId) (list entry : Key) (provider : Provider ρ)
  | contributeObject (id : InjectorId) (list : Key) (object : Ref)
  | contributeAll (id : InjectorId) (list : Key) (contents : List (Content π))
  | arrange (id : InjectorId) (list entry : Key) (side : Side) (other : Key)
  | listOrder (id : InjectorId) (list : Key)
  /-- Sees to it that `map` is bound to a map. -/
  | openMap (id : InjectorId) (map : Key)
  | contributeNamed (id : InjectorId) (map : Key) (name : String) (provider : Provider ρ)
  /-- Puts a key on the resolve stack by hand. -/
  | pushKey (key : Key)
  /-- Takes the last key off the resolve stack by hand. -/
  | popKey
  /-- The number of keys on the resolve stack. -/
  | depth

namespace Action

variable {ρ σ π : Type}

/-- The type of what an action gives back. -/
def Answer : Action ρ σ π → Type
  | .allocate _ => Ref
  | .read _ => Option (Content π)
  | .write _ _ => Unit
  | .recall => σ
  | .remember _ => Unit
  | .report _ => Unit
  | .newInjector => InjectorId
  | .inspect _ => Injector ρ
  | .bind _ _ _ _ => Unit
  | .binding _ _ => Option (Binding ρ)
  | .changeScope _ _ _ => Except Fault Unit
  | .decorate _ _ _ => Except Fault Unit
  | .provider _ _ => Except Fault (Provider ρ)
  | .shutDown _ => Unit
  | .addHook _ _ _ => Unit
  | .newSlot => SlotId
  | .slot _ => Slot
  | .newRoster _ => RosterId
  | .roster _ => Roster (Provider ρ)
  | .enrol _ _ _ => Unit
  | .place _ _ _ _ => Except Fault Unit
  | .orderedKeys _ => Except Fault (List Key)
  | .newCatalog _ => CatalogId
  | .catalog _ => Catalog (Provider ρ)
  | .putEntry _ _ _ => Unit
  | .openList _ _ => Except Fault RosterId
  | .contribute _ _ _ _ => Except Fault Unit
  | .contributeObject _ _ _ => Except Fault Key
  | .contributeAll _ _ _ => Except Fault (List Key)
  | .arrange _ _ _ _ _ => Except Fault Unit
  | .listOrder _ _ => Except Fault (List Key)
  | .openMap _ _ => Except Fault CatalogId
  | .contributeNamed _ _ _ _ => Except Fault Unit
  | .pushKey _ => Except Fault Unit
  | .popKey => Unit
  | .depth => Nat

/-- Carries out an action, each by the operation of the world that it is named for. -/
def perform : (action : Action ρ σ π) → World ρ σ π → action.Answer × World ρ σ π
  | .allocate content, w => w.allocate content
  | .read object, w => (w.content? object, w)
  | .write object content, w => ((), w.setContent object content)
  | .recall, w => (w.memory, w)
  | .remember memory, w => ((), { w with memory })
  | .report fault, w => ((), w.note (.fault fault))
  | .newInjector, w => w.newInjector
  | .inspect id, w => (w.injector id, w)
  | .bind id key p scope, w => ((), w.bind id key p scope)
  | .binding id key, w => w.bindingOf id key
  | .changeScope id key scope, w => w.changeScope id key scope
  | .decorate id key stage, w => w.decorate id key stage
  | .provider id key, w => w.providerOf id key
  | .shutDown id, w => ((), w.shutDown id)
  | .addHook id type hook, w => ((), w.addHook id type hook)
  | .newSlot, w => w.newSlot
  | .slot id, w => (w.slot id, w)
  | .newRoster list, w => w.newRoster list
  | .roster id, w => (w.roster id, w)
  | .enrol id entry p, w => ((), w.enrol id entry p)
  | .place id entry side other, w => w.place id entry side other
  | .orderedKeys id, w => w.orderedKeys id
  | .newCatalog map, w => w.newCatalog map
  | .catalog id, w => (w.catalog id, w)
  | .putEntry id name p, w => ((), w.putEntry id name p)
  | .openList id list, w => w.openList id list
  | .contribute id list entry p, w => w.contribute id list entry p
  | .contributeObject id list object, w => w.contributeObject id list object
  | .contributeAll id list contents, w => w.contributeAll id list contents
  | .arrange id list entry side other, w => w.arrange id list entry side other
  | .listOrder id list, w => w.listOrder id list
  | .openMap id map, w => w.openMap id map
  | .contributeNamed id map name p, w => w.contributeNamed id map name p
  | .pushKey key, w => w.pushKey key
  | .popKey, w => ((), w.popKey)
  | .depth, w => (w.stack.length, w)

end Action

end Wiring
