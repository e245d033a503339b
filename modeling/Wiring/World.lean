import Wiring.Directory
import Wiring.Injector
import Wiring.ResolveStack
import Wiring.Roster

/-!
# The world

The whole state: objects, the places that providers share, the injectors, the thread that runs with
its resolve stack, the log, and the host's own memory. Places are only ever added (`newSlot`,
`newRoster`, `newCatalog`, `newInjector`, `allocate`), so a reference once handed out stays good.
-/

namespace Wiring

/-- What an object holds. The container makes each `list` and `map`; what is `plain` belongs to the
host. -/
inductive Content (π : Type) where
  | plain (payload : π)
  | list (elements : List Ref)
  | map (entries : Directory Ref)

/-- Whether a singleton has its value: `empty` before the first production and after a fault. -/
inductive Slot where
  | empty
  /-- Its delegate is at work, from `Engine.takeSlot` until the slot is given back. -/
  | busy
  | filled (object : Ref)
deriving DecidableEq, Inhabited

/-- The entries of the map bound under `map`, a `Directory` of providers. -/
structure Catalog (P : Type) where
  map : Key
  entries : Directory P := .empty

/-- An injector of the world, by its place. -/
structure InjectorId where
  index : Nat
deriving DecidableEq, Inhabited

/-- Everything that lasts between operations. -/
structure World (ρ σ π : Type) where
  objects : Array (Content π) := #[]
  slots : Array Slot := #[]
  rosters : Array (Roster (Provider ρ)) := #[]
  catalogs : Array (Catalog (Provider ρ)) := #[]
  injectors : Array (Injector ρ) := #[]
  /-- The objects that were added to lists without a key; `World.entryNumber` numbers an object by
  its place here. -/
  entered : Array Ref := #[]
  /-- The thread that runs. -/
  thread : ThreadId := 0
  /-- The number of threads there have been. -/
  threads : Nat := 1
  /-- The keys that the running thread is resolving, the others having theirs in `Threads`. -/
  stack : ResolveStack := []
  log : Array LogEvent := #[]
  memory : σ

namespace World

variable {ρ σ π : Type}

def note (w : World ρ σ π) (event : LogEvent) : World ρ σ π :=
  { w with log := w.log.push event }

/-- An operation fails with a fault, which is noted in the log as `LogEvent.fault`. -/
def raise {α : Type} (w : World ρ σ π) (fault : Fault) : Except Fault α × World ρ σ π :=
  (.error fault, w.note (.fault fault))

/-! ### Objects -/

def allocate (w : World ρ σ π) (content : Content π) : Ref × World ρ σ π :=
  (⟨w.objects.size⟩, { w with objects := w.objects.push content })

def content? (w : World ρ σ π) (r : Ref) : Option (Content π) :=
  w.objects[r.index]?

def setContent (w : World ρ σ π) (r : Ref) (content : Content π) : World ρ σ π :=
  { w with objects := w.objects.setIfInBounds r.index content }

/-! ### Slots -/

def newSlot (w : World ρ σ π) : SlotId × World ρ σ π :=
  (⟨w.slots.size⟩, { w with slots := w.slots.push .empty })

def slot (w : World ρ σ π) (id : SlotId) : Slot :=
  (w.slots[id.index]?).getD .empty

def setSlot (w : World ρ σ π) (id : SlotId) (slot : Slot) : World ρ σ π :=
  { w with slots := w.slots.setIfInBounds id.index slot }

/-! ### Rosters and catalogs -/

def newRoster (w : World ρ σ π) (list : Key) : RosterId × World ρ σ π :=
  (⟨w.rosters.size⟩, { w with rosters := w.rosters.push { list } })

def roster (w : World ρ σ π) (id : RosterId) : Roster (Provider ρ) :=
  (w.rosters[id.index]?).getD { list := default }

def setRoster (w : World ρ σ π) (id : RosterId) (roster : Roster (Provider ρ)) : World ρ σ π :=
  { w with rosters := w.rosters.setIfInBounds id.index roster }

def newCatalog (w : World ρ σ π) (map : Key) : CatalogId × World ρ σ π :=
  (⟨w.catalogs.size⟩, { w with catalogs := w.catalogs.push { map } })

def catalog (w : World ρ σ π) (id : CatalogId) : Catalog (Provider ρ) :=
  (w.catalogs[id.index]?).getD { map := default }

def setCatalog (w : World ρ σ π) (id : CatalogId) (catalog : Catalog (Provider ρ)) :
    World ρ σ π :=
  { w with catalogs := w.catalogs.setIfInBounds id.index catalog }

/-- The number of an object that is added to a list without a key: its place in `entered`, where it
is put when it is added for the first time. So an object has the same number each time, and no two
objects have one number. -/
def entryNumber (w : World ρ σ π) (object : Ref) : Nat × World ρ σ π :=
  match w.entered.idxOf? object with
  | some number => (number, w)
  | none => (w.entered.size, { w with entered := w.entered.push object })

/-! ### Injectors -/

def newInjector (w : World ρ σ π) : InjectorId × World ρ σ π :=
  (⟨w.injectors.size⟩, { w with injectors := w.injectors.push {} })

def injector (w : World ρ σ π) (id : InjectorId) : Injector ρ :=
  (w.injectors[id.index]?).getD {}

def modifyInjector (w : World ρ σ π) (id : InjectorId) (f : Injector ρ → Injector ρ) :
    World ρ σ π :=
  { w with injectors := w.injectors.modify id.index f }

def setWaits (w : World ρ σ π) (id : InjectorId) (waits : WaitGraph) : World ρ σ π :=
  w.modifyInjector id fun injector => { injector with waits }

/-! ### The running thread -/

/-- The world with another thread running, which has a resolve stack of its own. Nothing else
changes. -/
def switchTo (w : World ρ σ π) (thread : ThreadId) (stack : ResolveStack) : World ρ σ π :=
  { w with thread, stack }

def pushKey (w : World ρ σ π) (key : Key) : Except Fault Unit × World ρ σ π :=
  match w.stack.push key with
  | .error fault => w.raise fault
  | .ok stack => (.ok (), { w with stack })

def popKey (w : World ρ σ π) : World ρ σ π :=
  { w with stack := w.stack.pop }

/-! ### Waits for singletons -/

/-- The running thread is about to wait for the singleton of `key`; `WaitGraph.await` refuses it
where that wait would never end. -/
def awaitKey (w : World ρ σ π) (id : InjectorId) (key : Key) :
    Except Fault Unit × World ρ σ π :=
  match (w.injector id).waits.await w.thread key with
  | .error fault => w.raise fault
  | .ok waits => (.ok (), w.setWaits id waits)

def startProducing (w : World ρ σ π) (id : InjectorId) (key : Key) : World ρ σ π :=
  w.setWaits id ((w.injector id).waits.startProducing w.thread key)

def stopProducing (w : World ρ σ π) (id : InjectorId) (key : Key) : World ρ σ π :=
  w.setWaits id ((w.injector id).waits.stopProducing key)

def stopAwaiting (w : World ρ σ π) (id : InjectorId) (key : Key) : World ρ σ π :=
  w.setWaits id ((w.injector id).waits.stopAwaiting w.thread key)

/-! ### Keys that are put on the stack -/

/-- A key that is on the stack is refused, with the whole chain, as `ResolveStack.push` has it. -/
theorem pushKey_of_mem {w : World ρ σ π} {stack : ResolveStack} {key : Key} (hstack : w.stack = stack)
    (h : key ∈ stack) : w.pushKey key = w.raise (.cyclicBinding (stack ++ [key])) := by
  rw [pushKey, hstack, ResolveStack.push_eq_error_iff.2 ⟨h, rfl⟩]

theorem pushKey_of_not_mem {w : World ρ σ π} {stack : ResolveStack} {key : Key}
    (hstack : w.stack = stack) (h : key ∉ stack) :
    w.pushKey key = (.ok (), w.switchTo w.thread (stack ++ [key])) := by
  rw [pushKey, hstack, ResolveStack.push_eq_ok_iff.2 ⟨h, rfl⟩]
  rfl

/-- A key is refused just if it is on the stack, and then the fault is the chain that ends with
it. -/
theorem pushKey_eq_error_iff {w : World ρ σ π} {key : Key} {fault : Fault} :
    (w.pushKey key).1 = .error fault ↔
      key ∈ w.stack ∧ fault = .cyclicBinding (w.stack ++ [key]) := by
  by_cases hkey : key ∈ w.stack
  · rw [pushKey_of_mem rfl hkey]
    simp [raise, hkey, eq_comm]
  · rw [pushKey_of_not_mem rfl hkey]
    simp [hkey]

theorem stack_of_refused {w : World ρ σ π} {key : Key} {fault : Fault}
    (h : (w.pushKey key).1 = .error fault) : (w.pushKey key).2.stack = w.stack := by
  rw [pushKey_of_mem rfl (pushKey_eq_error_iff.1 h).1]
  rfl

/-! ### What a change leaves alone -/

@[simp] theorem slot_setSlot_of_ne (w : World ρ σ π) {a b : SlotId} (s : Slot) (h : a ≠ b) :
    (w.setSlot a s).slot b = w.slot b := by
  have : a.index ≠ b.index := fun e => h (by cases a; cases b; simp_all)
  simp [setSlot, slot, this]

theorem slot_setSlot_self (w : World ρ σ π) {a : SlotId} (s : Slot)
    (h : a.index < w.slots.size) : (w.setSlot a s).slot a = s := by
  simp [setSlot, slot, h]

theorem injector_modifyInjector_of_ne (w : World ρ σ π) {a b : InjectorId}
    (f : Injector ρ → Injector ρ) (h : a ≠ b) :
    (w.modifyInjector a f).injector b = w.injector b := by
  have : a.index ≠ b.index := fun e => h (by cases a; cases b; simp_all)
  simp [modifyInjector, injector, Array.getElem?_modify, this]

theorem injector_modifyInjector_self (w : World ρ σ π) {a : InjectorId}
    (f : Injector ρ → Injector ρ) (h : a.index < w.injectors.size) :
    (w.modifyInjector a f).injector a = f (w.injector a) := by
  simp [modifyInjector, injector, Array.getElem_modify, h]

end World

end Wiring
