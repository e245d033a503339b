import Mathlib.Logic.Function.Basic
import Wiring.Collections

/-!
# The registry as a map

Seen from outside, an injector maps each bound key to a provider, the stages added to it and a scope
(`Registration`). The bindings hold more: the provider with its stages, and that provider in the
wrapper of the scope. `World.Represents` says that each binding is the one that its registration
determines (`Registration.binding`), up to the slot of its wrapper, and that wrappers of different
keys have slots of their own. It is kept by storing a registration in a new wrapper
(`Represents.store`), which is all that any operation on the registry does.

* **`Registration.wrapped`** — the provider in the wrapper of its scope; `Represents.find` finds a
  key bound to the registration in this wrapper.
* **`World.Stores`** — a registration has been stored in a new wrapper, as `World.rewrap` does it
  (`World.stores_rewrap`); what is in the slots stays there (`Stores.slot_eq`).
* **`Represents.of_bindings_eq`** — whatever leaves the bindings alone leaves the map alone.
-/

namespace Wiring

variable {ρ σ π : Type}

/-- What a key is registered to: the provider it was bound to, what was added to it, and a scope. -/
structure Registration (ρ : Type) where
  base : Provider ρ
  /-- The stages added by `World.decorate` since the key was bound, the first one first. -/
  stages : List (Stage ρ)
  scope : Scope

namespace Registration

/-- The provider with its stages, each round what is there before it: what `Binding.decorated`
holds. -/
def provider (r : Registration ρ) : Provider ρ :=
  r.stages.foldl (fun provider stage => .decorating provider [stage]) r.base

/-- A provider in the wrapper of a scope, as `World.wrap` makes it; `slot` is what the wrapper has
if it keeps a value. -/
def wrapped (scope : Scope) (slot : SlotId) (key : Key) (provider : Provider ρ) : Provider ρ :=
  match scope with
  | .noScope => provider
  | .singleton => .singleton slot key key.type provider

/-- The binding of a key that is registered so. Its scope is applied, by `wrapped`, to the provider
with its stages, and to nothing else. -/
def binding (r : Registration ρ) (key : Key) (slot : SlotId) : Binding ρ where
  key := key
  base := r.base
  decorated := r.provider
  effective := wrapped r.scope slot key r.provider
  scope := r.scope

theorem provider_decorate (r : Registration ρ) (stage : Stage ρ) :
    ({ r with stages := r.stages ++ [stage] } : Registration ρ).provider =
      .decorating r.provider [stage] := by
  unfold provider
  rw [List.foldl_append]
  rfl

end Registration

/-- Which keys are bound, and to what. -/
abbrev RegistryView (ρ : Type) := Key → Option (Registration ρ)

namespace World

/-- The bindings of the injector at `id` are those that `view` determines by `Registration.binding`,
and the wrapper of `key` has the slot `slots key` if it keeps a value. No two singletons share a
slot. -/
structure Represents (w : World ρ σ π) (id : InjectorId) (view : RegistryView ρ)
    (slots : Key → SlotId) : Prop where
  known : id.index < w.injectors.size
  bindings : ∀ key, (w.injector id).bindings.get? key =
    (view key).map (·.binding key (slots key))
  allotted : ∀ key r, view key = some r → r.scope = .singleton →
    (slots key).index < w.slots.size
  own : ∀ key other r s, view key = some r → r.scope = .singleton →
    view other = some s → s.scope = .singleton → slots key = slots other → key = other

/-- One binding is stored, in a wrapper with a slot that did not exist before, and nothing else of
the injectors has changed. -/
structure Stores (w w' : World ρ σ π) (id : InjectorId) (key : Key) (r : Registration ρ) :
    Prop where
  injectors : w'.injectors.size = w.injectors.size
  bindings : (w'.injector id).bindings =
    (w.injector id).bindings.insert key (r.binding key ⟨w.slots.size⟩)
  slots : w'.slots = if r.scope = .singleton then w.slots.push .empty else w.slots

/-! ### Slots -/

theorem slot_of_size_le (w : World ρ σ π) {slot : SlotId} (h : w.slots.size ≤ slot.index) :
    w.slot slot = .empty := by
  have hnone : w.slots[slot.index]? = none := Array.getElem?_eq_none_iff.2 h
  rw [World.slot, hnone]
  rfl

variable {w w' : World ρ σ π} {id : InjectorId} {key : Key} {r : Registration ρ}

/-- A new slot is empty, so by `World.slot` no slot shows a change. -/
theorem Stores.slot_eq (h : Stores w w' id key r) (slot : SlotId) : w'.slot slot = w.slot slot := by
  rw [World.slot, World.slot, h.slots]
  split
  · rw [Array.getElem?_push]
    split
    case isTrue hlast =>
      have hnone : w.slots[slot.index]? = none := Array.getElem?_eq_none_iff.2 (by omega)
      rw [hnone]
      rfl
    · rfl
  · rfl

theorem Stores.size_le (h : Stores w w' id key r) : w.slots.size ≤ w'.slots.size := by
  rw [h.slots]
  split
  · rw [Array.size_push]
    omega
  · exact Nat.le_refl _

/-! ### Storing -/

theorem injectors_setBinding (w : World ρ σ π) (id : InjectorId) (key : Key) (binding : Binding ρ) :
    (w.setBinding id key binding).injectors.size = w.injectors.size := by
  simp [setBinding, modifyInjector]

theorem bindings_setBinding (w : World ρ σ π) {id : InjectorId} (hid : id.index < w.injectors.size)
    (key : Key) (binding : Binding ρ) :
    ((w.setBinding id key binding).injector id).bindings =
      (w.injector id).bindings.insert key binding := by
  rw [setBinding, injector_modifyInjector_self w _ hid]

/-- A new wrapper round what is registered, whatever the wrapper and the scope were before:
`World.rewrap` reads only the base and the decorated provider. -/
theorem stores_rewrap (hid : id.index < w.injectors.size) (key : Key) (r : Registration ρ)
    (effective : Provider ρ) (scope : Scope) :
    Stores w (w.rewrap id ⟨key, r.base, r.provider, effective, scope⟩ r.scope) id key r := by
  obtain ⟨base, stages, scope⟩ := r
  cases scope with
  | noScope =>
    refine ⟨injectors_setBinding w id key _, ?_, rfl⟩
    exact bindings_setBinding w hid key _
  | singleton =>
    refine ⟨injectors_setBinding (w.newSlot).2 id key _, ?_, rfl⟩
    exact bindings_setBinding (w.newSlot).2 hid key _

theorem stores_establish (hid : id.index < w.injectors.size) (key : Key) (provider : Provider ρ)
    (scope : Scope) :
    Stores w (w.establish id key provider scope) id key ⟨provider, [], scope⟩ :=
  stores_rewrap hid key ⟨provider, [], scope⟩ provider scope

variable {view : RegistryView ρ} {slots : Key → SlotId}

/-- Storing a registration changes the map at its key, and gives the key a slot of its own. Other
keys keep theirs, which are older. -/
theorem Represents.store (h : w.Represents id view slots) (hs : Stores w w' id key r) :
    w'.Represents id (Function.update view key (some r))
      (Function.update slots key ⟨w.slots.size⟩) := by
  constructor
  case known =>
    rw [hs.injectors]
    exact h.known
  case bindings =>
    intro other
    rw [hs.bindings, Table.get?_insert]
    by_cases ho : other = key
    · subst ho
      rw [if_pos rfl, Function.update_self, Function.update_self]
      rfl
    · have hne : ¬ key = other := fun e => ho e.symm
      rw [if_neg hne, Function.update_of_ne ho, Function.update_of_ne ho]
      exact h.bindings other
  case allotted =>
    intro other s hview hscope
    by_cases ho : other = key
    · subst ho
      rw [Function.update_self] at hview ⊢
      cases hview
      rw [hs.slots, if_pos hscope, Array.size_push]
      exact Nat.lt_succ_self _
    · rw [Function.update_of_ne ho] at hview ⊢
      exact Nat.lt_of_lt_of_le (h.allotted other s hview hscope) hs.size_le
  case own =>
    intro one other s t hone hs' hother ht heq
    -- the slot of `key` is beyond those that the other keys have
    have hfar (a : Key) (u : Registration ρ) (ha : a ≠ key) (hview : view a = some u)
        (hu : u.scope = .singleton) : slots a ≠ ⟨w.slots.size⟩ := by
      intro e
      have hlt := h.allotted a u hview hu
      rw [e] at hlt
      exact Nat.lt_irrefl _ hlt
    by_cases h1 : one = key
    · by_cases h2 : other = key
      · rw [h1, h2]
      · rw [h1, Function.update_self, Function.update_of_ne h2] at heq
        rw [Function.update_of_ne h2] at hother
        exact absurd heq.symm (hfar other t h2 hother ht)
    · rw [Function.update_of_ne h1] at hone heq
      by_cases h2 : other = key
      · rw [h2, Function.update_self] at heq
        exact absurd heq (hfar one s h1 hone hs')
      · rw [Function.update_of_ne h2] at hother heq
        exact h.own one other s t hone hs' hother ht heq

/-- What else happens does not matter to `Represents` as long as it leaves the bindings alone and
takes no slot away. -/
theorem Represents.of_bindings_eq (h : w.Represents id view slots)
    (hknown : id.index < w'.injectors.size)
    (hbindings : (w'.injector id).bindings = (w.injector id).bindings)
    (hslots : w.slots.size ≤ w'.slots.size) : w'.Represents id view slots := by
  refine ⟨hknown, ?_, ?_, h.own⟩
  · rw [hbindings]
    exact h.bindings
  · intro key r hview hscope
    exact Nat.lt_of_lt_of_le (h.allotted key r hview hscope) hslots

theorem Represents.get?_eq_none (h : w.Represents id view slots) (hview : view key = none) :
    (w.injector id).bindings.get? key = none := by
  rw [h.bindings key, hview]
  rfl

theorem Represents.get?_eq_some (h : w.Represents id view slots) (hview : view key = some r) :
    (w.injector id).bindings.get? key = some (r.binding key (slots key)) := by
  rw [h.bindings key, hview]
  rfl

theorem Represents.mem_keys (h : w.Represents id view slots) (hview : view key = some r) :
    key ∈ (w.injector id).bindings.keys := by
  by_contra hnone
  rw [← Table.get?_eq_none_iff, h.get?_eq_some hview] at hnone
  cases hnone

/-- Each binding is one of the type of its key, so `Injector.find` never fails. -/
theorem Represents.find (h : w.Represents id view slots) (key : Key) :
    (w.injector id).find key = .ok ((view key).map (·.binding key (slots key))) := by
  rw [Injector.find, h.bindings key]
  cases view key with
  | none => rfl
  | some r => exact if_pos rfl

end World

end Wiring
