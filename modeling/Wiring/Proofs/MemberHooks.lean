import Wiring.Proofs.KeptBases

/-!
# Member hooks

The hooks of a type are those that were registered for it, in the order of their registration. Each
registration is an action that adds one hook at the end (`hooksOf_addHook`), and no other action
changes the hooks of any type (`SameHooks.perform`): so what was registered in the course of some
calls is told by the calls (`Call.hooksOf_after`).

* **`Call.hook?`** — the hook of one type of one injector that a call registers, if it does.
* **`SameHooks.registryFrame`** — calls on a registry register none, as a `World.RegistryFrame`.
-/

namespace Wiring

variable {ρ σ π : Type}

/-- The hook that a call registers for a type with an injector, if it registers one. What is
registered with an injector that does not exist is lost. -/
def Call.hook? (call : Call ρ σ π) (id : InjectorId) (type : ValueType) : Option ρ :=
  match call.action with
  | .addHook i t hook =>
    if i = id ∧ t = type ∧ id.index < call.before.injectors.size then some hook else none
  | _ => none

namespace World

variable {w between after : World ρ σ π} {id : InjectorId} {type : ValueType}

/-- Each injector has the same hooks for each type, by `Injector.hooksOf`. -/
def SameHooks (w after : World ρ σ π) : Prop :=
  ∀ id, (after.injector id).hooks = (w.injector id).hooks

namespace SameHooks

theorem hooksOf (h : w.SameHooks after) (id : InjectorId) (type : ValueType) :
    (after.injector id).hooksOf type = (w.injector id).hooksOf type := by
  rw [Injector.hooksOf, h id]
  rfl

theorem trans (h : w.SameHooks between) (h' : between.SameHooks after) : w.SameHooks after :=
  fun id => (h' id).trans (h id)

theorem of_eq (h : after.injectors = w.injectors) : w.SameHooks after := by
  intro id
  rw [World.injector, h]
  rfl

theorem modifyInjector (w : World ρ σ π) (id : InjectorId) {f : Injector ρ → Injector ρ}
    (hf : ∀ injector, (f injector).hooks = injector.hooks) : w.SameHooks (w.modifyInjector id f) :=
  w.injector_modifyInjector id (·.hooks) hf

/-- Calls on a registry leave the hooks alone, so `SameHooks` is a `RegistryFrame`. -/
theorem registryFrame (id : InjectorId) :
    RegistryFrame id (SameHooks : World ρ σ π → World ρ σ π → Prop) where
  refl _ := of_eq rfl
  trans := trans
  note _ _ := of_eq rfl
  allocate _ _ := of_eq rfl
  newSlot _ := of_eq rfl
  newRoster _ _ := of_eq rfl
  newCatalog _ _ := of_eq rfl
  setBinding w _ _ := modifyInjector w id fun _ => rfl

/-- Hooks are changed by the action that registers one, and by no other: the rest are calls on a
registry or leave the injectors as they are. -/
theorem perform {action : Action ρ σ π} (h : ∀ id type hook, action ≠ .addHook id type hook)
    (w : World ρ σ π) : w.SameHooks (action.perform w).2 := by
  cases hregisters : action.registers with
  | some registered =>
    obtain ⟨id, call⟩ := registered
    have hrest := SameHoldings.perform_of_registers (w := w) hregisters
    exact ((registryFrame id).register w call).trans (of_eq hrest.injectors)
  | none =>
    cases hadds : action.adds with
    | false => exact of_eq (SameHoldings.perform_of_unregistered hregisters hadds).injectors
    | true =>
      cases action
      case newInjector => exact fun id => congrArg Injector.hooks (injector_newInjector w id)
      case newSlot => exact of_eq rfl
      case addHook id type hook => exact absurd rfl (h id type hook)
      all_goals cases hadds

end SameHooks

/-- A hook is registered after those that its type has, and those of other types and injectors
stay. -/
theorem hooksOf_addHook (w : World ρ σ π) (i id : InjectorId) (t type : ValueType) (hook : ρ) :
    ((w.addHook i t hook).injector id).hooksOf type = (w.injector id).hooksOf type ++
      if i = id ∧ t = type ∧ id.index < w.injectors.size then [hook] else [] := by
  unfold World.addHook
  by_cases hi : i = id
  · subst hi
    by_cases hknown : i.index < w.injectors.size
    · rw [injector_modifyInjector_self w _ hknown]
      by_cases ht : t = type
      · simp [Injector.hooksOf, ht, hknown]
      · simp [Injector.hooksOf, Table.get?_insert, ht]
    · simp [World.modifyInjector, World.injector, hknown]
  · rw [injector_modifyInjector_of_ne w _ hi]
    simp [hi]

end World

/-- A call adds the hook that it registers, by `Call.hook?`, to those of the type, at the end. -/
theorem Call.hooksOf_after (call : Call ρ σ π) (id : InjectorId) (type : ValueType) :
    (call.after.injector id).hooksOf type =
      (call.before.injector id).hooksOf type ++ (call.hook? id type).toList := by
  obtain ⟨action, w⟩ := call
  by_cases hadds : ∃ i t hook, action = .addHook i t hook
  · obtain ⟨i, t, hook, rfl⟩ := hadds
    rw [Call.hook?]
    refine (w.hooksOf_addHook i id t type hook).trans ?_
    dsimp only
    split <;> rfl
  · have hplain : ∀ i t hook, action ≠ .addHook i t hook := fun i t hook heq => hadds ⟨i, t, hook, heq⟩
    have hnone : (Call.mk action w).hook? id type = none := by
      unfold Call.hook?
      split
      case h_1 heq => exact absurd heq (hplain _ _ _)
      case h_2 => rfl
    rw [hnone, Option.toList_none, List.append_nil]
    exact (World.SameHooks.perform hplain w).hooksOf id type

end Wiring
