import Wiring.Proofs.Edits

/-!
# What gives a key a new wrapper

A slot changes when its singleton is made and at no other time: no action writes to one, and a new
slot is empty, as every slot that does not exist yet reads. A key that is bound keeps its binding,
and with it the wrapper that resolving it uses, but for the four operations that store a binding
anew: to bind the key, to change its scope, to decorate it and to shut its injector down
(`Request.Rewraps`). `Spares` says so of a change; it holds of the small changes of which actions
are made, and so of every action (`Spares.perform`). What resolutions keep of themselves, no action
changes but the two on the resolve stack (`Edits.undisturbed`).

* **`Spares.setBinding`** — a binding is lost where it is allowed to be, or where there was none.
* **`World.Undisturbed`** — the stack, the waits and the slots are as they were.
-/

namespace Wiring

variable {ρ σ π : Type}

/-- The request is an action that stores the binding of the key anew, by `Action.Rewraps`. -/
def Request.Rewraps : Request ρ σ π → InjectorId → Key → Prop
  | .act action => action.Rewraps
  | _ => fun _ _ => False

namespace World

/-- From `w` to `after` no slot has changed, and no key is without the binding that it had in
`Injector.bindings` but for those that are `lost`. -/
structure Spares (lost : InjectorId → Key → Prop) (w after : World ρ σ π) : Prop where
  slot : ∀ slot, after.slot slot = w.slot slot
  room : w.slots.size ≤ after.slots.size
  wrapped : w.Wrapped → after.Wrapped
  binding : w.Wrapped → ∀ id key binding, ¬ lost id key →
    (w.injector id).bindings.get? key = some binding →
    (after.injector id).bindings.get? key = some binding

namespace Spares

variable {lost : InjectorId → Key → Prop} {w between after : World ρ σ π}
variable {id : InjectorId} {key : Key} {binding : Binding ρ}

/-! ### Changes put together -/

theorem of_eq (hinjectors : after.injectors = w.injectors) (hslots : after.slots = w.slots) :
    w.Spares lost after := by
  have hinjector (id : InjectorId) : after.injector id = w.injector id := by
    rw [World.injector, hinjectors]
    rfl
  refine ⟨fun slot => ?_, Nat.le_of_eq (congrArg Array.size hslots).symm, ?_, ?_⟩
  · rw [World.slot, hslots]
    rfl
  · intro h id key binding hget
    rw [hinjector] at hget
    exact h id key binding hget
  · intro _ id key binding _ hget
    rw [hinjector]
    exact hget

theorem refl (w : World ρ σ π) : w.Spares lost w :=
  of_eq rfl rfl

theorem trans (h : w.Spares lost between) (h' : between.Spares lost after) : w.Spares lost after where
  slot := fun slot => (h'.slot slot).trans (h.slot slot)
  room := Nat.le_trans h.room h'.room
  wrapped := fun hk => h'.wrapped (h.wrapped hk)
  binding := fun hk id key binding hlost hget =>
    h'.binding (h.wrapped hk) id key binding hlost (h.binding hk id key binding hlost hget)

/-! ### Injectors -/

theorem modifyInjector (w : World ρ σ π) (id : InjectorId) {f : Injector ρ → Injector ρ}
    (hf : ∀ injector, (f injector).bindings = injector.bindings) :
    w.Spares lost (w.modifyInjector id f) := by
  have hbindings := w.injector_modifyInjector id (·.bindings) hf
  refine ⟨fun _ => rfl, Nat.le_refl _, ?_, ?_⟩
  · intro h other key binding hget
    rw [hbindings] at hget
    exact h other key binding hget
  · intro _ other key binding _ hget
    rw [hbindings]
    exact hget

theorem setWaits (w : World ρ σ π) (id : InjectorId) (waits : WaitGraph) :
    w.Spares lost (w.setWaits id waits) :=
  modifyInjector w id fun _ => rfl

theorem newInjector (w : World ρ σ π) : w.Spares lost w.newInjector.2 := by
  refine ⟨fun _ => rfl, Nat.le_refl _, ?_, ?_⟩
  · intro h id key binding hget
    rw [injector_newInjector] at hget
    exact h id key binding hget
  · intro _ id key binding _ hget
    rw [injector_newInjector]
    exact hget

/-! ### Slots and bindings -/

theorem newSlot (w : World ρ σ π) : w.Spares lost w.newSlot.2 := by
  refine ⟨fun slot => ?_, ?_, fun h => h, fun _ _ _ _ _ h => h⟩
  · by_cases hlast : slot.index < w.slots.size
    · simp [World.newSlot, World.slot, Array.getElem?_push, Nat.ne_of_lt hlast]
    · rw [slot_of_size_le w (Nat.le_of_not_lt hlast)]
      simp only [World.newSlot, World.slot, Array.getElem?_push]
      split
      case isTrue => rfl
      case isFalse => simp [hlast]
  · simp [World.newSlot]

/-- A binding is stored by `setBinding` where none was, or where the loss of the old one is
allowed. -/
theorem setBinding (hkey : binding.key = key)
    (hwrap : binding.scope = .singleton →
      ∃ slot, binding.effective = .singleton slot key key.type binding.decorated)
    (hlost : w.Wrapped → lost id key ∨ (w.injector id).bindings.get? key = none) :
    w.Spares lost (w.setBinding id key binding) := by
  by_cases hid : id.index < w.injectors.size
  · have hget (other : InjectorId) (name : Key) :
        ((w.setBinding id key binding).injector other).bindings.get? name =
          if id = other ∧ key = name then some binding
          else (w.injector other).bindings.get? name := by
      by_cases hother : id = other
      · subst hother
        rw [bindings_setBinding w hid, Table.get?_insert]
        simp
      · rw [World.setBinding, injector_modifyInjector_of_ne w _ hother]
        simp [hother]
    refine ⟨fun _ => rfl, Nat.le_refl _, ?_, ?_⟩
    · intro h other name stored hstored
      rw [hget] at hstored
      split at hstored
      case isTrue heq =>
        cases hstored
        exact ⟨hkey.trans heq.2, heq.2 ▸ hwrap⟩
      case isFalse => exact h other name stored hstored
    · intro hwrapped other name stored hkept hstored
      rw [hget, if_neg]
      · exact hstored
      · rintro ⟨rfl, rfl⟩
        rcases hlost hwrapped with hlost | hnone
        · exact hkept hlost
        · rw [hnone] at hstored
          cases hstored
  · -- there is no such injector
    refine of_eq (Array.ext (by simp [World.setBinding, World.modifyInjector]) ?_) rfl
    intro index _ hindex
    have hother : id.index ≠ index := fun heq => hid (heq ▸ hindex)
    simp [World.setBinding, World.modifyInjector, Array.getElem_modify, hother]

/-! ### Whatever is made of small changes -/

theorem of_edits (h : w.Edits lost after) : w.Spares lost after := by
  induction h with
  | aside hinjectors hslots _ _ => exact of_eq hinjectors hslots
  | newInjector w => exact newInjector w
  | modifyInjector w id hbindings _ => exact modifyInjector w id hbindings
  | newSlot w => exact newSlot w
  | setBinding hkey hwrap hlost => exact setBinding hkey hwrap hlost
  | trans _ _ ih ih' => exact ih.trans ih'

theorem note (w : World ρ σ π) (event : LogEvent) : w.Spares lost (w.note event) :=
  of_eq rfl rfl

theorem providerOf (w : World ρ σ π) (id : InjectorId) (key : Key) :
    w.Spares lost (w.providerOf id key).2 :=
  of_edits (.providerOf w id key)

theorem raise {α : Type} (w : World ρ σ π) (fault : Fault) :
    w.Spares lost (w.raise fault : Except Fault α × World ρ σ π).2 :=
  note w _

theorem pushKey (w : World ρ σ π) (key : Key) : w.Spares lost (w.pushKey key).2 := by
  rw [World.pushKey]
  split
  case h_1 => exact raise w _
  case h_2 => exact of_eq rfl rfl

theorem awaitKey (w : World ρ σ π) (id : InjectorId) (key : Key) :
    w.Spares lost (w.awaitKey id key).2 := by
  rw [World.awaitKey]
  split
  case h_1 => exact raise w _
  case h_2 => exact setWaits w id _

/-- An action takes bindings from those keys alone that it `Rewraps`, and it changes no slot. -/
theorem perform (action : Action ρ σ π) (w : World ρ σ π) :
    w.Spares action.Rewraps (action.perform w).2 := by
  cases hhand : action.isByHand with
  | false => exact of_edits (.perform hhand w)
  | true =>
    match action with
    | .popKey => exact of_eq rfl rfl
    | .pushKey key => exact pushKey w key

end Spares

/-! ### What no action changes -/

/-- Neither the stack nor a wait nor a slot has changed, and the thread still runs: what a
resolution keeps of itself is as it was. -/
structure Undisturbed (w after : World ρ σ π) : Prop where
  thread : after.thread = w.thread
  stack : after.stack = w.stack
  waits : ∀ id, (after.injector id).waits = (w.injector id).waits
  slot : ∀ slot, after.slot slot = w.slot slot

variable {w between after : World ρ σ π} {lost : InjectorId → Key → Prop}

theorem Undisturbed.refl (w : World ρ σ π) : w.Undisturbed w :=
  ⟨rfl, rfl, fun _ => rfl, fun _ => rfl⟩

theorem Undisturbed.trans (h : w.Undisturbed between) (h' : between.Undisturbed after) :
    w.Undisturbed after where
  thread := h'.thread.trans h.thread
  stack := h'.stack.trans h.stack
  waits := fun id => (h'.waits id).trans (h.waits id)
  slot := fun slot => (h'.slot slot).trans (h.slot slot)

theorem Edits.undisturbed (h : w.Edits lost after) : w.Undisturbed after := by
  refine ⟨?thread, ?stack, ?waits, (Spares.of_edits h).slot⟩
  case thread =>
    induction h with
    | aside _ _ hthread _ => exact hthread
    | trans _ _ ih ih' => exact ih'.trans ih
    | _ => rfl
  case stack =>
    induction h with
    | aside _ _ _ hstack => exact hstack
    | trans _ _ ih ih' => exact ih'.trans ih
    | _ => rfl
  case waits =>
    intro id
    induction h with
    | aside hinjectors _ _ _ =>
      rw [World.injector, hinjectors]
      rfl
    | newInjector w => rw [injector_newInjector]
    | modifyInjector w other _ hwaits => exact w.injector_modifyInjector other (·.waits) hwaits id
    | newSlot _ => rfl
    | @setBinding w other _ _ _ _ _ =>
      rw [World.setBinding]
      refine w.injector_modifyInjector other (·.waits) ?_ id
      exact fun _ => rfl
    | trans _ _ ih ih' => exact ih'.trans ih

end World

end Wiring
