import Wiring.Proofs.Accounts
import Wiring.Proofs.RegistryHistory

/-!
# What a key stays bound to

Scopes, stages and wrappers of a key come and go, but the provider that the key was bound to stays
until it is bound anew. An action makes at most one call on one registry (`Action.registers`); the
rest of it changes no binding (`World.SameHoldings`), nor does the call change those of other
injectors (`World.Beside`). So every action keeps each registry in order and each key bound to what
it was bound to, but for the one that binds it (`Represents.perform`), and so does every passage:
what a key is registered to after it tells the stages and the scope that the calls gave it on the
way, in their order (`Registration.after`).

* **`World.RegistryFrame`** — what survives the few changes that calls on a registry are made of
  survives the calls (`RegistryFrame.register`, `RegistryFrame.openList`).
* **`Action.given_of_registers`** — what an action gives a key, a stage or a scope, is what its call
  on the registry gives.
* **`World.Registered`** — every injector has a registry that `World.Represents`;
  `Passes.represents` carries it along.
-/

namespace Wiring

variable {ρ σ π : Type}

namespace RegistryCall

/-- The call binds the key, to a provider, an instance, a shared object or a factory. -/
def Binds (key : Key) : RegistryCall ρ π → Prop
  | .bindProvider own _ _ => own = key
  | .bindInstance own _ => own = key
  | .bindShared own _ => own = key
  | .bindFactory own _ _ => own = key
  | _ => False

/-- The stage that the call adds to the key, if it decorates it. -/
def stage? (key : Key) : RegistryCall ρ π → Option (Stage ρ)
  | .decorate own stage => if own = key then some stage else none
  | _ => none

/-- The scope that the call gives to the key, if it changes it. -/
def scope? (key : Key) : RegistryCall ρ π → Option Scope
  | .changeScope own scope => if own = key then some scope else none
  | _ => none

variable {view : RegistryView ρ} {key : Key} {r : Registration ρ} {call : RegistryCall ρ π}

/-- A key that is registered stays registered to the same provider, with what the call gives it by
`stage?` and `scope?`, unless the call `Binds` it. -/
theorem after_of_not_binds (w : World ρ σ π) (h : view key = some r) (hbinds : ¬ call.Binds key) :
    call.after w view key =
      some ⟨r.base, r.stages ++ (call.stage? key).toList, (call.scope? key).getD r.scope⟩ := by
  -- what a call leaves alone gets no stage from it and keeps its scope
  have hsame : view key = some ⟨r.base, r.stages ++ [], r.scope⟩ := by rw [h, List.append_nil]
  have hother (own : Key) (hne : ¬ own = key) (t : Option (Registration ρ)) :
      Function.update view own t key = some ⟨r.base, r.stages ++ [], r.scope⟩ := by
    rw [Function.update_of_ne (Ne.symm hne), hsame]
  have hkept (own : Key) (fresh : Registration ρ) :
      Function.update view own (some ((view own).getD fresh)) key =
        some ⟨r.base, r.stages ++ [], r.scope⟩ := by
    by_cases heq : own = key
    · rw [heq, Function.update_self, hsame]
      rfl
    · exact hother own heq _
  cases call with
  | bindProvider own _ _ => exact hother own hbinds _
  | bindInstance own _ => exact hother own hbinds _
  | bindShared own _ => exact hother own hbinds _
  | bindFactory own _ _ => exact hother own hbinds _
  | changeScope own scope =>
    by_cases heq : own = key
    · simp [after, stage?, scope?, heq, h]
    · rw [scope?, if_neg heq]
      exact hother own heq _
  | decorate own stage =>
    by_cases heq : own = key
    · simp [after, stage?, scope?, heq, h]
    · rw [stage?, if_neg heq]
      exact hother own heq _
  | shutDown => exact hsame
  | listBuilder own => exact hkept own _
  | mapBuilder own => exact hkept own _

end RegistryCall

namespace Action

/-- The call on a registry that an action makes, if it makes one, and on which injector. -/
def registers : Action ρ σ π → Option (InjectorId × RegistryCall ρ π)
  | .bind id key p scope => some (id, .bindProvider key p scope)
  | .changeScope id key scope => some (id, .changeScope key scope)
  | .decorate id key stage => some (id, .decorate key stage)
  | .shutDown id => some (id, .shutDown)
  | .openList id list => some (id, .listBuilder list)
  | .contribute id list _ _ => some (id, .listBuilder list)
  | .contributeObject id list _ => some (id, .listBuilder list)
  | .contributeAll id list _ => some (id, .listBuilder list)
  | .arrange id list _ _ _ => some (id, .listBuilder list)
  | .listOrder id list => some (id, .listBuilder list)
  | .openMap id map => some (id, .mapBuilder map)
  | .contributeNamed id map _ _ => some (id, .mapBuilder map)
  | _ => none

/-- The action adds an injector, a slot or a hook, which no call on a registry does. -/
def adds : Action ρ σ π → Bool
  | .newInjector => true
  | .newSlot => true
  | .addHook _ _ _ => true
  | _ => false

/-- The action binds the key of that injector. -/
def Binds (id : InjectorId) (key : Key) : Action ρ σ π → Prop
  | .bind i own _ _ => i = id ∧ own = key
  | _ => False

/-- The stage that the action adds to the key of that injector. -/
def stage? (id : InjectorId) (key : Key) : Action ρ σ π → Option (Stage ρ)
  | .decorate i own stage => if i = id ∧ own = key then some stage else none
  | _ => none

/-- The scope that the action gives to the key of that injector. -/
def scope? (id : InjectorId) (key : Key) : Action ρ σ π → Option Scope
  | .changeScope i own scope => if i = id ∧ own = key then some scope else none
  | _ => none

/-- What an action gives to a key by `Action.stage?` and `Action.scope?`, the call that it makes
does. -/
theorem given_of_registers {action : Action ρ σ π} {other : InjectorId} {call : RegistryCall ρ π}
    (h : action.registers = some (other, call)) (id : InjectorId) (key : Key) :
    action.stage? id key = (if other = id then call.stage? key else none) ∧
      action.scope? id key = if other = id then call.scope? key else none := by
  cases action <;> cases h <;>
    simp [stage?, scope?, RegistryCall.stage?, RegistryCall.scope?, ite_and]

theorem given_of_unregistered {action : Action ρ σ π} (h : action.registers = none)
    (id : InjectorId) (key : Key) : action.stage? id key = none ∧ action.scope? id key = none := by
  cases action
  case decorate => cases h
  case changeScope => cases h
  all_goals exact ⟨rfl, rfl⟩

theorem binds_of_registers {action : Action ρ σ π} {id : InjectorId} {call : RegistryCall ρ π}
    {key : Key} (h : action.registers = some (id, call)) (hbinds : call.Binds key) :
    action.Binds id key := by
  cases action
  case bind =>
    cases h
    exact ⟨rfl, hbinds⟩
  all_goals
    cases h
    try cases hbinds

end Action

namespace Registration

/-- What a key is registered to after calls that do not bind it: the same `base`, with the stages
that they have added since and with the scope that the last of them gave it. -/
def after (r : Registration ρ) (id : InjectorId) (key : Key) (calls : List (Call ρ σ π)) :
    Registration ρ where
  base := r.base
  stages := r.stages ++ calls.filterMap (·.action.stage? id key)
  scope := (calls.filterMap (·.action.scope? id key)).getLast?.getD r.scope

variable (r : Registration ρ) (id : InjectorId) (key : Key)

theorem after_nil : r.after id key ([] : List (Call ρ σ π)) = r := by
  simp [after]

theorem after_append (calls more : List (Call ρ σ π)) :
    r.after id key (calls ++ more) = (r.after id key calls).after id key more := by
  simp only [after, List.filterMap_append, List.append_assoc, List.getLast?_append]
  cases (more.filterMap (·.action.scope? id key)).getLast? <;> rfl

/-- An action that gives nothing to the key leaves its registration alone. -/
theorem after_of_none {call : Call ρ σ π} (hstage : call.action.stage? id key = none)
    (hscope : call.action.scope? id key = none) : r.after id key [call] = r := by
  simp [after, hstage, hscope]

end Registration

namespace World

/-- The same injectors have the same bindings. -/
structure SameBindings (w after : World ρ σ π) : Prop where
  injectors : after.injectors.size = w.injectors.size
  bindings : ∀ id, (after.injector id).bindings = (w.injector id).bindings
  slots : w.slots.size ≤ after.slots.size

/-- Bindings have changed in the one injector alone, and the others have theirs. -/
structure Beside (id : InjectorId) (w after : World ρ σ π) : Prop where
  injectors : after.injectors.size = w.injectors.size
  bindings : ∀ other, other ≠ id → (after.injector other).bindings = (w.injector other).bindings
  slots : w.slots.size ≤ after.slots.size

variable {w between after : World ρ σ π} {id : InjectorId} {key : Key}

theorem SameStock.sameBindings (h : w.SameStock after) : w.SameBindings after :=
  ⟨h.injectors, h.bindings, h.slots⟩

theorem SameBindings.of_eq (hinjectors : after.injectors = w.injectors)
    (hslots : after.slots = w.slots) : w.SameBindings after := by
  refine ⟨congrArg Array.size hinjectors, fun id => ?_, Nat.le_of_eq (congrArg Array.size hslots).symm⟩
  rw [World.injector, hinjectors]
  rfl

/-! ### What calls on a registry keep -/

/-- What holds of a world and of another that small changes make of it, among them that a binding is
stored in the one injector: `Holds` is reflexive and transitive and survives each of them. -/
structure RegistryFrame (id : InjectorId) (Holds : World ρ σ π → World ρ σ π → Prop) : Prop where
  refl : ∀ w, Holds w w
  trans : ∀ {w between after}, Holds w between → Holds between after → Holds w after
  note : ∀ w event, Holds w (w.note event)
  allocate : ∀ w content, Holds w (w.allocate content).2
  newSlot : ∀ w, Holds w w.newSlot.2
  newRoster : ∀ w list, Holds w (w.newRoster list).2
  newCatalog : ∀ w map, Holds w (w.newCatalog map).2
  setBinding : ∀ w key binding, Holds w (w.setBinding id key binding)

namespace RegistryFrame

variable {Holds : World ρ σ π → World ρ σ π → Prop}

theorem establish (h : RegistryFrame id Holds) (w : World ρ σ π) (key : Key) (provider : Provider ρ)
    (scope : Scope) : Holds w (w.establish id key provider scope) := by
  cases scope with
  | noScope => exact h.setBinding w key _
  | singleton => exact h.trans (h.newSlot w) (h.setBinding _ key _)

theorem rewrap (h : RegistryFrame id Holds) (w : World ρ σ π) (binding : Binding ρ) (scope : Scope) :
    Holds w (w.rewrap id binding scope) := by
  cases scope with
  | noScope => exact h.setBinding w _ _
  | singleton => exact h.trans (h.newSlot w) (h.setBinding _ _ _)

theorem release (h : RegistryFrame id Holds) (w : World ρ σ π) (key : Key) :
    Holds w (w.release id key) := by
  unfold World.release
  split
  case h_1 => exact h.refl w
  case h_2 =>
    split
    · exact h.rewrap w _ _
    · exact h.refl w

theorem shutDown (h : RegistryFrame id Holds) (w : World ρ σ π) : Holds w (w.shutDown id) := by
  have hfold (keys : List Key) (w : World ρ σ π) : Holds w (keys.foldl (·.release id ·) w) := by
    induction keys generalizing w with
    | nil => exact h.refl w
    | cons key keys ih => exact h.trans (h.release w key) (ih _)
  exact h.trans (hfold _ w) (h.note _ _)

theorem baseOr (h : RegistryFrame id Holds) (w : World ρ σ π) (key : Key)
    {create : World ρ σ π → Provider ρ × World ρ σ π} (hcreate : ∀ w, Holds w (create w).2) :
    Holds w (w.baseOr id key create).2 := by
  unfold World.baseOr
  split
  case h_1 => exact h.note w _
  case h_2 => exact h.refl w
  case h_3 =>
    show Holds w ((create _).2.establish id key (create _).1 .noScope)
    exact h.trans (h.note w _) (h.trans (hcreate _) (h.establish _ _ _ _))

/-- A collection that is found by its key, or made for it, by `World.baseOr`. -/
theorem openList (h : RegistryFrame id Holds) (w : World ρ σ π) (list : Key) :
    Holds w (w.openList id list).2 := by
  have hbase : Holds w (w.baseOr id list fun w =>
      (.list (w.newRoster list).1, (w.newRoster list).2)).2 := h.baseOr w list fun w => h.newRoster w list
  rw [World.openList]
  split
  case h_1 heq => rwa [heq] at hbase
  case h_2 heq => rwa [heq] at hbase
  case h_3 heq =>
    rw [heq] at hbase
    exact h.trans hbase (h.note _ _)

theorem openMap (h : RegistryFrame id Holds) (w : World ρ σ π) (map : Key) :
    Holds w (w.openMap id map).2 := by
  have hbase : Holds w (w.baseOr id map fun w =>
      (.map (w.newCatalog map).1, (w.newCatalog map).2)).2 := h.baseOr w map fun w => h.newCatalog w map
  rw [World.openMap]
  split
  case h_1 heq => rwa [heq] at hbase
  case h_2 heq => rwa [heq] at hbase
  case h_3 heq =>
    rw [heq] at hbase
    exact h.trans hbase (h.note _ _)

/-- What is kept by the small changes of a `RegistryFrame` is kept by all calls on the registry,
each of which `World.register` carries out. -/
theorem register (h : RegistryFrame id Holds) (w : World ρ σ π) (call : RegistryCall ρ π) :
    Holds w (w.register id call).2 := by
  cases call with
  | bindProvider key provider scope => exact h.trans (h.establish w key provider scope) (h.note _ _)
  | bindInstance key content =>
    exact h.trans (h.allocate w content) (h.trans (h.establish _ key _ _) (h.note _ _))
  | bindShared key object => exact h.trans (h.establish w key _ _) (h.note _ _)
  | bindFactory key scope routine => exact h.trans (h.establish w key _ _) (h.note _ _)
  | changeScope key scope =>
    show Holds w (w.changeScope id key scope).2
    unfold World.changeScope
    split
    case h_1 => exact h.note w _
    case h_2 => exact h.trans (h.note w _) (h.rewrap _ _ _)
  | decorate key stage =>
    show Holds w (w.decorate id key stage).2
    unfold World.decorate
    split
    case h_1 => exact h.note w _
    case h_2 => exact h.note w _
    case h_3 => exact h.trans (h.note w _) (h.rewrap _ _ _)
  | shutDown => exact h.shutDown w
  | listBuilder list => exact h.openList w list
  | mapBuilder map => exact h.openMap w map

end RegistryFrame

/-- The bindings of the other injectors stay as they are, so `Beside` is a `RegistryFrame`. -/
theorem Beside.registryFrame (id : InjectorId) :
    RegistryFrame id (Beside id : World ρ σ π → World ρ σ π → Prop) where
  refl _ := ⟨rfl, fun _ _ => rfl, Nat.le_refl _⟩
  trans h h' := {
    injectors := h'.injectors.trans h.injectors
    bindings := fun other hother => (h'.bindings other hother).trans (h.bindings other hother)
    slots := Nat.le_trans h.slots h'.slots }
  note _ _ := ⟨rfl, fun _ _ => rfl, Nat.le_refl _⟩
  allocate _ _ := ⟨rfl, fun _ _ => rfl, Nat.le_refl _⟩
  newSlot w := ⟨rfl, fun _ _ => rfl, by simp [World.newSlot]⟩
  newRoster _ _ := ⟨rfl, fun _ _ => rfl, Nat.le_refl _⟩
  newCatalog _ _ := ⟨rfl, fun _ _ => rfl, Nat.le_refl _⟩
  setBinding w key binding := {
    injectors := injectors_setBinding w id key binding
    bindings := fun other hother => by
      unfold World.setBinding
      rw [injector_modifyInjector_of_ne w _ (Ne.symm hother)]
    slots := Nat.le_refl _ }

theorem Beside.register (w : World ρ σ π) (call : RegistryCall ρ π) :
    w.Beside id (w.register id call).2 :=
  (Beside.registryFrame id).register w call

/-! ### The rest of an action -/

/-- Neither what the injectors hold has changed nor what the slots keep. -/
structure SameHoldings (w after : World ρ σ π) : Prop where
  injectors : after.injectors = w.injectors
  slots : after.slots = w.slots

namespace SameHoldings

theorem refl (w : World ρ σ π) : w.SameHoldings w :=
  ⟨rfl, rfl⟩

theorem trans (h : w.SameHoldings between) (h' : between.SameHoldings after) : w.SameHoldings after :=
  ⟨h'.injectors.trans h.injectors, h'.slots.trans h.slots⟩

theorem sameBindings (h : w.SameHoldings after) : w.SameBindings after :=
  .of_eq h.injectors h.slots

theorem raise {α : Type} (w : World ρ σ π) (fault : Fault) :
    w.SameHoldings (w.raise fault : Except Fault α × World ρ σ π).2 :=
  ⟨rfl, rfl⟩

theorem rosterFrame : RosterFrame (SameHoldings : World ρ σ π → World ρ σ π → Prop) where
  refl := refl
  trans := trans
  note _ _ := ⟨rfl, rfl⟩
  allocate _ _ := ⟨rfl, rfl⟩
  setRoster _ _ _ := ⟨rfl, rfl⟩
  enter _ _ _ := ⟨rfl, rfl⟩

theorem perform_of_registers {action : Action ρ σ π} {call : RegistryCall ρ π}
    (h : action.registers = some (id, call)) :
    (w.register id call).2.SameHoldings (action.perform w).2 := by
  cases action
  case contribute list _ _ | contributeObject list _ | contributeAll list _ | arrange list _ _ _ |
      listOrder list =>
    cases h
    exact rosterFrame.perform rfl w
  case contributeNamed map name provider =>
    cases h
    show (w.openMap id map).2.SameHoldings (w.contributeNamed id map name provider).2
    unfold World.contributeNamed
    cases w.openMap id map with
    | mk found v =>
      cases found with
      | error _ => exact refl v
      | ok catalog => exact ⟨rfl, rfl⟩
  all_goals
    cases h
    try exact refl _

/-- An action that makes no call on a registry changes no injector and no slot, but for the three
that `adds` an injector, a slot or a hook. -/
theorem perform_of_unregistered {action : Action ρ σ π} (h : action.registers = none)
    (hadds : action.adds = false) : w.SameHoldings (action.perform w).2 := by
  cases action
  case newInjector => cases hadds
  case newSlot => cases hadds
  case addHook => cases hadds
  case binding id key =>
    show w.SameHoldings (w.bindingOf id key).2
    unfold World.bindingOf
    split
    case h_1 => exact ⟨rfl, rfl⟩
    case h_2 => exact refl w
  case provider id key =>
    show w.SameHoldings (w.providerOf id key).2
    unfold World.providerOf
    split
    case h_1 => exact raise w _
    case h_2 => exact raise w _
    case h_3 => exact refl w
  case place roster entry side other => exact rosterFrame.place w roster entry side other
  case orderedKeys roster => exact rosterFrame.ordered w roster
  case pushKey key =>
    show w.SameHoldings (w.pushKey key).2
    unfold World.pushKey
    split
    case h_1 => exact raise w _
    case h_2 => exact ⟨rfl, rfl⟩
  all_goals first
    | exact ⟨rfl, rfl⟩
    | cases h

end SameHoldings

/-- An action that makes no call on a registry changes no binding: it is one of those of
`SameHoldings`, or it adds something that has none. -/
theorem SameBindings.perform_of_unregistered {action : Action ρ σ π} (h : action.registers = none)
    (hnew : action ≠ .newInjector) : w.SameBindings (action.perform w).2 := by
  cases hadds : action.adds with
  | false => exact (SameHoldings.perform_of_unregistered h hadds).sameBindings
  | true =>
    cases action
    case newInjector => exact absurd rfl hnew
    case newSlot => exact ⟨rfl, fun _ => rfl, by simp [Action.perform, World.newSlot]⟩
    case addHook id type hook =>
      have hsame : w.SameStock (w.addHook id type hook) := .modifyInjector w id fun _ => rfl
      exact hsame.sameBindings
    all_goals cases hadds

/-! ### Registries in the course of a run -/

variable {view : RegistryView ρ} {slots : Key → SlotId}

theorem Represents.of_sameBindings (h : w.Represents id view slots) (hsame : w.SameBindings after) :
    after.Represents id view slots :=
  h.of_bindings_eq (hsame.injectors ▸ h.known) (hsame.bindings id) hsame.slots

/-- An action keeps a registry in order. Each key has what the action gives it on top of what it
had, by `Registration.after`, but for the key that it binds. -/
theorem Represents.perform (h : w.Represents id view slots) (action : Action ρ σ π) :
    ∃ view' slots', (action.perform w).2.Represents id view' slots' ∧
      ∀ key r, view key = some r → ¬ action.Binds id key →
        view' key = some (r.after id key [⟨action, w⟩]) := by
  have hview (hgiven : ∀ key, action.stage? id key = none ∧ action.scope? id key = none) :
      ∀ key r, view key = some r → ¬ action.Binds id key →
        view key = some (r.after id key [⟨action, w⟩]) := by
    intro key r hr _
    rw [r.after_of_none id key (hgiven key).1 (hgiven key).2, hr]
  by_cases hnew : action = .newInjector
  · subst hnew
    refine ⟨view, slots, h.of_bindings_eq ?_ ?_ (Nat.le_refl _), hview fun _ => ⟨rfl, rfl⟩⟩
    · show id.index < (w.injectors.push {}).size
      rw [Array.size_push]
      exact Nat.lt_succ_of_lt h.known
    · exact congrArg Injector.bindings (injector_newInjector w id)
  cases hregisters : action.registers with
  | none =>
    exact ⟨view, slots, h.of_sameBindings (.perform_of_unregistered hregisters hnew),
      hview (Action.given_of_unregistered hregisters id)⟩
  | some registered =>
    obtain ⟨other, call⟩ := registered
    have hgiven := Action.given_of_registers hregisters id
    have hrest := (SameHoldings.perform_of_registers (w := w) hregisters).sameBindings
    by_cases heq : other = id
    · subst heq
      obtain ⟨slots', hcall⟩ := (RegistryCall.effect h call).represents
      refine ⟨_, slots', hcall.of_sameBindings hrest, fun key r hr hbinds => ?_⟩
      rw [RegistryCall.after_of_not_binds w hr fun hcall =>
        hbinds (Action.binds_of_registers hregisters hcall)]
      obtain ⟨hstage, hscope⟩ := hgiven key
      rw [if_pos rfl] at hstage hscope
      simp only [Registration.after, List.filterMap_cons, List.filterMap_nil, hstage, hscope]
      cases call.stage? key <;> cases call.scope? key <;> rfl
    -- a call on another injector leaves the bindings of this one alone
    · have hbeside : w.Beside other (w.register other call).2 := .register w call
      have hcall : (w.register other call).2.Represents id view slots :=
        h.of_bindings_eq (hbeside.injectors ▸ h.known) (hbeside.bindings id (Ne.symm heq)) hbeside.slots
      simp only [if_neg heq] at hgiven
      exact ⟨view, slots, hcall.of_sameBindings hrest, hview hgiven⟩

/-- The registries of all injectors are in order: each is represented by some view, by
`World.Represents`. -/
def Registered (w : World ρ σ π) : Prop :=
  ∀ id, id.index < w.injectors.size → ∃ view slots, w.Represents id view slots

theorem Registered.of_empty (h : ∀ injector ∈ w.injectors, injector.bindings = .empty) : w.Registered := by
  intro id hid
  have hinjector : w.injector id = w.injectors[id.index] := by
    rw [World.injector, Array.getElem?_eq_getElem hid]
    rfl
  have hempty := h _ (Array.getElem_mem hid)
  rw [← hinjector] at hempty
  exact ⟨_, (RegistryHistory.start w hid hempty).represents⟩

theorem injectors_perform (w : World ρ σ π) {action : Action ρ σ π} (hnew : action ≠ .newInjector) :
    (action.perform w).2.injectors.size = w.injectors.size := by
  cases hregisters : action.registers with
  | none => exact (SameBindings.perform_of_unregistered hregisters hnew).injectors
  | some registered =>
    obtain ⟨other, call⟩ := registered
    have hrest := (SameHoldings.perform_of_registers (w := w) hregisters).sameBindings
    have hbeside : w.Beside other (w.register other call).2 := .register w call
    exact hrest.injectors.trans hbeside.injectors

theorem Registered.perform (h : w.Registered) (action : Action ρ σ π) :
    (action.perform w).2.Registered := by
  intro id hid
  by_cases hknown : id.index < w.injectors.size
  · obtain ⟨view, slots, hrepresents⟩ := h id hknown
    obtain ⟨view', slots', hafter, _⟩ := hrepresents.perform action
    exact ⟨view', slots', hafter⟩
  by_cases hnew : action = .newInjector
  · -- the new injector has no bindings
    subst hnew
    have hempty : (w.newInjector.2.injector id).bindings = .empty := by
      rw [injector_newInjector, World.injector, Array.getElem?_eq_none_iff.2 (Nat.le_of_not_lt hknown)]
      rfl
    exact ⟨_, (RegistryHistory.start w.newInjector.2 hid hempty).represents⟩
  · rw [injectors_perform w hnew] at hid
    exact absurd hid hknown

namespace Passes

variable {calls : List (Call ρ σ π)}

theorem registered (h : w.Passes calls after) (hw : w.Registered) : after.Registered := by
  induction h with
  | refl => exact hw
  | call _ action ih => exact ih.perform action
  | own _ hsame ih =>
    intro id hid
    obtain ⟨view, slots, hrepresents⟩ := ih id (hsame.injectors ▸ hid)
    exact ⟨view, slots, hrepresents.of_sameBindings hsame.sameBindings⟩

/-- Each key stays bound to what it is bound to, with what the calls give it by
`Registration.after`, as long as none `Binds` it. By induction on the passage, each call by
`Represents.perform`. -/
theorem represents (h : w.Passes calls after) (hw : w.Represents id view slots) :
    ∃ view' slots', after.Represents id view' slots' ∧
      ∀ key r, view key = some r → (∀ call ∈ calls, ¬ call.action.Binds id key) →
        view' key = some (r.after id key calls) := by
  induction h with
  | refl => exact ⟨view, slots, hw, fun key r hr _ => by rw [r.after_nil, hr]⟩
  | call _ action ih =>
    obtain ⟨view', slots', hbefore, hkept⟩ := ih
    obtain ⟨view'', slots'', hafter, hstep⟩ := hbefore.perform action
    refine ⟨view'', slots'', hafter, fun key r hr hbinds => ?_⟩
    have hold := hkept key r hr fun call hcall => hbinds call (List.mem_append_left _ hcall)
    rw [r.after_append]
    exact hstep key _ hold (hbinds _ (List.mem_append_right _ List.mem_cons_self))
  | own _ hsame ih =>
    obtain ⟨view', slots', hbefore, hkept⟩ := ih
    exact ⟨view', slots', hbefore.of_sameBindings hsame.sameBindings, hkept⟩

end Passes

end World

end Wiring
