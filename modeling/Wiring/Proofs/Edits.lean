import Wiring.Code
import Wiring.Proofs.RegistryView
import Wiring.Proofs.RosterFrames

/-!
# What an action changes

Every action but the two on the resolve stack comes down to a few small changes, made one after the
other: an injector or a slot is added, hooks are registered, a binding is stored, or something is
changed that neither injectors nor slots nor the thread know of. `World.Edits` says which changes
these are, and `Edits.perform` that they make up every such action. Whatever survives the small changes
survives all actions, so it takes a look at each operation here and nowhere else.

* **`Action.Rewraps`** — the actions that store the binding of a key anew; all others leave it where
  it is.
* **`Edits.rewrap`** — a registration in a new wrapper is a new slot and a binding, so
  `World.rewrap` is made of `Edits`.
* **`Edits.rosterFrame`** — the calls on lists are made of them too, as a `World.RosterFrame`.
-/

namespace Wiring

variable {ρ σ π : Type}

/-- The action changes the resolve stack, which otherwise only resolutions do. -/
def Action.isByHand : Action ρ σ π → Bool
  | .pushKey _ => true
  | .popKey => true
  | _ => false

/-- The action stores the binding of the key of that injector anew, by `World.rewrap` or
`World.bind`. -/
def Action.Rewraps : Action ρ σ π → InjectorId → Key → Prop
  | .bind i bound _ _, id, key => i = id ∧ bound = key
  | .changeScope i bound _, id, key => i = id ∧ bound = key
  | .decorate i bound _, id, key => i = id ∧ bound = key
  | .shutDown i, id, _ => i = id
  | _, _, _ => False

theorem Injector.get?_of_find {injector : Injector ρ} {key : Key} {binding : Binding ρ}
    (h : injector.find key = .ok (some binding)) : injector.bindings.get? key = some binding := by
  rw [Injector.find] at h
  split at h
  case h_1 => cases h
  case h_2 hget =>
    split at h
    case isTrue =>
      cases h
      exact hget
    case isFalse => cases h

theorem Injector.get?_of_find_none {injector : Injector ρ} {key : Key}
    (h : injector.find key = .ok none) : injector.bindings.get? key = none := by
  rw [Injector.find] at h
  split at h
  case h_1 hget => exact hget
  case h_2 => split at h <;> cases h

namespace World

/-- Bindings are stored under their own keys, those of singletons in a singleton's wrapper, as
`World.wrap` makes it. -/
def Wrapped (w : World ρ σ π) : Prop :=
  ∀ id key binding, (w.injector id).bindings.get? key = some binding → binding.key = key ∧
    (binding.scope = .singleton →
      ∃ slot, binding.effective = .singleton slot key key.type binding.decorated)

/-- What a change of an injector leaves alone, it leaves alone in all injectors, since
`modifyInjector` changes one of them. -/
theorem injector_modifyInjector {α : Type} (w : World ρ σ π) (id : InjectorId)
    {f : Injector ρ → Injector ρ} (read : Injector ρ → α)
    (hf : ∀ injector, read (f injector) = read injector)
    (other : InjectorId) : read ((w.modifyInjector id f).injector other) = read (w.injector other) := by
  by_cases hother : id = other
  · subst hother
    by_cases hid : id.index < w.injectors.size
    · rw [injector_modifyInjector_self w f hid, hf]
    · simp [World.modifyInjector, World.injector, hid]
  · rw [injector_modifyInjector_of_ne w f hother]

/-- A new injector holds what an injector that does not exist yet reads as, by `World.injector`. -/
theorem injector_newInjector (w : World ρ σ π) (id : InjectorId) :
    w.newInjector.2.injector id = w.injector id := by
  simp only [World.newInjector, World.injector, Array.getElem?_push]
  split
  case isTrue hlast => simp [hlast]
  case isFalse => rfl

/-- Small changes lead from `w` to `after`, and bindings are stored in place of others under those
keys alone that are `lost`. The rules of `Edits` are what `Action.perform` is made of. -/
inductive Edits (lost : InjectorId → Key → Prop) : World ρ σ π → World ρ σ π → Prop
  /-- Something of which neither injectors nor slots nor the thread know. -/
  | aside {w after : World ρ σ π} (hinjectors : after.injectors = w.injectors)
      (hslots : after.slots = w.slots) (hthread : after.thread = w.thread)
      (hstack : after.stack = w.stack) : Edits lost w after
  | newInjector (w : World ρ σ π) : Edits lost w w.newInjector.2
  /-- What is changed in an injector is neither a binding nor a wait. -/
  | modifyInjector (w : World ρ σ π) (id : InjectorId) {f : Injector ρ → Injector ρ}
      (hbindings : ∀ injector, (f injector).bindings = injector.bindings)
      (hwaits : ∀ injector, (f injector).waits = injector.waits) :
      Edits lost w (w.modifyInjector id f)
  | newSlot (w : World ρ σ π) : Edits lost w w.newSlot.2
  /-- A binding is stored under its own key, in the wrapper of its scope. -/
  | setBinding {w : World ρ σ π} {id : InjectorId} {key : Key} {binding : Binding ρ}
      (hkey : binding.key = key)
      (hwrap : binding.scope = .singleton →
        ∃ slot, binding.effective = .singleton slot key key.type binding.decorated)
      (hlost : w.Wrapped → lost id key ∨ (w.injector id).bindings.get? key = none) :
      Edits lost w (w.setBinding id key binding)
  | trans {w between after : World ρ σ π} (h : Edits lost w between)
      (h' : Edits lost between after) : Edits lost w after

namespace Edits

variable {lost : InjectorId → Key → Prop} {w between after : World ρ σ π}
variable {id : InjectorId} {key : Key} {binding : Binding ρ}

theorem refl (w : World ρ σ π) : w.Edits lost w :=
  .aside rfl rfl rfl rfl

theorem note (w : World ρ σ π) (event : LogEvent) : w.Edits lost (w.note event) :=
  .aside rfl rfl rfl rfl

theorem raise {α : Type} (w : World ρ σ π) (fault : Fault) :
    w.Edits lost (w.raise fault : Except Fault α × World ρ σ π).2 :=
  note w _

theorem markInstalled (w : World ρ σ π) (id : InjectorId) (module : ModuleId) :
    w.Edits lost (w.markInstalled id module) :=
  .modifyInjector w id (fun _ => rfl) fun _ => rfl

theorem of_snd {α : Type} {p : α × World ρ σ π} {a : α} (h : w.Edits lost p.2)
    (heq : p = (a, after)) : w.Edits lost after := by
  rwa [heq] at h

/-! ### Bindings -/

theorem establish (provider : Provider ρ) (scope : Scope)
    (hlost : lost id key ∨ (w.injector id).bindings.get? key = none) :
    w.Edits lost (w.establish id key provider scope) := by
  cases scope with
  | noScope => exact .setBinding rfl (fun hscope => nomatch hscope) fun _ => hlost
  | singleton => exact (newSlot w).trans (.setBinding rfl (fun _ => ⟨_, rfl⟩) fun _ => hlost)

/-- Where bindings are stored under their own keys, the one that was found under `key` is the one
that is lost by `World.rewrap`. -/
theorem rewrap {found : Binding ρ} (scope : Scope)
    (hget : (w.injector id).bindings.get? key = some found) (hkey : binding.key = found.key)
    (hlost : lost id key) : w.Edits lost (w.rewrap id binding scope) := by
  have hown (h : w.Wrapped) : lost id binding.key := by
    rw [hkey, (h id key found hget).1]
    exact hlost
  cases scope with
  | noScope => exact .setBinding rfl (fun hscope => nomatch hscope) fun h => .inl (hown h)
  | singleton =>
    exact (newSlot w).trans (.setBinding rfl (fun _ => ⟨_, rfl⟩) fun h => .inl (hown h))

theorem bind (w : World ρ σ π) (provider : Provider ρ) (scope : Scope) (hlost : lost id key) :
    w.Edits lost (w.bind id key provider scope) :=
  (establish provider scope (.inl hlost)).trans (note _ _)

theorem changeScope (w : World ρ σ π) (scope : Scope) (hlost : lost id key) :
    w.Edits lost (w.changeScope id key scope).2 := by
  rw [World.changeScope]
  split
  case h_1 => exact raise w _
  case h_2 binding hget => exact (note w _).trans (rewrap scope hget rfl hlost)

theorem decorate (w : World ρ σ π) (stage : Stage ρ) (hlost : lost id key) :
    w.Edits lost (w.decorate id key stage).2 := by
  rw [World.decorate]
  split
  case h_1 => exact raise w _
  case h_2 => exact raise w _
  case h_3 binding hfind =>
    exact (note w _).trans (rewrap _ (Injector.get?_of_find hfind) rfl hlost)

theorem providerOf (w : World ρ σ π) (id : InjectorId) (key : Key) :
    w.Edits lost (w.providerOf id key).2 := by
  rw [World.providerOf]
  split
  case h_1 => exact raise w _
  case h_2 => exact raise w _
  case h_3 => exact refl w

theorem bindingOf (w : World ρ σ π) (id : InjectorId) (key : Key) :
    w.Edits lost (w.bindingOf id key).2 := by
  rw [World.bindingOf]
  split
  case h_1 => exact note w _
  case h_2 => exact refl w

theorem release (w : World ρ σ π) (hlost : lost id key) : w.Edits lost (w.release id key) := by
  rw [World.release]
  split
  case h_1 => exact refl w
  case h_2 binding hget =>
    split
    case isTrue => exact rewrap _ hget rfl hlost
    case isFalse => exact refl w

theorem shutDown (w : World ρ σ π) (hlost : ∀ key, lost id key) :
    w.Edits lost (w.shutDown id) := by
  have hfold (keys : List Key) (w : World ρ σ π) :
      w.Edits lost (keys.foldl (·.release id ·) w) := by
    induction keys generalizing w with
    | nil => exact refl w
    | cons key keys ih => exact (release w (hlost key)).trans (ih _)
  exact (hfold _ w).trans (note _ _)

/-! ### Collections

A collection that `World.openList` or `World.openMap` opens is bound only if its key was not, so no
binding is lost by it. -/

/-- Injectors, slots and the thread know nothing of rosters, so `Edits` is a `RosterFrame`. -/
theorem rosterFrame (lost : InjectorId → Key → Prop) :
    RosterFrame (Edits lost : World ρ σ π → World ρ σ π → Prop) where
  refl := refl
  trans := trans
  note := note
  allocate _ _ := .aside rfl rfl rfl rfl
  setRoster _ _ _ := .aside rfl rfl rfl rfl
  enter _ _ _ := .aside rfl rfl rfl rfl

theorem baseOr (w : World ρ σ π) (id : InjectorId) (key : Key)
    (create : World ρ σ π → Provider ρ × World ρ σ π)
    (hinjectors : ∀ w, (create w).2.injectors = w.injectors)
    (hcreate : ∀ w : World ρ σ π, w.Edits lost (create w).2) :
    w.Edits lost (w.baseOr id key create).2 := by
  rw [World.baseOr]
  split
  case h_1 => exact raise w _
  case h_2 => exact refl w
  case h_3 hfind =>
    show w.Edits lost ((create _).2.establish id key (create _).1 .noScope)
    refine (note w _).trans ((hcreate _).trans (establish _ _ (.inr ?_)))
    rw [World.injector, hinjectors]
    exact Injector.get?_of_find_none hfind

theorem openList (w : World ρ σ π) (id : InjectorId) (list : Key) :
    w.Edits lost (w.openList id list).2 := by
  have hbase : w.Edits lost (w.baseOr id list fun w =>
      (.list (w.newRoster list).1, (w.newRoster list).2)).2 :=
    baseOr w id list _ (fun _ => rfl) fun _ => .aside rfl rfl rfl rfl
  rw [World.openList]
  split
  case h_1 heq => exact hbase.of_snd heq
  case h_2 heq => exact hbase.of_snd heq
  case h_3 heq => exact (hbase.of_snd heq).trans (raise _ _)

theorem openMap (w : World ρ σ π) (id : InjectorId) (map : Key) :
    w.Edits lost (w.openMap id map).2 := by
  have hbase : w.Edits lost (w.baseOr id map fun w =>
      (.map (w.newCatalog map).1, (w.newCatalog map).2)).2 :=
    baseOr w id map _ (fun _ => rfl) fun _ => .aside rfl rfl rfl rfl
  rw [World.openMap]
  split
  case h_1 heq => exact hbase.of_snd heq
  case h_2 heq => exact hbase.of_snd heq
  case h_3 heq => exact (hbase.of_snd heq).trans (raise _ _)

theorem contributeNamed (w : World ρ σ π) (id : InjectorId) (map : Key) (name : String)
    (provider : Provider ρ) : w.Edits lost (w.contributeNamed id map name provider).2 := by
  rw [World.contributeNamed]
  split
  case h_1 heq => exact (openMap w id map).of_snd heq
  case h_2 heq => exact ((openMap w id map).of_snd heq).trans (.aside rfl rfl rfl rfl)

/-- An action is made of small changes, unless it is one on the resolve stack, and stores bindings
in place of others under those keys alone that it rewraps, by `Action.Rewraps`. -/
theorem perform {action : Action ρ σ π} (h : action.isByHand = false) (w : World ρ σ π) :
    w.Edits action.Rewraps (action.perform w).2 := by
  match action with
  | .pushKey _ => cases h
  | .popKey => cases h
  | .bind id key provider scope => exact bind w provider scope ⟨rfl, rfl⟩
  | .changeScope id key scope => exact changeScope w scope ⟨rfl, rfl⟩
  | .decorate id key stage => exact decorate w stage ⟨rfl, rfl⟩
  | .shutDown id => exact shutDown w fun _ => rfl
  -- these look only
  | .read _ => exact refl w
  | .recall => exact refl w
  | .inspect _ => exact refl w
  | .slot _ => exact refl w
  | .roster _ => exact refl w
  | .catalog _ => exact refl w
  | .depth => exact refl w
  | .binding id key => exact bindingOf w id key
  | .provider id key => exact providerOf w id key
  | .orderedKeys roster => exact (rosterFrame _).ordered w roster
  -- these change something aside
  | .allocate _ => exact .aside rfl rfl rfl rfl
  | .write _ _ => exact .aside rfl rfl rfl rfl
  | .remember _ => exact .aside rfl rfl rfl rfl
  | .report _ => exact .aside rfl rfl rfl rfl
  | .newRoster _ => exact .aside rfl rfl rfl rfl
  | .newCatalog _ => exact .aside rfl rfl rfl rfl
  | .putEntry _ _ _ => exact .aside rfl rfl rfl rfl
  | .enrol roster entry provider => exact (rosterFrame _).enrol w roster entry provider
  | .place roster entry side other => exact (rosterFrame _).place w roster entry side other
  -- these add an injector, hooks or a slot
  | .newInjector => exact newInjector w
  | .addHook id _ _ => exact modifyInjector w id (fun _ => rfl) fun _ => rfl
  | .newSlot => exact newSlot w
  -- these find a collection by its key, which is bound to an empty one if it has no binding
  | .openList id list => exact openList w id list
  | .openMap id map => exact openMap w id map
  | .contribute id list _ _ | .contributeObject id list _ | .contributeAll id list _
  | .arrange id list _ _ _ | .listOrder id list =>
    exact (openList w id list).trans ((rosterFrame _).perform rfl w)
  | .contributeNamed id map name provider => exact contributeNamed w id map name provider

end Edits

end World

end Wiring
