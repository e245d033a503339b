import Mathlib.Data.List.Induction
import Wiring.Proofs.RegistryView

/-!
# Histories of a registry

The registry of an injector is changed by binding keys, by changing scopes, decorating and shutting
down, and by builders, which bind a key that is not bound yet. `RegistryCall.after` says what each
call makes of the registry as a map, and `RegistryCall.Effect` what else there is to know: which
keys get a new wrapper (`RegistryCall.Renews`), that all others keep theirs with the value in it,
and that a call that fails changes nothing. Both hold of every call after every history
(`registry_refines_map`), whatever happens in between that leaves the bindings alone.

* **`RegistryCall.effect`** — the one lemma per call; `Effect.of_stores` and `Effect.of_unchanged`
  are the two ways in which a call ends, with a binding stored or without.
* **`RegistryCall.Released`** — a shutdown, key by key: `Released.snoc` adds one more.
* **`World.RegistryHistory`** — calls with anything in between that leaves the bindings alone;
  `World.registerAll` are calls with nothing in between.
-/

namespace Wiring

variable {ρ σ π : Type}

/-- A call on the registry of an injector. -/
inductive RegistryCall (ρ π : Type) where
  | bindProvider (key : Key) (provider : Provider ρ) (scope : Scope)
  | bindInstance (key : Key) (content : Content π)
  | bindShared (key : Key) (object : Ref)
  | bindFactory (key : Key) (scope : Scope) (routine : ρ)
  | changeScope (key : Key) (scope : Scope)
  | decorate (key : Key) (stage : Stage ρ)
  | shutDown
  | listBuilder (list : Key)
  | mapBuilder (map : Key)

/-- Carries out a call on the registry of the injector at `id`, with the operation of the world that
it is named for. -/
def World.register (w : World ρ σ π) (id : InjectorId) :
    RegistryCall ρ π → Except Fault Unit × World ρ σ π
  | .bindProvider key provider scope => (.ok (), w.bind id key provider scope)
  | .bindInstance key content =>
    let (object, w) := w.allocate content
    (.ok (), w.bind id key (.fixed object) .noScope)
  | .bindShared key object => (.ok (), w.bind id key (.fixed object) .noScope)
  | .bindFactory key scope routine => (.ok (), w.bind id key (.completed key.type routine) scope)
  | .changeScope key scope => w.changeScope id key scope
  | .decorate key stage => w.decorate id key stage
  | .shutDown => (.ok (), w.shutDown id)
  | .listBuilder list =>
    let (roster, w) := w.openList id list
    (roster.map fun _ => (), w)
  | .mapBuilder map =>
    let (catalog, w) := w.openMap id map
    (catalog.map fun _ => (), w)

namespace RegistryCall

/-! ### What a call is to do -/

/-- The registry as a map after a call that is made in `w`, told without any wrapper. The world
tells only which object, roster or catalog is new. -/
def after (w : World ρ σ π) (view : RegistryView ρ) : RegistryCall ρ π → RegistryView ρ
  | .bindProvider key provider scope => Function.update view key (some ⟨provider, [], scope⟩)
  | .bindInstance key _ =>
    Function.update view key (some ⟨.fixed ⟨w.objects.size⟩, [], .noScope⟩)
  | .bindShared key object => Function.update view key (some ⟨.fixed object, [], .noScope⟩)
  | .bindFactory key scope routine =>
    Function.update view key (some ⟨.completed key.type routine, [], scope⟩)
  | .changeScope key scope => Function.update view key ((view key).map ({ · with scope }))
  | .decorate key stage =>
    Function.update view key ((view key).map fun r => { r with stages := r.stages ++ [stage] })
  | .shutDown => view
  | .listBuilder list =>
    Function.update view list (some ((view list).getD ⟨.list ⟨w.rosters.size⟩, [], .noScope⟩))
  | .mapBuilder map =>
    Function.update view map (some ((view map).getD ⟨.map ⟨w.catalogs.size⟩, [], .noScope⟩))

/-- How a call ends: a change needs a binding to change, and a builder a collection of its sort. -/
def outcome (view : RegistryView ρ) : RegistryCall ρ π → Except Fault Unit
  | .changeScope key _ => if view key = none then .error (.bindingNotFound key) else .ok ()
  | .decorate key _ => if view key = none then .error (.bindingNotFound key) else .ok ()
  | .listBuilder list =>
    match view list with
    | none | some ⟨.list _, _, _⟩ => .ok ()
    | some _ => .error (.typeMismatch list "ListProvider")
  | .mapBuilder map =>
    match view map with
    | none | some ⟨.map _, _, _⟩ => .ok ()
    | some _ => .error (.typeMismatch map "MapProvider")
  | _ => .ok ()

/-- The call gives `key` a new wrapper, so that a value which the old one kept is let go. -/
def Renews (view : RegistryView ρ) (key : Key) : RegistryCall ρ π → Prop
  | .bindProvider own _ _ => key = own
  | .bindInstance own _ => key = own
  | .bindShared own _ => key = own
  | .bindFactory own _ _ => key = own
  | .changeScope own _ => key = own ∧ view own ≠ none
  | .decorate own _ => key = own ∧ view own ≠ none
  | .shutDown => ∃ r, view key = some r ∧ r.scope = .singleton
  | .listBuilder list => key = list ∧ view list = none
  | .mapBuilder map => key = map ∧ view map = none

/-- What a call makes anew holds what it is to hold: an instance its value, a list or map no
entries. -/
def Made (w w' : World ρ σ π) (view : RegistryView ρ) : RegistryCall ρ π → Prop
  | .bindInstance _ content => w'.content? ⟨w.objects.size⟩ = some content
  | .listBuilder list => view list = none → w'.roster ⟨w.rosters.size⟩ = { list }
  | .mapBuilder map => view map = none → w'.catalog ⟨w.catalogs.size⟩ = { map }
  | _ => True

/-- What a call in `w` comes to, given what the keys are registered to by `view`: the outcome, the
map afterwards, the wrappers and the values in them. -/
structure Effect (w : World ρ σ π) (id : InjectorId) (view : RegistryView ρ)
    (call : RegistryCall ρ π) (reply : Except Fault Unit) (w' : World ρ σ π) : Prop where
  ends : reply = call.outcome view
  represents : ∃ slots, w'.Represents id (call.after w view) slots
  /-- A binding without a new wrapper is the same binding, with the slot that it had. -/
  kept : ∀ key, ¬ call.Renews view key →
    (w'.injector id).bindings.get? key = (w.injector id).bindings.get? key
  /-- A new wrapper that keeps a value has an empty slot that did not exist before. -/
  renewed : ∀ key, call.Renews view key → ∀ r, call.after w view key = some r →
    r.scope = .singleton → ∃ slot, w.slots.size ≤ slot.index ∧ w'.slot slot = .empty ∧
      (w'.injector id).bindings.get? key = some (r.binding key slot)
  /-- No slot that existed before gains or loses a value. -/
  values : ∀ slot, w'.slot slot = w.slot slot
  /-- A call that fails changes nothing, but for the line in the log. -/
  failed : ∀ fault, reply = .error fault → w' = w.note (.fault fault)
  made : call.Made w w' view

/-! ### The two ways a call can go -/

variable {w w' : World ρ σ π} {id : InjectorId} {view : RegistryView ρ} {slots : Key → SlotId}
variable {call : RegistryCall ρ π} {reply : Except Fault Unit} {key : Key} {r : Registration ρ}

/-- A call that stores one registration, under the one key that it `Renews`: the effect is read off
`Represents.store`. -/
theorem Effect.of_stores (h : w.Represents id view slots) (hs : w.Stores w' id key r)
    (hafter : call.after w view = Function.update view key (some r))
    (hrenews : ∀ other, call.Renews view other ↔ other = key)
    (hends : call.outcome view = .ok ()) (hmade : call.Made w w' view) :
    call.Effect w id view (.ok ()) w' where
  ends := hends.symm
  represents := by
    rw [hafter]
    exact ⟨_, h.store hs⟩
  kept other hother := by
    -- a key that is not renewed is not the one that is stored
    have hne : ¬ key = other := fun e => hother ((hrenews other).2 e.symm)
    rw [hs.bindings, Table.get?_insert_of_ne _ _ hne]
  renewed other hother s hview hscope := by
    have hkey : other = key := (hrenews other).1 hother
    rw [hafter, hkey, Function.update_self] at hview
    cases hview
    refine ⟨⟨w.slots.size⟩, Nat.le_refl _, ?_, ?_⟩
    · rw [hs.slot_eq]
      exact w.slot_of_size_le (Nat.le_refl _)
    · rw [hs.bindings, hkey, Table.get?_insert_self]
  values := hs.slot_eq
  failed fault hfault := nomatch hfault
  made := hmade

/-- A call that stores nothing, since there is nothing to change or the key is bound already. -/
theorem Effect.of_unchanged (h : w.Represents id view slots)
    (hinjectors : w'.injectors = w.injectors) (hslots : w'.slots = w.slots)
    (hafter : call.after w view = view) (hrenews : ∀ key, ¬ call.Renews view key)
    (hends : reply = call.outcome view)
    (hfailed : ∀ fault, reply = .error fault → w' = w.note (.fault fault))
    (hmade : call.Made w w' view) :
    call.Effect w id view reply w' := by
  have hinjector : w'.injector id = w.injector id := by
    rw [World.injector, hinjectors]
    rfl
  refine ⟨hends, ?represents, ?kept, ?renewed, ?values, hfailed, hmade⟩
  case represents =>
    rw [hafter]
    refine ⟨slots, h.of_bindings_eq ?_ ?_ ?_⟩
    · rw [hinjectors]
      exact h.known
    · rw [hinjector]
    · exact Nat.le_of_eq (congrArg Array.size hslots).symm
  case kept =>
    intro key _
    rw [hinjector]
  case renewed =>
    intro key hkey
    exact absurd hkey (hrenews key)
  case values =>
    intro slot
    rw [World.slot, hslots]
    rfl

/-! ### Calls on one key -/

theorem effect_bind (h : w.Represents id view slots) (key : Key) (provider : Provider ρ)
    (scope : Scope) :
    (bindProvider key provider scope).Effect w id view (.ok ())
      (w.bind id key provider scope) := by
  have hs := World.stores_establish h.known key provider scope
  exact .of_stores h ⟨hs.injectors, hs.bindings, hs.slots⟩ rfl (fun _ => Iff.rfl) rfl trivial

theorem effect_bindInstance (h : w.Represents id view slots) (key : Key) (content : Content π) :
    (bindInstance key content).Effect w id view (.ok ())
      ((w.allocate content).2.bind id key (.fixed (w.allocate content).1) .noScope) := by
  have hs := World.stores_establish (w := (w.allocate content).2) h.known key
    (.fixed (w.allocate content).1) .noScope
  refine .of_stores h ⟨hs.injectors, hs.bindings, hs.slots⟩ rfl (fun _ => Iff.rfl) rfl ?_
  show (w.objects.push content)[w.objects.size]? = some content
  exact Array.getElem?_push_size

/-- A change of a key that is not bound does nothing but fail with `bindingNotFound`. -/
theorem Effect.of_missing {f : Registration ρ → Registration ρ} (h : w.Represents id view slots)
    (hview : view key = none)
    (hafter : call.after w view = Function.update view key ((view key).map f))
    (hrenews : ∀ other, call.Renews view other → view key ≠ none)
    (hends : call.outcome view =
      if view key = none then .error (.bindingNotFound key) else .ok ())
    (hmade : call.Made w (w.note (.fault (.bindingNotFound key))) view) :
    call.Effect w id view (.error (.bindingNotFound key))
      (w.note (.fault (.bindingNotFound key))) := by
  refine .of_unchanged h rfl rfl ?_ ?_ ?_ ?_ hmade
  · rw [hafter, hview, Option.map_none, ← hview, Function.update_eq_self]
  · intro other hother
    exact hrenews other hother hview
  · rw [hends, if_pos hview]
  · intro fault hfault
    cases hfault
    rfl

/-- A change of a key that is bound stores what the change makes of its registration, by
`of_stores`. -/
theorem Effect.of_changed {f : Registration ρ → Registration ρ} (h : w.Represents id view slots)
    (hview : view key = some r)
    (hafter : call.after w view = Function.update view key ((view key).map f))
    (hs : w.Stores w' id key (f r))
    (hrenews : ∀ other, call.Renews view other ↔ other = key ∧ view key ≠ none)
    (hends : call.outcome view =
      if view key = none then .error (.bindingNotFound key) else .ok ())
    (hmade : call.Made w w' view) :
    call.Effect w id view (.ok ()) w' := by
  have hne : view key ≠ none := by simp [hview]
  refine .of_stores h hs ?_ ?_ ?_ hmade
  · rw [hafter, hview]
    rfl
  · intro other
    rw [hrenews, and_iff_left hne]
  · rw [hends, if_neg hne]

theorem effect_changeScope (h : w.Represents id view slots) (key : Key) (scope : Scope) :
    (changeScope key scope).Effect w id view (w.changeScope id key scope).1
      (w.changeScope id key scope).2 := by
  rw [World.changeScope]
  cases hview : view key with
  | none =>
    rw [h.get?_eq_none hview]
    exact .of_missing h hview rfl (fun _ hother => hother.2) rfl trivial
  | some r =>
    rw [h.get?_eq_some hview]
    have hs := World.stores_rewrap (w := w.note (.changingScope key r.scope scope)) h.known key
      { r with scope } (r.binding key (slots key)).effective r.scope
    exact .of_changed h hview rfl ⟨hs.injectors, hs.bindings, hs.slots⟩ (fun _ => Iff.rfl) rfl trivial

theorem effect_decorate (h : w.Represents id view slots) (key : Key) (stage : Stage ρ) :
    (decorate key stage).Effect w id view (w.decorate id key stage).1
      (w.decorate id key stage).2 := by
  rw [World.decorate, h.find key]
  cases hview : view key with
  | none => exact .of_missing h hview rfl (fun _ hother => hother.2) rfl trivial
  | some r =>
    have hs := World.stores_rewrap (w := w.note (.decorating key)) h.known key
      { r with stages := r.stages ++ [stage] } (r.binding key (slots key)).effective r.scope
    rw [Registration.provider_decorate] at hs
    exact .of_changed h hview rfl ⟨hs.injectors, hs.bindings, hs.slots⟩ (fun _ => Iff.rfl) rfl trivial

/-! ### Builders -/

/-- A builder of a key that is not bound binds it to a new collection, by `of_stores`. -/
theorem Effect.of_unbound {fresh : Provider ρ} (h : w.Represents id view slots)
    (hview : view key = none) (hs : w.Stores w' id key ⟨fresh, [], .noScope⟩)
    (hafter : call.after w view =
      Function.update view key (some ((view key).getD ⟨fresh, [], .noScope⟩)))
    (hrenews : ∀ other, call.Renews view other ↔ other = key ∧ view key = none)
    (hends : call.outcome view = .ok ()) (hmade : call.Made w w' view) :
    call.Effect w id view (.ok ()) w' := by
  refine .of_stores h hs ?_ ?_ hends hmade
  · rw [hafter, hview]
    rfl
  · intro other
    rw [hrenews other]
    exact ⟨fun hother => hother.1, fun hother => ⟨hother, hview⟩⟩

/-- A builder of a key that is bound already leaves it as it is, whatever it is bound to, by
`of_unchanged`. -/
theorem Effect.of_bound {other : Registration ρ} (h : w.Represents id view slots)
    (hview : view key = some r)
    (hafter : call.after w view = Function.update view key (some ((view key).getD other)))
    (hrenews : ∀ k, call.Renews view k → view key = none)
    (hmade : view key ≠ none → call.Made w w' view)
    (hinjectors : w'.injectors = w.injectors) (hslots : w'.slots = w.slots)
    (hends : reply = call.outcome view)
    (hfailed : ∀ fault, reply = .error fault → w' = w.note (.fault fault)) :
    call.Effect w id view reply w' := by
  have hne : view key ≠ none := by simp [hview]
  refine .of_unchanged h hinjectors hslots ?_ ?_ hends hfailed (hmade hne)
  · rw [hafter, hview, Option.getD_some, ← hview, Function.update_eq_self]
  · intro k hk
    exact hne (hrenews k hk)

theorem effect_listBuilder (h : w.Represents id view slots) (list : Key) :
    (listBuilder list).Effect w id view ((w.openList id list).1.map fun _ => ())
      (w.openList id list).2 := by
  rw [World.openList, World.baseOr, h.find list]
  cases hview : view list with
  | none =>
    have hs := World.stores_establish (w := ((w.note (.creatingCollection list)).newRoster list).2)
      h.known list (.list ⟨w.rosters.size⟩) .noScope
    refine .of_unbound h hview ⟨hs.injectors, hs.bindings, hs.slots⟩ rfl (fun _ => Iff.rfl) ?_ ?_
    · rw [outcome, hview]
    · intro _
      show ((w.rosters.push { list })[w.rosters.size]?).getD { list := default } = { list }
      rw [Array.getElem?_push_size]
      rfl
  | some r =>
    obtain ⟨base, stages, scope⟩ := r
    cases base with
    | list roster =>
      refine .of_bound h hview rfl (fun _ hk => hk.2) (fun hne hnone => absurd hnone hne) rfl rfl
        ?_ ?_
      · rw [outcome, hview]
        rfl
      · intro fault hfault
        cases hfault
    | _ =>
      refine .of_bound h hview rfl (fun _ hk => hk.2) (fun hne hnone => absurd hnone hne) rfl rfl
        ?_ ?_
      · rw [outcome, hview]
        rfl
      · intro fault hfault
        cases hfault
        rfl

theorem effect_mapBuilder (h : w.Represents id view slots) (map : Key) :
    (mapBuilder map).Effect w id view ((w.openMap id map).1.map fun _ => ())
      (w.openMap id map).2 := by
  rw [World.openMap, World.baseOr, h.find map]
  cases hview : view map with
  | none =>
    have hs := World.stores_establish (w := ((w.note (.creatingCollection map)).newCatalog map).2)
      h.known map (.map ⟨w.catalogs.size⟩) .noScope
    refine .of_unbound h hview ⟨hs.injectors, hs.bindings, hs.slots⟩ rfl (fun _ => Iff.rfl) ?_ ?_
    · rw [outcome, hview]
    · intro _
      show ((w.catalogs.push { map })[w.catalogs.size]?).getD { map := default } = { map }
      rw [Array.getElem?_push_size]
      rfl
  | some r =>
    obtain ⟨base, stages, scope⟩ := r
    cases base with
    | map catalog =>
      refine .of_bound h hview rfl (fun _ hk => hk.2) (fun hne hnone => absurd hnone hne) rfl rfl
        ?_ ?_
      · rw [outcome, hview]
        rfl
      · intro fault hfault
        cases hfault
    | _ =>
      refine .of_bound h hview rfl (fun _ hk => hk.2) (fun hne hnone => absurd hnone hne) rfl rfl
        ?_ ?_
      · rw [outcome, hview]
        rfl
      · intro fault hfault
        cases hfault
        rfl

/-! ### Shutting down -/

/-- What releasing the keys of a list comes to: the bound singletons among them have new slots,
which are empty, and the other keys have their old ones. -/
structure Released (w w' : World ρ σ π) (id : InjectorId) (view : RegistryView ρ)
    (slots slots' : Key → SlotId) (keys : List Key) : Prop where
  represents : w'.Represents id view slots'
  size_le : w.slots.size ≤ w'.slots.size
  slot_eq : ∀ slot, w'.slot slot = w.slot slot
  fresh : ∀ key ∈ keys, ∀ r, view key = some r → r.scope = .singleton →
    w.slots.size ≤ (slots' key).index
  kept : ∀ key, (∀ r, view key = some r → r.scope ≠ .singleton) → slots' key = slots key

theorem released_nil (h : w.Represents id view slots) : Released w w id view slots slots [] where
  represents := h
  size_le := Nat.le_refl _
  slot_eq _ := rfl
  fresh _ hkey := nomatch hkey
  kept _ _ := rfl

theorem stores_release (h : w.Represents id view slots) (hview : view key = some r)
    (hscope : r.scope = .singleton) : w.Stores (w.release id key) id key r := by
  have hsingle : (r.binding key (slots key)).scope.isSingleton = true := by
    show r.scope.isSingleton = true
    rw [hscope]
    rfl
  rw [World.release, h.get?_eq_some hview]
  simp only [hsingle, if_true]
  exact World.stores_rewrap h.known key r _ r.scope

theorem release_of_plain (h : w.Represents id view slots)
    (hplain : ∀ r, view key = some r → r.scope ≠ .singleton) : w.release id key = w := by
  rw [World.release]
  cases hview : view key with
  | none => rw [h.get?_eq_none hview]
  | some r =>
    rw [h.get?_eq_some hview]
    show (if r.scope.isSingleton then _ else w) = w
    cases hscope : r.scope with
    | noScope => rfl
    | singleton => exact absurd hscope (hplain r hview)

/-- One more key is released, which is stored anew by `World.release` if it is a singleton. -/
theorem Released.snoc {keys : List Key} {slots' : Key → SlotId}
    (h : Released w w' id view slots slots' keys) (key : Key) :
    ∃ slots'', Released w (w'.release id key) id view slots slots'' (keys ++ [key]) := by
  by_cases hkey : ∃ r, view key = some r ∧ r.scope = .singleton
  · obtain ⟨r, hview, hscope⟩ := hkey
    have hs := stores_release h.represents hview hscope
    refine ⟨Function.update slots' key ⟨w'.slots.size⟩, ?represents, ?size, ?slot, ?fresh, ?kept⟩
    case represents =>
      -- the same registration is stored again, so the map stays as it is
      have hrep := h.represents.store hs
      rwa [← hview, Function.update_eq_self] at hrep
    case size => exact Nat.le_trans h.size_le hs.size_le
    case slot =>
      intro slot
      rw [hs.slot_eq, h.slot_eq]
    case fresh =>
      intro other hother s hs' hscope'
      by_cases ho : other = key
      · rw [ho, Function.update_self]
        exact h.size_le
      · rw [Function.update_of_ne ho]
        refine h.fresh other ?_ s hs' hscope'
        simpa [ho] using hother
    case kept =>
      intro other hother
      have ho : other ≠ key := by
        rintro rfl
        exact hother r hview hscope
      rw [Function.update_of_ne ho]
      exact h.kept other hother
  · have hplain : ∀ r, view key = some r → r.scope ≠ .singleton :=
      fun r hview hscope => hkey ⟨r, hview, hscope⟩
    rw [release_of_plain h.represents hplain]
    refine ⟨slots', h.represents, h.size_le, h.slot_eq, ?_, h.kept⟩
    intro other hother s hs hscope
    rcases List.mem_append.1 hother with hmem | hlast
    · exact h.fresh other hmem s hs hscope
    · rw [List.mem_singleton.1 hlast] at hs
      exact absurd ⟨s, hs, hscope⟩ hkey

theorem released_foldl (h : w.Represents id view slots) (keys : List Key) :
    ∃ slots', Released w (keys.foldl (·.release id ·) w) id view slots slots' keys := by
  induction keys using List.reverseRecOn with
  | nil => exact ⟨slots, released_nil h⟩
  | append_singleton keys key ih =>
    obtain ⟨slots', ih⟩ := ih
    rw [List.foldl_append]
    exact ih.snoc key

theorem effect_shutDown (h : w.Represents id view slots) :
    (shutDown : RegistryCall ρ π).Effect w id view (.ok ()) (w.shutDown id) := by
  obtain ⟨slots', hr⟩ := released_foldl h (w.injector id).bindings.keys
  have hget (key : Key) : ((w.shutDown id).injector id).bindings.get? key =
      (view key).map (·.binding key (slots' key)) := hr.represents.bindings key
  refine ⟨rfl, ⟨slots', ?_⟩, ?_, ?_, hr.slot_eq, fun _ h => (nomatch h), trivial⟩
  · exact ⟨hr.represents.known, hget, hr.represents.allotted, hr.represents.own⟩
  · intro key hkey
    have hplain : ∀ r, view key = some r → r.scope ≠ .singleton :=
      fun r hview hscope => hkey ⟨r, hview, hscope⟩
    rw [hget key, h.bindings key, hr.kept key hplain]
  · intro key _ r hview hscope
    have hmem := h.mem_keys hview
    refine ⟨slots' key, hr.fresh key hmem r hview hscope, ?_, ?_⟩
    · rw [show (w.shutDown id).slot (slots' key) = w.slot (slots' key) from hr.slot_eq _]
      exact w.slot_of_size_le (hr.fresh key hmem r hview hscope)
    · rw [hget key, show view key = some r from hview]
      rfl

/-- Each call does what it is to do, whichever key it is on: one of `of_stores`, `of_unchanged`,
`of_missing`, `of_changed`, `of_unbound` and `of_bound` for each. -/
theorem effect (h : w.Represents id view slots) (call : RegistryCall ρ π) :
    call.Effect w id view (w.register id call).1 (w.register id call).2 := by
  cases call with
  | bindProvider key provider scope => exact effect_bind h key provider scope
  | bindInstance key content => exact effect_bindInstance h key content
  | bindShared key object =>
    have he := effect_bind h key (.fixed object) .noScope
    exact ⟨he.ends, he.represents, he.kept, he.renewed, he.values, he.failed, trivial⟩
  | bindFactory key scope routine =>
    have he := effect_bind h key (.completed key.type routine) scope
    exact ⟨he.ends, he.represents, he.kept, he.renewed, he.values, he.failed, trivial⟩
  | changeScope key scope => exact effect_changeScope h key scope
  | decorate key stage => exact effect_decorate h key stage
  | shutDown => exact effect_shutDown h
  | listBuilder list => exact effect_listBuilder h list
  | mapBuilder map => exact effect_mapBuilder h map

end RegistryCall

/-! ### Histories -/

namespace World

/-- The injector at `id` has come to `w` from an empty registry by calls on it, which make `view` of
the registry as a map by `RegistryCall.after`, and by whatever else leaves its bindings alone. -/
inductive RegistryHistory (id : InjectorId) : World ρ σ π → RegistryView ρ → Prop
  | start (w : World ρ σ π) (hid : id.index < w.injectors.size)
      (hempty : (w.injector id).bindings = .empty) : RegistryHistory id w fun _ => none
  | call {w : World ρ σ π} {view : RegistryView ρ} (h : RegistryHistory id w view)
      (call : RegistryCall ρ π) : RegistryHistory id (w.register id call).2 (call.after w view)
  | meanwhile {w w' : World ρ σ π} {view : RegistryView ρ} (h : RegistryHistory id w view)
      (hid : id.index < w'.injectors.size)
      (hbindings : (w'.injector id).bindings = (w.injector id).bindings)
      (hslots : w.slots.size ≤ w'.slots.size) : RegistryHistory id w' view

variable {w : World ρ σ π} {id : InjectorId} {view : RegistryView ρ}

theorem RegistryHistory.represents (h : RegistryHistory id w view) :
    ∃ slots, w.Represents id view slots := by
  induction h with
  | start w hid hempty =>
    refine ⟨fun _ => default, hid, ?_, ?_, ?_⟩
    · intro key
      rw [hempty]
      rfl
    · intro _ _ hview
      cases hview
    · intro _ _ _ _ hview
      cases hview
  | call h call ih =>
    obtain ⟨slots, ih⟩ := ih
    exact (RegistryCall.effect ih call).represents
  | meanwhile h hid hbindings hslots ih =>
    obtain ⟨slots, ih⟩ := ih
    exact ⟨slots, ih.of_bindings_eq hid hbindings hslots⟩

/-- Carries out calls one after the other, on the registry by `register` and on the map by
`RegistryCall.after`. -/
def registerAll (id : InjectorId) (calls : List (RegistryCall ρ π))
    (start : World ρ σ π × RegistryView ρ) : World ρ σ π × RegistryView ρ :=
  calls.foldl (fun (w, view) call => ((w.register id call).2, call.after w view)) start

theorem RegistryHistory.registerAll (h : RegistryHistory id w view)
    (calls : List (RegistryCall ρ π)) :
    RegistryHistory id (World.registerAll id calls (w, view)).1
      (World.registerAll id calls (w, view)).2 := by
  induction calls generalizing w view with
  | nil => exact h
  | cons call rest ih => exact ih (h.call call)

/-- In every state of a history the bindings are those that the registry as a map determines, and
every call does to the map and to the wrappers what it is to do, by `RegistryCall.Effect`. -/
theorem registry_refines_map (h : RegistryHistory id w view) :
    ∃ slots, w.Represents id view slots ∧
      ∀ call : RegistryCall ρ π,
        call.Effect w id view (w.register id call).1 (w.register id call).2 := by
  obtain ⟨slots, hrep⟩ := h.represents
  exact ⟨slots, hrep, fun call => RegistryCall.effect hrep call⟩

/-- A singleton that is decorated, has its scope changed and changed back, and a list beside it. -/
def wrapperCalls : List (RegistryCall Unit Unit) :=
  let single : Key := ⟨.plain "Counter", none⟩
  let names : Key := ⟨.list (.plain "Name"), none⟩
  [.bindFactory single .singleton (), .decorate single (.routine ()), .changeScope single .noScope,
    .listBuilder names, .changeScope single .singleton,
    .decorate single (.memberInjection (.plain "Counter")), .decorate names (.routine ()),
    .listBuilder names, .shutDown]

/-- The state after `wrapperCalls`, which start with an empty registry. -/
def wrapperHistory : World Unit Unit Unit × RegistryView Unit :=
  registerAll ⟨0⟩ wrapperCalls ({ injectors := #[{}], memory := () }, fun _ => none)

theorem registry_refines_map_of_wrapperHistory :
    RegistryHistory ⟨0⟩ wrapperHistory.1 wrapperHistory.2 ∧
      ∃ slots, wrapperHistory.1.Represents ⟨0⟩ wrapperHistory.2 slots ∧
        ∀ call : RegistryCall Unit Unit, call.Effect wrapperHistory.1 ⟨0⟩ wrapperHistory.2
          (wrapperHistory.1.register ⟨0⟩ call).1 (wrapperHistory.1.register ⟨0⟩ call).2 := by
  have hstart : RegistryHistory ⟨0⟩ ({ injectors := #[{}], memory := () } : World Unit Unit Unit)
      fun _ => none := .start _ Nat.zero_lt_one rfl
  have h := hstart.registerAll wrapperCalls
  exact ⟨h, registry_refines_map h⟩

end World

end Wiring
