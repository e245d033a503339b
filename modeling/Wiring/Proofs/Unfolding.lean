import Wiring.Proofs.Alongside
import Wiring.Proofs.MemberHooks
import Wiring.Proofs.Rewrapping

/-!
# How worlds unfold

The calls of a run tell what becomes of bindings and collections, whatever the container does on its
own account in between. It does so with slots: a value is kept there, or is not kept after all.
`World.Unfolds` is an account that tells of the values that are kept, too, and otherwise has the
container do only what registers no hook and keeps no value (`World.Quiet`). So what it tells
settles which hooks there are for each type (`World.Unfolds.hooksOf`), and what slots can hold
(`World.Unfolds.kept`).

* **`World.Event`** — a call, or a value that is kept; `Event.calls` forgets the values.
* **`Unfolds.passes`** — so such an account is one of the calls too.
* **`World.Quiet`** — what the container does without a word: no hook is registered and no value is
  kept.
-/

namespace Wiring

variable {ρ σ π : Type}

namespace World

/-- A slot that there is holds what it is set to, and the others are empty, as `World.slot` reads
them. -/
theorem slot_setSlot (w : World ρ σ π) (slot : SlotId) (kept : Slot) :
    (w.setSlot slot kept).slot slot = kept ∨ (w.setSlot slot kept).slot slot = .empty := by
  by_cases hroom : slot.index < w.slots.size
  · exact .inl (w.slot_setSlot_self kept hroom)
  · have hsize : (w.setSlot slot kept).slots.size = w.slots.size := Array.size_setIfInBounds
    exact .inr (slot_of_size_le _ (hsize ▸ Nat.le_of_not_lt hroom))

/-- A slot that holds a value after another was set held it before, or was set to it. -/
theorem filled_of_setSlot {w : World ρ σ π} {slot other : SlotId} {kept : Slot} {object : Ref}
    (h : (w.setSlot slot kept).slot other = .filled object) :
    kept = .filled object ∧ other = slot ∨ w.slot other = .filled object := by
  by_cases hother : slot = other
  · subst hother
    rcases w.slot_setSlot slot kept with hself | hempty
    · exact .inl ⟨hself.symm.trans h, rfl⟩
    · cases hempty.symm.trans h
  · exact .inr ((w.slot_setSlot_of_ne kept hother).symm.trans h)

/-! ### What keeps no value -/

/-- The injectors, the slots, the threads and the log are those of another world. -/
def withOwnOf (after w : World ρ σ π) : World ρ σ π :=
  { after with
    injectors := w.injectors, slots := w.slots, thread := w.thread, threads := w.threads, stack := w.stack,
    log := w.log }

/-- The container does something on its own account that registers no hook and keeps no value. -/
structure Quiet (w after : World ρ σ π) : Prop where
  stock : w.SameStock after
  hooks : w.SameHooks after
  kept : ∀ slot object, after.slot slot = .filled object → w.slot slot = .filled object
  /-- Objects, collections and the memory of the host are not the container's own. -/
  rest : after.withOwnOf w = w

variable {w v after : World ρ σ π}

namespace Quiet

theorem of_eq (hinjectors : after.injectors = w.injectors) (hslots : after.slots = w.slots)
    (hrest : after.withOwnOf w = w) : w.Quiet after where
  stock := .of_eq hinjectors (Nat.le_of_eq (congrArg Array.size hslots).symm)
    (congrArg World.rosters hrest :) (congrArg World.catalogs hrest :) (congrArg World.entered hrest :)
  hooks := .of_eq hinjectors
  kept slot object h := by
    rw [World.slot, hslots] at h
    exact h
  rest := hrest

theorem refl (w : World ρ σ π) : w.Quiet w :=
  of_eq rfl rfl rfl

theorem switchTo (w : World ρ σ π) (thread : ThreadId) (stack : ResolveStack) :
    w.Quiet (w.switchTo thread stack) :=
  of_eq rfl rfl rfl

theorem trans (h : w.Quiet v) (h' : v.Quiet after) : w.Quiet after where
  stock := h.stock.trans h'.stock
  hooks := h.hooks.trans h'.hooks
  kept slot object hfilled := h.kept slot object (h'.kept slot object hfilled)
  rest := (congrArg (withOwnOf · w) h'.rest).trans h.rest

theorem modifyInjector (w : World ρ σ π) (id : InjectorId) {f : Injector ρ → Injector ρ}
    (hbindings : ∀ injector, (f injector).bindings = injector.bindings)
    (hhooks : ∀ injector, (f injector).hooks = injector.hooks) : w.Quiet (w.modifyInjector id f) where
  stock := .modifyInjector w id hbindings
  hooks := .modifyInjector w id hhooks
  kept _ _ h := h
  rest := rfl

theorem setWaits (w : World ρ σ π) (id : InjectorId) (waits : WaitGraph) : w.Quiet (w.setWaits id waits) :=
  modifyInjector w id (fun _ => rfl) fun _ => rfl

theorem awaitKey (w : World ρ σ π) (id : InjectorId) (key : Key) : w.Quiet (w.awaitKey id key).2 := by
  unfold World.awaitKey
  split
  case h_1 => exact of_eq rfl rfl rfl
  case h_2 => exact setWaits w id _

theorem ordered (w : World ρ σ π) (roster : RosterId) : w.Quiet (w.ordered roster).2 := by
  unfold World.ordered
  split
  case h_1 => exact of_eq rfl rfl rfl
  case h_2 => exact refl w

theorem setSlot (w : World ρ σ π) (slot : SlotId) {kept : Slot} (h : ∀ object, kept ≠ .filled object) :
    w.Quiet (w.setSlot slot kept) where
  stock := .setSlot w slot kept
  hooks := .of_eq rfl
  kept other object hfilled := by
    rcases filled_of_setSlot hfilled with ⟨hkept, _⟩ | hbefore
    · exact absurd hkept (h object)
    · exact hbefore
  rest := rfl

end Quiet

/-! ### Accounts that tell of kept values -/

/-- An action is performed, or a value is kept in a slot. -/
inductive Event (ρ σ π : Type) where
  | call (call : Call ρ σ π)
  | kept (slot : SlotId) (object : Ref)

namespace Event

def call? : Event ρ σ π → Option (Call ρ σ π)
  | .call performed => some performed
  | .kept _ _ => none

/-- The calls among the events, which are an account by `World.Passes`. -/
def calls (events : List (Event ρ σ π)) : List (Call ρ σ π) :=
  events.filterMap call?

variable (events more : List (Event ρ σ π))

@[simp] theorem calls_nil : calls ([] : List (Event ρ σ π)) = [] := rfl

@[simp] theorem calls_append : calls (events ++ more) = calls events ++ calls more :=
  List.filterMap_append

@[simp] theorem calls_call (performed : Call ρ σ π) : calls (.call performed :: events) = performed :: calls events :=
  rfl

@[simp] theorem calls_kept (slot : SlotId) (object : Ref) : calls (.kept slot object :: events) = calls events :=
  rfl

end Event

/-- By the events, and by what the container does quietly in between (`Quiet`), the one world comes
of the other. -/
inductive Unfolds : World ρ σ π → List (Event ρ σ π) → World ρ σ π → Prop
  | refl (w : World ρ σ π) : Unfolds w [] w
  | call {w v : World ρ σ π} {events : List (Event ρ σ π)} (h : Unfolds w events v) (action : Action ρ σ π) :
      Unfolds w (events ++ [.call ⟨action, v⟩]) (action.perform v).2
  | keep {w v : World ρ σ π} {events : List (Event ρ σ π)} (h : Unfolds w events v) (slot : SlotId)
      (object : Ref) : Unfolds w (events ++ [.kept slot object]) (v.setSlot slot (.filled object))
  | own {w v u : World ρ σ π} {events : List (Event ρ σ π)} (h : Unfolds w events v) (hquiet : v.Quiet u) :
      Unfolds w events u

namespace Unfolds

variable {events more : List (Event ρ σ π)}

theorem of_quiet (h : w.Quiet after) : w.Unfolds [] after :=
  (refl w).own h

theorem trans (h : w.Unfolds events v) (h' : v.Unfolds more after) : w.Unfolds (events ++ more) after := by
  induction h' with
  | refl => rwa [List.append_nil]
  | call _ action ih =>
    rw [← List.append_assoc]
    exact ih.call action
  | keep _ slot object ih =>
    rw [← List.append_assoc]
    exact ih.keep slot object
  | own _ hquiet ih => exact ih.own hquiet

instance : IsAccount (Unfolds : World ρ σ π → List (Event ρ σ π) → World ρ σ π → Prop) where
  refl := refl
  trans := trans
  switchTo w thread stack := of_quiet (.switchTo w thread stack)

/-- There is a moment between what is told before and what is told later. -/
theorem split {before later : List (Event ρ σ π)} (h : w.Unfolds (before ++ later) after) :
    ∃ u, w.Unfolds before u ∧ u.Unfolds later after := by
  generalize hevents : before ++ later = events at h
  induction h generalizing later with
  | refl =>
    obtain ⟨rfl, rfl⟩ := List.append_eq_nil_iff.1 hevents
    exact ⟨w, refl w, refl w⟩
  | own _ hquiet ih =>
    obtain ⟨u, hbefore, hlater⟩ := ih hevents
    exact ⟨u, hbefore, hlater.own hquiet⟩
  | call h action ih =>
    rcases List.eq_nil_or_concat later with rfl | ⟨rest, last, rfl⟩
    · rw [List.append_nil] at hevents
      exact ⟨_, hevents ▸ h.call action, refl _⟩
    · rw [List.concat_eq_append, ← List.append_assoc] at hevents
      obtain ⟨hrest, hlast⟩ := List.append_inj' hevents rfl
      obtain ⟨u, hbefore, hlater⟩ := ih hrest
      rw [List.concat_eq_append, hlast]
      exact ⟨u, hbefore, hlater.call action⟩
  | keep h slot object ih =>
    rcases List.eq_nil_or_concat later with rfl | ⟨rest, last, rfl⟩
    · rw [List.append_nil] at hevents
      exact ⟨_, hevents ▸ h.keep slot object, refl _⟩
    · rw [List.concat_eq_append, ← List.append_assoc] at hevents
      obtain ⟨hrest, hlast⟩ := List.append_inj' hevents rfl
      obtain ⟨u, hbefore, hlater⟩ := ih hrest
      rw [List.concat_eq_append, hlast]
      exact ⟨u, hbefore, hlater.keep slot object⟩

/-- The calls among the events account for what the one world comes of, by `Passes`: keeping a value
changes no stock. -/
theorem passes (h : w.Unfolds events after) : w.Passes (Event.calls events) after := by
  induction h with
  | refl => exact .refl _
  | call _ action ih =>
    rw [Event.calls_append]
    exact ih.call action
  | @keep v _ _ slot object ih =>
    rw [Event.calls_append, Event.calls_kept, Event.calls_nil, List.append_nil]
    exact ih.own (.setSlot v slot (.filled object))
  | own _ hquiet ih => exact ih.own hquiet.stock

/-- The hooks of a type are those from the beginning and those that have been registered since, in
this order, by `Call.hook?`. -/
theorem hooksOf (h : w.Unfolds events after) (id : InjectorId) (type : ValueType) :
    (after.injector id).hooksOf type =
      (w.injector id).hooksOf type ++ (Event.calls events).filterMap (·.hook? id type) := by
  induction h with
  | refl => exact (List.append_nil _).symm
  | @call v _ _ action ih =>
    rw [Event.calls_append, List.filterMap_append, ← List.append_assoc, ← ih]
    refine (Call.hooksOf_after ⟨action, v⟩ id type).trans (congrArg _ ?_)
    rw [Event.calls_call, Event.calls_nil, List.filterMap_cons, List.filterMap_nil]
    cases (Call.mk action v).hook? id type <;> rfl
  | @keep v _ _ slot object ih =>
    rw [Event.calls_append, Event.calls_kept, Event.calls_nil, List.append_nil]
    exact ih
  | own _ hquiet ih => rw [hquiet.hooks.hooksOf, ih]

/-- A slot holds what it held in the beginning, or what has been kept there since, as an event
`kept` tells. -/
theorem kept {slot : SlotId} {object : Ref} (h : w.Unfolds events after)
    (hfilled : after.slot slot = .filled object) :
    w.slot slot = .filled object ∨ .kept slot object ∈ events := by
  induction h with
  | refl => exact .inl hfilled
  | @call v _ _ action ih =>
    have hspared : v.Spares action.Rewraps (action.perform v).2 := .perform action v
    rw [hspared.slot] at hfilled
    exact (ih hfilled).imp_right (List.mem_append_left _)
  | keep _ other made ih =>
    rcases filled_of_setSlot hfilled with ⟨hkept, rfl⟩ | hbefore
    · cases hkept
      exact .inr (List.mem_append_right _ (List.mem_singleton_self _))
    · exact (ih hbefore).imp_right (List.mem_append_left _)
  | own _ hquiet ih => exact ih (hquiet.kept slot object hfilled)

end Unfolds

end World

end Wiring
