import Wiring.Proofs.Moments
import Wiring.Proofs.Rewrapping
import Wiring.Proofs.Yields

/-!
# The life of a slot

Along the moments of a run a slot goes from empty to busy when the delegate of its singleton begins,
and from busy to what the delegate came to when it ends, and it changes at no other moment, whatever
the host's code does in between. `Trail` says how the world moves along moments; what becomes of a
slot and of a binding is then read off the moments alone: a slot that is filled stays filled
(`Trail.filled`), one that is empty stays so until a delegate begins (`Trail.empty`), and a binding
stays until its key is rewrapped (`Trail.binding`).

* **`Moment.Moves`** — what one moment does; `World.Calm` is what may happen in between.
* **`Trail.unchanged`** — induction on the moments, for a slot that no delegate is at work for.
-/

namespace Wiring

variable {ρ σ π : Type}

/-- Nothing that slots or bindings tell is lost: `Spares` with no key `lost`. -/
abbrev World.Calm (w after : World ρ σ π) : Prop :=
  w.Spares (fun _ _ => False) after

/-- A value that came from a singleton, by its wrapper or by its key, is in the singleton's slot, as
`Slot.filled`. -/
def Request.Settled : (request : Request ρ σ π) → World ρ σ π → request.Answer → World ρ σ π → Prop
  | .produce _ provider, _, reply, after => ∀ slot name type delegate object,
    provider = .singleton slot name type delegate → reply = .ok object →
      after.slot slot = .filled object
  | .resolve id key, before, reply, after => ∀ slot name type delegate object,
    (before.providerOf id key).1 = .ok (.singleton slot name type delegate) → reply = .ok object →
      after.slot slot = .filled object
  | _, _, _, _ => True

/-- What one `Moment` does to the world, to its slots above all. -/
inductive Moment.Moves : World ρ σ π → Moment ρ σ π → World ρ σ π → Prop
  | asked {request : Request ρ σ π} {w next : World ρ σ π} (h : w.Spares request.Rewraps next) :
      Moves w (.asked request w) next
  | answered {request : Request ρ σ π} {before w : World ρ σ π} {reply : request.Answer}
      (h : request.Settled before reply w) : Moves w (.answered request before reply w) w
  | begun {slot : SlotId} {w : World ρ σ π} (hempty : w.slot slot = .empty)
      (hslot : slot.index < w.slots.size) : Moves w (.begun slot) (w.setSlot slot .busy)
  | ended {slot : SlotId} {outcome : Except Fault Ref} {w : World ρ σ π}
      (hbusy : w.slot slot = .busy) (hslot : slot.index < w.slots.size) :
      Moves w (.ended slot outcome) (w.setSlot slot (.keeping outcome))

/-- The world moves along these moments by `Moment.Moves`; in between nothing is lost, by
`World.Calm`. -/
inductive Trail : World ρ σ π → List (Moment ρ σ π) → World ρ σ π → Prop
  | still {w after : World ρ σ π} (h : w.Calm after) : Trail w [] after
  | move {m : Moment ρ σ π} {moments : List (Moment ρ σ π)} {w here next after : World ρ σ π}
      (h : w.Calm here) (hmove : m.Moves here next) (rest : Trail next moments after) :
      Trail w (m :: moments) after

/-- At this moment the slot has this content, and no delegate begins or ends its work for it by
`Moment.begun` or `Moment.ended`. -/
def Moment.Finds (slot : SlotId) (content : Slot) : Moment ρ σ π → Prop
  | .asked _ w => w.slot slot = content
  | .answered _ _ _ after => after.slot slot = content
  | .begun other => other ≠ slot
  | .ended other _ => other ≠ slot

namespace Trail

variable {w between after : World ρ σ π} {m : Moment ρ σ π}
variable {moments more : List (Moment ρ σ π)}

theorem before (h : w.Calm between) (trail : Trail between moments after) :
    Trail w moments after := by
  cases trail with
  | still hcalm => exact .still (h.trans hcalm)
  | move hcalm hmove rest => exact .move (h.trans hcalm) hmove rest

theorem append (first : Trail w moments between) (second : Trail between more after) :
    Trail w (moments ++ more) after := by
  induction first with
  | still h => exact second.before h
  | move h hmove _ ih => exact .move h hmove (ih second)

theorem of_append (trail : Trail w (moments ++ more) after) :
    ∃ between, Trail w moments between ∧ Trail between more after := by
  induction moments generalizing w with
  | nil => exact ⟨w, .still (.refl w), trail⟩
  | cons m moments ih =>
    cases trail with
    | move h hmove rest =>
      obtain ⟨between, hfirst, hsecond⟩ := ih rest
      exact ⟨between, .move h hmove hfirst, hsecond⟩

/-! ### What becomes of a slot -/

section

variable {slot : SlotId} {content : Slot}

/-- A slot that no delegate is at work for changes only when one begins, so all moments `Finds` what
it has. -/
theorem unchanged (trail : Trail w moments after) (hslot : w.slot slot = content)
    (hidle : content ≠ .busy) (hbegun : content = .empty → .begun slot ∉ moments) :
    (∀ m ∈ moments, m.Finds slot content) ∧ after.slot slot = content := by
  induction trail with
  | still h => exact ⟨fun _ hm => (nomatch hm), (h.slot slot).trans hslot⟩
  | @move m moments w here next after h hmove rest ih =>
    have hhere : here.slot slot = content := (h.slot slot).trans hslot
    have hnext : m.Finds slot content ∧ next.slot slot = content := by
      -- a move touches a slot only if the delegate of that very slot begins or ends
      cases hmove with
      | asked hspares => exact ⟨hhere, (hspares.slot slot).trans hhere⟩
      | answered _ => exact ⟨hhere, hhere⟩
      | @begun other _ hempty _ =>
        have hother : other ≠ slot := by
          rintro rfl
          exact hbegun (hhere.symm.trans hempty) (.head _)
        exact ⟨hother, (here.slot_setSlot_of_ne _ hother).trans hhere⟩
      | @ended other _ _ hbusy _ =>
        have hother : other ≠ slot := by
          rintro rfl
          exact hidle (hhere.symm.trans hbusy)
        exact ⟨hother, (here.slot_setSlot_of_ne _ hother).trans hhere⟩
    obtain ⟨hrest, hafter⟩ := ih hnext.2 fun hempty hmem => hbegun hempty (.tail _ hmem)
    refine ⟨fun other hother => ?_, hafter⟩
    cases hother with
    | head => exact hnext.1
    | tail _ hmem => exact hrest other hmem

/-- A slot that is filled stays filled, whatever is done: the case `Slot.filled` of `unchanged`. -/
theorem filled {object : Ref} (trail : Trail w moments after) (h : w.slot slot = .filled object) :
    (∀ m ∈ moments, m.Finds slot (.filled object)) ∧ after.slot slot = .filled object :=
  trail.unchanged h (fun heq => nomatch heq) fun heq => nomatch heq

/-- A slot that is empty stays empty until a delegate begins: the case `Slot.empty` of
`unchanged`. -/
theorem empty (trail : Trail w moments after) (h : w.slot slot = .empty)
    (hbegun : .begun slot ∉ moments) :
    (∀ m ∈ moments, m.Finds slot .empty) ∧ after.slot slot = .empty :=
  trail.unchanged h (fun heq => nomatch heq) fun _ => hbegun

/-- When a delegate has come to an end, the slot has what it came to, by `Slot.keeping`. -/
theorem of_ended {outcome : Except Fault Ref} (trail : Trail w (.ended slot outcome :: moments) after) :
    ∃ next : World ρ σ π, next.slot slot = .keeping outcome ∧ Trail next moments after := by
  cases trail with
  | move _ hmove rest =>
    cases hmove with
    | ended _ hslot => exact ⟨_, World.slot_setSlot_self _ _ hslot, rest⟩

theorem of_answered {request : Request ρ σ π} {first here : World ρ σ π} {reply : request.Answer}
    (trail : Trail w (.answered request first reply here :: moments) after) :
    request.Settled first reply here ∧ Trail here moments after := by
  cases trail with
  | move _ hmove rest =>
    cases hmove with
    | answered hsettled => exact ⟨hsettled, rest⟩

theorem room (trail : Trail w moments after) : w.slots.size ≤ after.slots.size := by
  induction trail with
  | still h => exact h.room
  | move h hmove _ ih =>
    have hmoved := h.room
    cases hmove with
    | asked hspares => exact Nat.le_trans hmoved (Nat.le_trans hspares.room ih)
    | answered _ => exact Nat.le_trans hmoved ih
    | begun _ _ => exact Nat.le_trans hmoved (by simpa [World.setSlot] using ih)
    | ended _ _ => exact Nat.le_trans hmoved (by simpa [World.setSlot] using ih)

end

/-! ### What becomes of a binding -/

theorem wrapped (trail : Trail w moments after) (hw : w.Wrapped) : after.Wrapped := by
  induction trail with
  | still h => exact h.wrapped hw
  | move h hmove _ ih =>
    cases hmove with
    | asked hspares => exact ih (hspares.wrapped (h.wrapped hw))
    | answered _ => exact ih (h.wrapped hw)
    | begun _ _ => exact ih (h.wrapped hw)
    | ended _ _ => exact ih (h.wrapped hw)

/-- A binding stays until its key is rewrapped by a request that `Rewraps` it. -/
theorem binding {id : InjectorId} {key : Key} {b : Binding ρ} (trail : Trail w moments after)
    (hw : w.Wrapped) (hget : (w.injector id).bindings.get? key = some b)
    (hspared : ∀ request v, .asked request v ∈ moments → ¬ request.Rewraps id key) :
    (after.injector id).bindings.get? key = some b := by
  induction trail with
  | still h => exact h.binding hw id key b (fun hlost => hlost) hget
  | move h hmove _ ih =>
    have hhere := h.binding hw id key b (fun hlost => hlost) hget
    have hrest := fun request v hmem => hspared request v (.tail _ hmem)
    cases hmove with
    | asked hspares =>
      have hnext := hspares.binding (h.wrapped hw) id key b (hspared _ _ (.head _)) hhere
      exact ih (hspares.wrapped (h.wrapped hw)) hnext hrest
    | answered _ => exact ih (h.wrapped hw) hhere hrest
    | begun _ _ => exact ih (h.wrapped hw) hhere hrest
    | ended _ _ => exact ih (h.wrapped hw) hhere hrest

end Trail

end Wiring
