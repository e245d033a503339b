import Wiring.Action

/-!
# What changes of rosters keep

The calls on a list (`World.contribute`, `World.contributeObject`, `World.contributeAll`, `World.arrange`
and `World.listOrder`) find its roster with `World.openList` and go on from there with a few small changes:
a roster is stored, an object is made or given its number, or something is noted in the log. A relation
between worlds that survives these small changes is a `World.RosterFrame`. Whatever survives them survives
each of the calls (`RosterFrame.perform`), from the world that `World.openList` leaves, so the calls are taken
apart here and nowhere else.
-/

namespace Wiring

variable {ρ σ π α : Type}

/-- The injector and the key of the list that an action calls on; the calls are those that begin
with `World.withList`. -/
def Action.onList? : Action ρ σ π → Option (InjectorId × Key)
  | .contribute id list _ _ => some (id, list)
  | .contributeObject id list _ => some (id, list)
  | .contributeAll id list _ => some (id, list)
  | .arrange id list _ _ _ => some (id, list)
  | .listOrder id list => some (id, list)
  | _ => none

namespace World

/-- What is done with a list once `World.openList` has found it, or nothing if it has not. -/
theorem withList_rest {Holds : World ρ σ π → World ρ σ π → Prop} (hrefl : ∀ v, Holds v v)
    (w : World ρ σ π) (id : InjectorId) (list : Key)
    {rest : RosterId → World ρ σ π → Except Fault α × World ρ σ π}
    (hrest : ∀ roster v, Holds v (rest roster v).2) :
    Holds (w.openList id list).2 (w.withList id list rest).2 := by
  unfold World.withList
  split
  case h_1 heq =>
    rw [heq]
    exact hrefl _
  case h_2 heq =>
    rw [heq]
    exact hrest _ _

/-- A relation `Holds` between worlds is reflexive and transitive and survives each of the small
changes that `World.enrolAll`, `World.place` and `World.ordered` are made of. -/
structure RosterFrame (Holds : World ρ σ π → World ρ σ π → Prop) : Prop where
  refl : ∀ w, Holds w w
  trans : ∀ {w between after}, Holds w between → Holds between after → Holds w after
  note : ∀ w event, Holds w (w.note event)
  allocate : ∀ w content, Holds w (w.allocate content).2
  setRoster : ∀ w roster table, Holds w (w.setRoster roster table)
  /-- An object that has no number yet is given the next one, as `World.entryNumber` does. -/
  enter : ∀ w object, w.entered.idxOf? object = none → Holds w { w with entered := w.entered.push object }

namespace RosterFrame

variable {Holds : World ρ σ π → World ρ σ π → Prop}

theorem entryNumber (h : RosterFrame Holds) (w : World ρ σ π) (object : Ref) :
    Holds w (w.entryNumber object).2 := by
  unfold World.entryNumber
  split
  case h_1 => exact h.refl w
  case h_2 hnew => exact h.enter w object hnew

theorem enrol (h : RosterFrame Holds) (w : World ρ σ π) (roster : RosterId) (entry : Key)
    (provider : Provider ρ) : Holds w (w.enrol roster entry provider) :=
  h.trans (h.setRoster w roster _) (h.note _ _)

theorem enrolObject (h : RosterFrame Holds) (w : World ρ σ π) (roster : RosterId) (type : ValueType)
    (object : Ref) : Holds w (w.enrolObject roster type object).2 :=
  h.trans (h.entryNumber w object) (h.enrol _ _ _ _)

theorem enrolAll (h : RosterFrame Holds) (w : World ρ σ π) (roster : RosterId) (type : ValueType)
    (contents : List (Content π)) : Holds w (w.enrolAll roster type contents).2 := by
  induction contents generalizing w with
  | nil => exact h.refl w
  | cons content rest ih =>
    exact h.trans (h.allocate w content) (h.trans (h.enrolObject _ roster type _) (ih _))

theorem changeRoster (h : RosterFrame Holds) (w : World ρ σ π) (roster : RosterId)
    (change : Roster (Provider ρ) → Except Fault (Roster (Provider ρ))) :
    Holds w (w.changeRoster roster change).2 := by
  unfold World.changeRoster
  split
  case h_1 => exact h.note w _
  case h_2 => exact h.setRoster w roster _

theorem place (h : RosterFrame Holds) (w : World ρ σ π) (roster : RosterId) (entry : Key) (side : Side)
    (other : Key) : Holds w (w.place roster entry side other).2 :=
  h.changeRoster w roster _

theorem ordered (h : RosterFrame Holds) (w : World ρ σ π) (roster : RosterId) :
    Holds w (w.ordered roster).2 := by
  unfold World.ordered
  split
  case h_1 => exact h.note w _
  case h_2 => exact h.refl w

/-- Whatever the call on a list is, by `Action.onList?`, it holds from the world in which
`World.openList` has found the list, or has failed to. -/
theorem perform (h : RosterFrame Holds) {action : Action ρ σ π} {id : InjectorId} {list : Key}
    (hlist : action.onList? = some (id, list)) (w : World ρ σ π) :
    Holds (w.openList id list).2 (action.perform w).2 := by
  cases action
  case contribute =>
    cases hlist
    exact withList_rest h.refl w id list fun _ _ => h.enrol _ _ _ _
  case contributeObject =>
    cases hlist
    exact withList_rest h.refl w id list fun _ _ => h.enrolObject _ _ _ _
  case contributeAll =>
    cases hlist
    exact withList_rest h.refl w id list fun _ _ => h.enrolAll _ _ _ _
  case arrange =>
    cases hlist
    exact withList_rest h.refl w id list fun _ _ => h.place _ _ _ _ _
  case listOrder =>
    cases hlist
    exact withList_rest h.refl w id list fun _ _ => h.ordered _ _
  all_goals cases hlist

end RosterFrame

end World

end Wiring
