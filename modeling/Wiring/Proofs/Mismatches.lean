import Wiring.Proofs.Builders

/-!
# Calls that come to something else

A call for a collection can come to a key that is bound to something else (`Action.Meets`). Where
each binding is stored under its own key (`World.Keyed`), that is the one cause that a
`typeMismatch` has left: whoever looks a key up finds a binding of the key's type
(`World.Keyed.find_eq`). The call fails then and changes nothing (`Action.perform_of_meets`), and no
other action comes to a mismatch, whether it fails for another reason or not
(`Action.fault?_eq_some_iff`). Nor is one noted otherwise (`Action.Matched`).

* **`Collection.Foreign`** — the key is bound to something else than such a collection.
* **`Action.matched_of_opened`** and **`Action.matched_of_unreached`** — an action that finds its
  collection, and one that needs none; both come to no mismatch.
-/

namespace Wiring

variable {ρ σ π α β : Type}

/-! ### Which calls meet something else -/

namespace Collection

/-- What a provider is said not to be where it is no such `Collection`. -/
def expected : Collection → String
  | .list => "ListProvider"
  | .map => "MapProvider"

/-- The key is bound to something else than such a `Collection`. Stages that were added since and
scopes do not matter. -/
def Foreign (c : Collection) (w : World ρ σ π) (id : InjectorId) (key : Key) : Prop :=
  ∃ binding, (w.injector id).bindings.get? key = some binding ∧ ∀ place, binding.base ≠ c.provider place

end Collection

namespace Action

/-- The `Collection` that an action has to find by its key. It is made by the call for a builder,
and found by all that a builder does with its entries. -/
def reaches : Action ρ σ π → Option (Collection × InjectorId × Key)
  | .openList id list => some (.list, id, list)
  | .contribute id list _ _ => some (.list, id, list)
  | .contributeObject id list _ => some (.list, id, list)
  | .contributeAll id list _ => some (.list, id, list)
  | .arrange id list _ _ _ => some (.list, id, list)
  | .listOrder id list => some (.list, id, list)
  | .openMap id map => some (.map, id, map)
  | .contributeNamed id map _ _ => some (.map, id, map)
  | _ => none

/-- The action has to find a collection, by `reaches`, by a key that is `Foreign` to it, which is a
fault. -/
def Meets (w : World ρ σ π) (fault : Fault) (action : Action ρ σ π) : Prop :=
  ∃ c id key, action.reaches = some (c, id, key) ∧ c.Foreign w id key ∧ fault = .typeMismatch key c.expected

/-- The fault of an answer, if it is `Except.error`. -/
def faultOf : Except Fault β → Option Fault
  | .error fault => some fault
  | .ok _ => none

theorem faultOf_eq_some {answer : Except Fault β} {fault : Fault} :
    faultOf answer = some fault ↔ answer = .error fault := by
  cases answer with
  | ok b => exact ⟨nofun, nofun⟩
  | error other => simp [faultOf]

/-- The fault that an action fails with, read off its answer by `faultOf`. -/
def fault? : (action : Action ρ σ π) → action.Answer → Option Fault
  | .changeScope _ _ _, answer => faultOf answer
  | .decorate _ _ _, answer => faultOf answer
  | .provider _ _, answer => faultOf answer
  | .place _ _ _ _, answer => faultOf answer
  | .orderedKeys _, answer => faultOf answer
  | .openList _ _, answer => faultOf answer
  | .contribute _ _ _ _, answer => faultOf answer
  | .contributeObject _ _ _, answer => faultOf answer
  | .contributeAll _ _ _, answer => faultOf answer
  | .arrange _ _ _ _ _, answer => faultOf answer
  | .listOrder _ _, answer => faultOf answer
  | .openMap _ _, answer => faultOf answer
  | .contributeNamed _ _ _ _, answer => faultOf answer
  | .pushKey _, answer => faultOf answer
  | _, _ => none

/-- The fault that the host's own code found, which `Action.report` only reports. -/
def reported? : Action ρ σ π → Option Fault
  | .report fault => some fault
  | _ => none

end Action

namespace World

/-- Each binding is stored under its own key, in all injectors. -/
def Keyed (w : World ρ σ π) : Prop :=
  ∀ id key binding, (w.injector id).bindings.get? key = some binding → binding.key = key

variable {w v after : World ρ σ π} {id : InjectorId} {key : Key} {c : Collection}

theorem Registered.keyed (h : w.Registered) : w.Keyed := by
  intro id key binding hget
  by_cases hid : id.index < w.injectors.size
  · obtain ⟨view, slots, hrep⟩ := h id hid
    rw [hrep.bindings key] at hget
    obtain ⟨r, _, rfl⟩ := Option.map_eq_some_iff.1 hget
    rfl
  · -- an injector that there is not holds nothing
    have hnone : w.injectors[id.index]? = none := Array.getElem?_eq_none_iff.2 (Nat.le_of_not_lt hid)
    rw [World.injector, hnone] at hget
    cases hget

/-- Whatever is bound under a key is of the key's type, so looking it up by `Injector.find` never
fails. -/
theorem Keyed.find_eq (h : w.Keyed) (id : InjectorId) (key : Key) :
    (w.injector id).find key = .ok ((w.injector id).bindings.get? key) := by
  unfold Injector.find
  cases hget : (w.injector id).bindings.get? key with
  | none => rfl
  | some binding =>
    have hkey : binding.key = key := h id key binding hget
    simp only [hkey, if_true]

/-! ### What is noted of mismatches -/

end World

/-- The mismatch that an event tells of, if it is a `LogEvent.fault` of kind `typeMismatch`. -/
def LogEvent.mismatch? : LogEvent → Option Fault
  | .fault cause => if cause.kind = .typeMismatch then some cause else none
  | _ => none

namespace World

/-- The mismatches that have been noted, by `LogEvent.mismatch?`, the first one first. -/
def mismatches (w : World ρ σ π) : List Fault :=
  w.log.toList.filterMap LogEvent.mismatch?

/-- No mismatch has been noted in between: `mismatches` are the same. -/
def Matches (w after : World ρ σ π) : Prop :=
  after.mismatches = w.mismatches

variable {w v after : World ρ σ π} {id : InjectorId} {key : Key} {c : Collection}

theorem mismatches_note (w : World ρ σ π) (event : LogEvent) :
    (w.note event).mismatches = w.mismatches ++ event.mismatch?.toList := by
  show (w.log.push event).toList.filterMap _ = _
  rw [Array.toList_push, List.filterMap_append, List.filterMap_cons, List.filterMap_nil]
  cases event.mismatch? <;> rfl

namespace Matches

theorem refl (w : World ρ σ π) : w.Matches w :=
  rfl

theorem trans (h : w.Matches v) (h' : v.Matches after) : w.Matches after :=
  Eq.trans h' h

theorem of_log (h : after.log = w.log) : w.Matches after := by
  unfold Matches mismatches
  rw [h]

theorem note (w : World ρ σ π) {event : LogEvent} (h : event.mismatch? = none) : w.Matches (w.note event) := by
  unfold Matches
  rw [mismatches_note, h]
  exact List.append_nil _

theorem establish (w : World ρ σ π) (id : InjectorId) (key : Key) (provider : Provider ρ) (scope : Scope) :
    w.Matches (w.establish id key provider scope) := by
  cases scope <;> exact of_log rfl

theorem rewrap (w : World ρ σ π) (id : InjectorId) (binding : Binding ρ) (scope : Scope) :
    w.Matches (w.rewrap id binding scope) := by
  cases scope <;> exact of_log rfl

theorem shutDown (w : World ρ σ π) (id : InjectorId) : w.Matches (w.shutDown id) := by
  have hrelease (w : World ρ σ π) (key : Key) : w.Matches (w.release id key) := by
    unfold World.release
    split
    case h_1 => exact refl w
    case h_2 =>
      split
      · exact rewrap w id _ _
      · exact refl w
  have hfold (keys : List Key) (w : World ρ σ π) : w.Matches (keys.foldl (·.release id ·) w) := by
    induction keys generalizing w with
    | nil => exact refl w
    | cons key keys ih => exact (hrelease w key).trans (ih _)
  exact (hfold _ w).trans (note _ rfl)

theorem bindingOf (hw : w.Keyed) (id : InjectorId) (key : Key) : w.Matches (w.bindingOf id key).2 := by
  unfold World.bindingOf
  rw [hw.find_eq]
  exact refl w

theorem enrol (w : World ρ σ π) (roster : RosterId) (entry : Key) (provider : Provider ρ) :
    w.Matches (w.enrol roster entry provider) := by
  have hstored : w.Matches (w.setRoster roster ((w.roster roster).add entry provider)) := of_log rfl
  unfold World.enrol
  dsimp only
  split <;> exact hstored.trans (note _ rfl)

theorem enrolObject (w : World ρ σ π) (roster : RosterId) (type : ValueType) (object : Ref) :
    w.Matches (w.enrolObject roster type object).2 := by
  have hnumber : w.Matches (w.entryNumber object).2 := by
    unfold World.entryNumber
    split <;> exact of_log rfl
  exact hnumber.trans (enrol _ _ _ _)

theorem enrolAll (w : World ρ σ π) (roster : RosterId) (type : ValueType) (contents : List (Content π)) :
    w.Matches (w.enrolAll roster type contents).2 := by
  induction contents generalizing w with
  | nil => exact refl w
  | cons content rest ih =>
    have hmade : w.Matches (w.allocate content).2 := of_log rfl
    exact hmade.trans ((enrolObject _ roster type _).trans (ih _))

end Matches

/-- What is done comes to no mismatch, and none is noted, by `Matches`. -/
structure MatchedBy (w : World ρ σ π) (outcome : Except Fault β × World ρ σ π) : Prop where
  fault : ∀ fault, outcome.1 = .error fault → fault.kind ≠ .typeMismatch
  notes : w.Matches outcome.2

namespace MatchedBy

theorem of_ok {outcome : Except Fault β × World ρ σ π} {b : β} (h : outcome.1 = .ok b)
    (hnotes : w.Matches outcome.2) : w.MatchedBy outcome := by
  refine ⟨fun fault hfault => ?_, hnotes⟩
  rw [h] at hfault
  cases hfault

theorem ok (b : β) (h : w.Matches after) : w.MatchedBy (.ok b, after) :=
  of_ok rfl h

theorem answer {outcome : Except Fault β × World ρ σ π} (h : w.MatchedBy outcome) :
    ∀ fault, Action.faultOf outcome.1 = some fault → fault.kind ≠ .typeMismatch :=
  fun fault hfault => h.fault fault (Action.faultOf_eq_some.1 hfault)

theorem raise (w : World ρ σ π) {fault : Fault} (h : fault.kind ≠ .typeMismatch) :
    w.MatchedBy (w.raise fault : Except Fault β × World ρ σ π) := by
  refine ⟨fun other hother => ?_, .note w (if_neg h)⟩
  cases hother
  exact h

theorem changeScope (w : World ρ σ π) (id : InjectorId) (key : Key) (scope : Scope) :
    w.MatchedBy (w.changeScope id key scope) := by
  unfold World.changeScope
  split
  case h_1 => exact raise w nofun
  case h_2 binding _ =>
    have hnoted : w.Matches (w.note (.changingScope key binding.scope scope)) := .note w rfl
    exact ok () (hnoted.trans (.rewrap _ _ _ _))

theorem decorate (hw : w.Keyed) (id : InjectorId) (key : Key) (stage : Stage ρ) :
    w.MatchedBy (w.decorate id key stage) := by
  unfold World.decorate
  rw [hw.find_eq]
  cases (w.injector id).bindings.get? key with
  | none => exact raise w nofun
  | some binding =>
    have hnoted : w.Matches (w.note (.decorating key)) := .note w rfl
    exact ok () (hnoted.trans (.rewrap _ _ _ _))

theorem providerOf (hw : w.Keyed) (id : InjectorId) (key : Key) : w.MatchedBy (w.providerOf id key) := by
  unfold World.providerOf
  rw [hw.find_eq]
  cases (w.injector id).bindings.get? key with
  | none => exact raise w nofun
  | some binding => exact ok _ (.refl w)

theorem place (w : World ρ σ π) (roster : RosterId) (entry : Key) (side : Side) (other : Key) :
    w.MatchedBy (w.place roster entry side other) := by
  unfold World.place World.changeRoster
  split
  case h_1 heq =>
    obtain ⟨-, rfl⟩ := Roster.place_eq_error_iff.1 heq
    exact raise w nofun
  case h_2 => exact ok () (.of_log rfl)

theorem ordered (w : World ρ σ π) (roster : RosterId) : w.MatchedBy (w.ordered roster) := by
  unfold World.ordered Roster.order
  cases linearize (w.roster roster).size (w.roster roster).edges with
  | ok _ => exact ok _ (.refl w)
  | error _ => exact raise w nofun

theorem orderedKeys (w : World ρ σ π) (roster : RosterId) : w.MatchedBy (w.orderedKeys roster) := by
  obtain ⟨hfault, hnotes⟩ := ordered w roster
  refine ⟨fun fault h => ?_, hnotes⟩
  change (w.ordered roster).1.map _ = _ at h
  cases hordered : (w.ordered roster).1 with
  | ok entries =>
    rw [hordered] at h
    cases h
  | error other =>
    rw [hordered] at h
    cases h
    exact hfault fault hordered

theorem pushKey (w : World ρ σ π) (key : Key) : w.MatchedBy (w.pushKey key) := by
  unfold World.pushKey ResolveStack.push
  by_cases hmem : key ∈ w.stack
  · rw [if_pos hmem]
    exact raise w nofun
  · rw [if_neg hmem]
    exact ok () (.of_log rfl)

theorem awaitKey (w : World ρ σ π) (id : InjectorId) (key : Key) : w.MatchedBy (w.awaitKey id key) := by
  unfold World.awaitKey
  split
  case h_1 heq =>
    obtain ⟨chain, _, rfl⟩ := WaitGraph.await_eq_error_iff.1 heq
    exact raise w nofun
  case h_2 => exact ok () (.of_log rfl)

/-- What is done by `World.withList` with a list that has been found. -/
theorem withList {rest : RosterId → World ρ σ π → Except Fault β × World ρ σ π} {place : RosterId}
    (hopened : (w.openList id key).1 = .ok place) (hnotes : w.Matches (w.openList id key).2)
    (hrest : ∀ roster v, MatchedBy v (rest roster v)) : w.MatchedBy (w.withList id key rest) := by
  unfold World.withList
  generalize w.openList id key = opened at hopened hnotes
  obtain ⟨found, v⟩ := opened
  cases hopened
  obtain ⟨hfault, hafter⟩ := hrest place v
  exact ⟨hfault, hnotes.trans hafter⟩

/-- What is done by `World.contributeNamed` with a map that has been found. -/
theorem contributeNamed {place : CatalogId} (name : String) (provider : Provider ρ)
    (hopened : (w.openMap id key).1 = .ok place) (hnotes : w.Matches (w.openMap id key).2) :
    w.MatchedBy (w.contributeNamed id key name provider) := by
  unfold World.contributeNamed
  generalize w.openMap id key = opened at hopened hnotes
  obtain ⟨found, v⟩ := opened
  cases hopened
  have hnoted : v.Matches (v.note (.puttingEntry name (v.catalog place).map)) := .note v rfl
  exact ok () (hnotes.trans (hnoted.trans (.of_log rfl)))

end MatchedBy

end World

/-! ### What actions come to -/

namespace Collection

variable {w : World ρ σ π} {id : InjectorId} {key : Key} {c : Collection}

/-- A key that is bound to something else, by `Foreign`, stays as it is. -/
theorem opened_of_foreign (hw : w.Keyed) (h : c.Foreign w id key) :
    c.opened w id key = w.raise (.typeMismatch key c.expected) := by
  obtain ⟨binding, hget, hbase⟩ := h
  have hfind : (w.injector id).find key = .ok (some binding) := by rw [hw.find_eq, hget]
  cases c with
  | list =>
    unfold opened World.openList
    simp only [World.baseOr_of_bound hfind]
    cases hlist : binding.base with
    | list roster => exact absurd hlist (hbase roster)
    | _ => rfl
  | map =>
    unfold opened World.openMap
    simp only [World.baseOr_of_bound hfind]
    cases hmap : binding.base with
    | map catalog => exact absurd hmap (hbase catalog)
    | _ => rfl

/-- A key that is not `Foreign` leads to a collection, which is made if the key is not bound at
all. -/
theorem opened_of_not_foreign (hw : w.Keyed) (h : ¬ c.Foreign w id key) :
    ∃ place, (c.opened w id key).1 = .ok place ∧ w.Matches (c.opened w id key).2 := by
  cases hget : (w.injector id).bindings.get? key with
  | none =>
    -- a collection is made and bound, and all that is noted tells of that
    have hnew (u : World ρ σ π) (hu : u.log = (w.note (.creatingCollection key)).log) (p : Provider ρ) :
        w.Matches (u.establish id key p .noScope) := by
      have hnoted : w.Matches (w.note (.creatingCollection key)) := .note w rfl
      exact hnoted.trans (World.Matches.trans (.of_log hu) (.establish u id key p .noScope))
    cases c with
    | list =>
      unfold opened World.openList World.baseOr
      rw [hw.find_eq, hget]
      exact ⟨_, rfl, hnew ((w.note (.creatingCollection key)).newRoster key).2 rfl _⟩
    | map =>
      unfold opened World.openMap World.baseOr
      rw [hw.find_eq, hget]
      exact ⟨_, rfl, hnew ((w.note (.creatingCollection key)).newCatalog key).2 rfl _⟩
  | some binding =>
    -- the key is bound to a collection already, which is found and left as it is
    have hplace : ∃ place, binding.base = c.provider place := by
      by_contra hnone
      exact h ⟨binding, hget, fun place hbase => hnone ⟨place, hbase⟩⟩
    obtain ⟨place, hbase⟩ := hplace
    have hfind : (w.injector id).find key = .ok (some binding) := by rw [hw.find_eq, hget]
    rw [opened_of_base hfind hbase]
    exact ⟨place, rfl, .refl w⟩

end Collection

namespace Action

variable {w after : World ρ σ π} {id : InjectorId} {key : Key} {c : Collection} {fault : Fault}
variable {action : Action ρ σ π}

/-- A collection that is not found by `opened` is a fault of the action, and the action does nothing
else. -/
theorem perform_of_opened_error (hreaches : action.reaches = some (c, id, key))
    (h : c.opened w id key = (.error fault, after)) :
    action.fault? (action.perform w).1 = some fault ∧ (action.perform w).2 = after := by
  cases action <;> cases hreaches
  all_goals
    simp only [Collection.opened] at h
    simp only [perform, World.contribute, World.contributeObject, World.contributeAll, World.arrange,
      World.listOrder, World.withList, World.contributeNamed, h, fault?, faultOf, and_self]

/-- The action comes to no mismatch by `fault?`, and `Matches` says that it notes none. -/
structure Matched (w : World ρ σ π) (action : Action ρ σ π) : Prop where
  fault : ∀ fault, action.fault? (action.perform w).1 = some fault → fault.kind ≠ .typeMismatch
  notes : w.Matches (action.perform w).2

theorem Matched.of_faultless (hfault : action.fault? (action.perform w).1 = none)
    (hnotes : w.Matches (action.perform w).2) : action.Matched w := by
  refine ⟨fun fault h => ?_, hnotes⟩
  rw [hfault] at h
  cases h

/-- An action that finds its collection by `opened` comes to no mismatch. -/
theorem matched_of_opened (hreaches : action.reaches = some (c, id, key)) {place : c.Place}
    (hopened : (c.opened w id key).1 = .ok place) (hnotes : w.Matches (c.opened w id key).2) :
    action.Matched w := by
  cases action <;> cases hreaches
  case openList =>
    have hfound : w.MatchedBy (w.openList id key) := .of_ok hopened hnotes
    exact ⟨hfound.answer, hfound.notes⟩
  case openMap =>
    have hfound : w.MatchedBy (w.openMap id key) := .of_ok hopened hnotes
    exact ⟨hfound.answer, hfound.notes⟩
  case contribute entry p =>
    have hrest : w.MatchedBy (w.contribute id key entry p) :=
      .withList hopened hnotes fun roster v => .ok () (.enrol v roster entry p)
    exact ⟨hrest.answer, hrest.notes⟩
  case contributeObject object =>
    have hrest : w.MatchedBy (w.contributeObject id key object) :=
      .withList hopened hnotes fun roster v => .ok _ (.enrolObject v roster _ object)
    exact ⟨hrest.answer, hrest.notes⟩
  case contributeAll contents =>
    have hrest : w.MatchedBy (w.contributeAll id key contents) :=
      .withList hopened hnotes fun roster v => .ok _ (.enrolAll v roster _ contents)
    exact ⟨hrest.answer, hrest.notes⟩
  case arrange entry side other =>
    have hrest : w.MatchedBy (w.arrange id key entry side other) :=
      .withList hopened hnotes fun roster v => .place v roster entry side other
    exact ⟨hrest.answer, hrest.notes⟩
  case listOrder =>
    have hrest : w.MatchedBy (w.listOrder id key) :=
      .withList hopened hnotes fun roster v => .orderedKeys v roster
    exact ⟨hrest.answer, hrest.notes⟩
  case contributeNamed name p =>
    have hrest := World.MatchedBy.contributeNamed name p hopened hnotes
    exact ⟨hrest.answer, hrest.notes⟩

/-- An action that needs no collection, by `reaches`, comes to no mismatch. -/
theorem matched_of_unreached (hw : w.Keyed) (hreaches : action.reaches = none)
    (hreported : action.reported? = none) : action.Matched w := by
  cases action
  case report fault => cases hreported
  case bind id key p scope => exact .of_faultless rfl ((World.Matches.establish w id key p scope).trans (.note _ rfl))
  case changeScope id key scope =>
    have h := World.MatchedBy.changeScope w id key scope
    exact ⟨h.answer, h.notes⟩
  case decorate id key stage =>
    have h := World.MatchedBy.decorate hw id key stage
    exact ⟨h.answer, h.notes⟩
  case provider id key =>
    have h := World.MatchedBy.providerOf hw id key
    exact ⟨h.answer, h.notes⟩
  case binding id key => exact .of_faultless rfl (.bindingOf hw id key)
  case shutDown id => exact .of_faultless rfl (.shutDown w id)
  case enrol roster entry p => exact .of_faultless rfl (.enrol w roster entry p)
  case place roster entry side other =>
    have h := World.MatchedBy.place w roster entry side other
    exact ⟨h.answer, h.notes⟩
  case orderedKeys roster =>
    have h := World.MatchedBy.orderedKeys w roster
    exact ⟨h.answer, h.notes⟩
  case putEntry catalog name p =>
    have hnoted : w.Matches (w.note (.puttingEntry name (w.catalog catalog).map)) := .note w rfl
    exact .of_faultless rfl (hnoted.trans (.of_log rfl))
  case pushKey key =>
    have h := World.MatchedBy.pushKey w key
    exact ⟨h.answer, h.notes⟩
  all_goals first
    | exact .of_faultless rfl (.of_log rfl)
    | cases hreaches

/-- A call that comes to something else by `Meets` fails, and changes nothing but the log. -/
theorem perform_of_meets (hw : w.Keyed) (h : action.Meets w fault) :
    action.fault? (action.perform w).1 = some fault ∧ (action.perform w).2 = w.note (.fault fault) := by
  obtain ⟨c, id, key, hreaches, hforeign, rfl⟩ := h
  exact perform_of_opened_error hreaches (Collection.opened_of_foreign hw hforeign)

/-- All others come to no mismatch, by `matched_of_opened` and `matched_of_unreached`. -/
theorem matched_of_not_meets (hw : w.Keyed) (h : ∀ fault, ¬ action.Meets w fault)
    (hreported : action.reported? = none) : action.Matched w := by
  cases hreaches : action.reaches with
  | none => exact matched_of_unreached hw hreaches hreported
  | some reached =>
    obtain ⟨c, id, key⟩ := reached
    have hforeign : ¬ c.Foreign w id key := fun hforeign => h _ ⟨c, id, key, hreaches, hforeign, rfl⟩
    obtain ⟨place, hopened, hnotes⟩ := Collection.opened_of_not_foreign hw hforeign
    exact matched_of_opened hreaches hopened hnotes

/-- An action fails with a mismatch just if it comes to something else by `Meets`. -/
theorem fault?_eq_some_iff (hw : w.Keyed) (hkind : fault.kind = .typeMismatch) :
    action.fault? (action.perform w).1 = some fault ↔ action.Meets w fault := by
  refine ⟨fun hfault => ?_, fun h => (perform_of_meets hw h).1⟩
  by_contra hnot
  have hreported : action.reported? = none := by
    cases action
    case report => cases hfault
    all_goals rfl
  by_cases hmeets : ∃ other, action.Meets w other
  · obtain ⟨other, hother⟩ := hmeets
    cases (perform_of_meets hw hother).1.symm.trans hfault
    exact hnot hother
  · exact (matched_of_not_meets hw (not_exists.1 hmeets) hreported).fault fault hfault hkind

end Action

end Wiring
