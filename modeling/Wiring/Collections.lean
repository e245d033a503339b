import Wiring.Registry

/-!
# Lists and maps as collections

A list or map is contributed to through its key. Each contribution finds the collection anew, in the
base of the key's binding (`World.openList`, `World.openMap`), so it reaches the same entries
whatever has been decorated or scoped since. A key without binding is bound to an empty collection
first, by `World.baseOr`.
-/

namespace Wiring

namespace World

variable {ρ σ π : Type}

/-! ### Rosters on their own -/

/-- Adds an entry to a roster, or replaces its provider, by `Roster.add`. Which of the two is
noted. -/
def enrol (w : World ρ σ π) (id : RosterId) (entry : Key) (provider : Provider ρ) :
    World ρ σ π :=
  let roster := w.roster id
  let event : LogEvent :=
    if roster.contains entry then .replacingEntry entry roster.list
    else .addingEntry entry roster.list
  (w.setRoster id (roster.add entry provider)).note event

/-- Adds an object to a roster under a key of its own, which it has in every list: `Key.ofObject` of
its `entryNumber`. Its provider completes it by the member hooks of its type. -/
def enrolObject (w : World ρ σ π) (id : RosterId) (type : ValueType) (object : Ref) :
    Key × World ρ σ π :=
  let (number, w) := w.entryNumber object
  let entry := Key.ofObject type number
  (entry, w.enrol id entry (.completing type object))

/-- Adds given contents to a roster as new objects, each by `enrolObject` under a key of its own,
and gives the keys in that order. -/
def enrolAll (w : World ρ σ π) (id : RosterId) (type : ValueType) :
    List (Content π) → List Key × World ρ σ π
  | [] => ([], w)
  | content :: rest =>
    let (object, w) := w.allocate content
    let (entry, w) := w.enrolObject id type object
    let (entries, w) := w.enrolAll id type rest
    (entry :: entries, w)

/-- Stores what a change of a roster gives, or notes the fault and leaves the roster as it is. -/
def changeRoster (w : World ρ σ π) (id : RosterId)
    (change : Roster (Provider ρ) → Except Fault (Roster (Provider ρ))) :
    Except Fault Unit × World ρ σ π :=
  match change (w.roster id) with
  | .error fault => w.raise fault
  | .ok roster => (.ok (), w.setRoster id roster)

section

variable {w : World ρ σ π} {id : RosterId}
variable {change : Roster (Provider ρ) → Except Fault (Roster (Provider ρ))}

theorem changeRoster_of_ok {roster : Roster (Provider ρ)} (h : change (w.roster id) = .ok roster) :
    w.changeRoster id change = (.ok (), w.setRoster id roster) := by
  rw [changeRoster, h]

theorem changeRoster_of_error {fault : Fault} (h : change (w.roster id) = .error fault) :
    w.changeRoster id change = w.raise fault := by
  rw [changeRoster, h]

end

/-- Asks that an entry of a roster stand on that side of `other`, by `Roster.place`. -/
def place (w : World ρ σ π) (id : RosterId) (entry : Key) (side : Side) (other : Key) :
    Except Fault Unit × World ρ σ π :=
  w.changeRoster id (·.place entry side other)

/-- A request of an entry is granted just if the entry is there; whether `other` is there is all
one. -/
theorem place_granted_iff (w : World ρ σ π) (id : RosterId) (entry : Key) (side : Side) (other : Key) :
    (w.place id entry side other).1 = .ok () ↔ entry ∈ (w.roster id).keys := by
  unfold place changeRoster
  rw [← Roster.contains_iff]
  split
  case h_1 heq => simp [raise, (Roster.place_eq_error_iff.1 heq).1]
  case h_2 heq => simp [(Roster.place_eq_ok_iff.1 heq).1]

/-- The entries of a roster in the order in which they are produced, by `Roster.order`. The fault of
a contradiction is noted. -/
def ordered (w : World ρ σ π) (id : RosterId) :
    Except Fault (List (Entry (Provider ρ))) × World ρ σ π :=
  match (w.roster id).order with
  | .error fault => w.raise fault
  | .ok entries => (.ok entries, w)

theorem ordered_of_ok {w : World ρ σ π} {id : RosterId} {entries : List (Entry (Provider ρ))}
    (h : (w.roster id).order = .ok entries) : w.ordered id = (.ok entries, w) := by
  rw [ordered, h]

theorem ordered_of_error {w : World ρ σ π} {id : RosterId} {fault : Fault}
    (h : (w.roster id).order = .error fault) : w.ordered id = w.raise fault := by
  rw [ordered, h]

def orderedKeys (w : World ρ σ π) (id : RosterId) : Except Fault (List Key) × World ρ σ π :=
  let (entries, w) := w.ordered id
  (entries.map (·.map (·.key)), w)

/-! ### Catalogs on their own -/

/-- Puts an entry into a catalog, by `Directory.put`. -/
def putEntry (w : World ρ σ π) (id : CatalogId) (name : String) (provider : Provider ρ) :
    World ρ σ π :=
  let catalog := w.catalog id
  (w.note (.puttingEntry name catalog.map)).setCatalog id
    { catalog with entries := catalog.entries.put name provider }

/-! ### Collections by key -/

/-- The roster of the list that `list` was bound to, by `baseOr` with an empty list. The fault is
`typeMismatch` if the base is of another sort. -/
def openList (w : World ρ σ π) (id : InjectorId) (list : Key) :
    Except Fault RosterId × World ρ σ π :=
  let create := fun w : World ρ σ π =>
    let (roster, w) := w.newRoster list
    (.list roster, w)
  match w.baseOr id list create with
  | (.error fault, w) => (.error fault, w)
  | (.ok (.list roster), w) => (.ok roster, w)
  | (.ok _, w) => w.raise (.typeMismatch list "ListProvider")

/-- The catalog of the map that `map` was bound to, by `baseOr` with an empty map. The fault is
`typeMismatch` if the base is of another sort. -/
def openMap (w : World ρ σ π) (id : InjectorId) (map : Key) :
    Except Fault CatalogId × World ρ σ π :=
  let create := fun w : World ρ σ π =>
    let (catalog, w) := w.newCatalog map
    (.map catalog, w)
  match w.baseOr id map create with
  | (.error fault, w) => (.error fault, w)
  | (.ok (.map catalog), w) => (.ok catalog, w)
  | (.ok _, w) => w.raise (.typeMismatch map "MapProvider")

/-- Goes on with the roster that `openList` finds for `list`, unless there is none: then its fault
is the answer. -/
def withList {α : Type} (w : World ρ σ π) (id : InjectorId) (list : Key)
    (rest : RosterId → World ρ σ π → Except Fault α × World ρ σ π) : Except Fault α × World ρ σ π :=
  match w.openList id list with
  | (.error fault, w) => (.error fault, w)
  | (.ok roster, w) => rest roster w

/-- Adds an entry to the list of `list`, by `enrol`. -/
def contribute (w : World ρ σ π) (id : InjectorId) (list entry : Key) (provider : Provider ρ) :
    Except Fault Unit × World ρ σ π :=
  w.withList id list fun roster w => (.ok (), w.enrol roster entry provider)

/-- Adds an object to the list of `list` under a key of its own, by `enrolObject`, and gives that
key. -/
def contributeObject (w : World ρ σ π) (id : InjectorId) (list : Key) (object : Ref) :
    Except Fault Key × World ρ σ π :=
  w.withList id list fun roster w =>
    let (entry, w) := w.enrolObject roster list.type.element object
    (.ok entry, w)

/-- Adds given contents as new objects, each under a key of its own, by `enrolAll`. The list is
found once, so all of them come into the same roster. -/
def contributeAll (w : World ρ σ π) (id : InjectorId) (list : Key) (contents : List (Content π)) :
    Except Fault (List Key) × World ρ σ π :=
  w.withList id list fun roster w =>
    let (entries, w) := w.enrolAll roster list.type.element contents
    (.ok entries, w)

/-- Asks that an entry of the list of `list` stand on that side of `other`, by `place`. -/
def arrange (w : World ρ σ π) (id : InjectorId) (list entry : Key) (side : Side) (other : Key) :
    Except Fault Unit × World ρ σ π :=
  w.withList id list fun roster w => w.place roster entry side other

/-- The keys of the list of `list` in the order in which its entries are produced, by `ordered`. -/
def listOrder (w : World ρ σ π) (id : InjectorId) (list : Key) :
    Except Fault (List Key) × World ρ σ π :=
  w.withList id list fun roster w => w.orderedKeys roster

/-- Puts an entry into the map of `map`, by `putEntry`. -/
def contributeNamed (w : World ρ σ π) (id : InjectorId) (map : Key) (name : String)
    (provider : Provider ρ) : Except Fault Unit × World ρ σ π :=
  match w.openMap id map with
  | (.error fault, w) => (.error fault, w)
  | (.ok catalog, w) => (.ok (), w.putEntry catalog name provider)

end World

end Wiring
