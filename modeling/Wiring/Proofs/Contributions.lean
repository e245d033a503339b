import Mathlib.Data.List.Forall2
import Wiring.Proofs.EntryNumbers
import Wiring.Proofs.ListHistory

/-!
# Contributions to collections

A list and a map are both a table at a place of the world, to which entries are contributed one by
one (`Collection`). An action contributes to at most one table, either directly or through the key
that a builder has: `Collection.target` says to which, and `Collection.contributions` what it adds
there. What is added is told by the action and by the numbers of objects, not by its reply. What the
action makes of that table is the fold of its contributions (`Collection.collect`), and the other
tables it leaves alone (`Collection.follows`).

So after any calls a table holds what it held before with the contributions of all of them, each
made once (`Collection.collect_shares`), and while a key leads to the table those that were made
through the key (`Collection.collect_gathered`).

* **`World.keys_enrolAll`** and **`World.contents_enrolAll`** — of several contents each becomes a
  new object that holds it (`World.newObjects`), added under the key of its number.
* **`Collection.Takes`** and **`Collection.Spares`** — a table that has taken contributions and
  tables that are as they were; `Takes.enrolAll`, `Takes.request` and `Spares.perform` say which
  calls do which.
* **`Collection.share`** and **`Collection.gathered`** — what one call and what all calls contribute
  to a table.
-/

namespace Wiring

variable {ρ σ π : Type}

/-- The sorts of collections that there are builders for. -/
inductive Collection where
  | list
  | map

namespace Collection

/-- Where the entries are: the place of a `Roster` or of a `Catalog`. -/
def Place : Collection → Type
  | .list => RosterId
  | .map => CatalogId

/-- The entries, with what is known of them. -/
def Table (ρ : Type) : Collection → Type
  | .list => Roster (Provider ρ)
  | .map => Catalog (Provider ρ)

/-- What one call makes of the entries, if it is accepted: a `ListCall`, or a row for
`Directory.put`. -/
def Contribution (ρ : Type) : Collection → Type
  | .list => ListCall ρ
  | .map => String × Provider ρ

def contribute : (c : Collection) → c.Table ρ → c.Contribution ρ → Except Fault (c.Table ρ)
  | .list, roster, call => ListCall.change call roster
  | .map, catalog, row => .ok (Catalog.mk catalog.map (catalog.entries.put row.1 row.2))

/-- The table after contributions, which are made one after the other by `ListCall.change` or
`Directory.put`. The first that is refused is the outcome. -/
def collect (c : Collection) (table : c.Table ρ) (more : List (c.Contribution ρ)) :
    Except Fault (c.Table ρ) :=
  more.foldlM c.contribute table

/-- The provider of the collection whose entries are at a place. -/
def provider : (c : Collection) → c.Place → Provider ρ
  | .list, roster => .list roster
  | .map, catalog => .map catalog

def table (w : World ρ σ π) : (c : Collection) → c.Place → c.Table ρ
  | .list, roster => w.roster roster
  | .map, catalog => w.catalog catalog

/-- There are entries at the place, if only none. -/
def Known (w : World ρ σ π) : (c : Collection) → c.Place → Prop
  | .list, roster => roster.index < w.rosters.size
  | .map, catalog => catalog.index < w.catalogs.size

/-- The call for a builder, which sees to it that the key is bound to a collection. -/
def opens : Collection → InjectorId → Key → Action ρ σ π
  | .list, id, key => .openList id key
  | .map, id, key => .openMap id key

/-- The place that a builder works on, which it looks up for each of its calls by `World.openList`
or `World.openMap`. -/
def opened (w : World ρ σ π) (id : InjectorId) (key : Key) :
    (c : Collection) → Except Fault c.Place × World ρ σ π
  | .list => w.openList id key
  | .map => w.openMap id key

theorem collect_append (c : Collection) (table : c.Table ρ) (first more : List (c.Contribution ρ)) :
    c.collect table (first ++ more) = (c.collect table first).bind (c.collect · more) :=
  List.foldlM_append

end Collection

/-- What follows from a reply, if the call was accepted, and nothing if it was not. -/
def accepted {α β : Type} (reply : Except Fault α) (more : List β) : List β :=
  match reply with
  | .ok _ => more
  | .error _ => []

/-- The call that adds an object under `Key.ofObject` of its number, as an object to complete by the
hooks of the elements of the list. -/
def ListCall.addObject (number : Ref → Nat) (type : ValueType) (object : Ref) : ListCall ρ :=
  .add (.ofObject type (number object)) (.completing type object)

/-- The objects that `World.allocate` makes of that many contents, which are numbered on from those
that there are. -/
def World.newObjects (w : World ρ σ π) (count : Nat) : List Ref :=
  (List.range' w.objects.size count).map Ref.mk

namespace World

/-! ### Objects that are made on the way -/

theorem newObjects_succ {w after : World ρ σ π} (h : after.objects.size = w.objects.size + 1) (count : Nat) :
    w.newObjects (count + 1) = ⟨w.objects.size⟩ :: after.newObjects count := by
  unfold newObjects
  rw [h, List.range'_succ]
  rfl

theorem objects_enrolObject (w : World ρ σ π) (roster : RosterId) (type : ValueType) (object : Ref) :
    (w.enrolObject roster type object).2.objects = w.objects := by
  show (w.entryNumber object).2.objects = w.objects
  unfold entryNumber
  split <;> rfl

/-- Numbering an object makes none, so after the first content the next object of `World.newObjects`
is that of the next one. -/
theorem objects_enrolAll_first (w : World ρ σ π) (roster : RosterId) (type : ValueType)
    (content : Content π) :
    ((w.allocate content).2.enrolObject roster type ⟨w.objects.size⟩).2.objects =
      w.objects.push content :=
  objects_enrolObject _ _ _ _

theorem objects_enrolAll (w : World ρ σ π) (roster : RosterId) (type : ValueType)
    (contents : List (Content π)) :
    (w.enrolAll roster type contents).2.objects = w.objects ++ contents.toArray := by
  induction contents generalizing w with
  | nil => exact (Array.append_empty).symm
  | cons content rest ih =>
    let v := ((w.allocate content).2.enrolObject roster type ⟨w.objects.size⟩).2
    have hfirst : v.objects = w.objects.push content := w.objects_enrolAll_first roster type content
    show (v.enrolAll roster type rest).2.objects = _
    rw [ih v, hfirst]
    simp

theorem objects_openList (w : World ρ σ π) (id : InjectorId) (list : Key) :
    (w.openList id list).2.objects = w.objects := by
  unfold openList baseOr
  cases (w.injector id).find list with
  | error _ => rfl
  | ok found =>
    cases found with
    | none => rfl
    | some binding => cases hbase : binding.base <;> simp only [hbase] <;> rfl

/-- The new objects of `World.enrolAll` hold the contents that they were made of, in their order. -/
theorem contents_enrolAll (w : World ρ σ π) (roster : RosterId) (type : ValueType)
    (contents : List (Content π)) :
    List.Forall₂ (fun object content => (w.enrolAll roster type contents).2.content? object = some content)
      (w.newObjects contents.length) contents := by
  induction contents generalizing w with
  | nil => exact .nil
  | cons content rest ih =>
    let v := ((w.allocate content).2.enrolObject roster type ⟨w.objects.size⟩).2
    have hfirst : v.objects = w.objects.push content := w.objects_enrolAll_first roster type content
    have hsize : v.objects.size = w.objects.size + 1 := by rw [hfirst, Array.size_push]
    rw [List.length_cons, newObjects_succ hsize]
    refine .cons ?_ (ih v)
    show (v.enrolAll roster type rest).2.objects[w.objects.size]? = some content
    rw [objects_enrolAll, Array.getElem?_append_left (by omega), hfirst]
    exact Array.getElem?_push_size

/-- They are added under the keys of the numbers that they have in the end, by `NumberedBy`. -/
theorem keys_enrolAll (w : World ρ σ π) (roster : RosterId) (type : ValueType) (contents : List (Content π))
    {number : Ref → Nat} (hnumber : (w.enrolAll roster type contents).2.NumberedBy number) :
    (w.enrolAll roster type contents).1 =
      (w.newObjects contents.length).map fun object => .ofObject type (number object) := by
  induction contents generalizing w with
  | nil => rfl
  | cons content rest ih =>
    let u := (w.allocate content).2
    let v := (u.enrolObject roster type ⟨w.objects.size⟩).2
    have hsize : v.objects.size = w.objects.size + 1 := by
      rw [w.objects_enrolAll_first, Array.size_push]
    have hkeeps : (u.entryNumber ⟨w.objects.size⟩).2.KeepsNumbers (v.enrolAll roster type rest).2 :=
      (KeepsNumbers.rosterFrame.enrol _ roster _ _).trans (KeepsNumbers.rosterFrame.enrolAll v roster type rest)
    rw [List.length_cons, newObjects_succ hsize, List.map_cons, ← ih v hnumber, hnumber.entryNumber hkeeps]
    rfl

end World

namespace Action

/-- The injector and the key through which an action contributes to a list, if it does so through a
key. -/
def throughList : Action ρ σ π → Option (InjectorId × Key)
  | .contribute id list _ _ => some (id, list)
  | .contributeObject id list _ => some (id, list)
  | .contributeAll id list _ => some (id, list)
  | .arrange id list _ _ _ => some (id, list)
  | _ => none

/-- The injector and the key through which an action contributes to a map, if it does so through a
key. -/
def throughMap : Action ρ σ π → Option (InjectorId × Key)
  | .contributeNamed id map _ _ => some (id, map)
  | _ => none

/-- The roster that an action in `w` contributes to, which it is told or finds through its key by
`World.openList`. -/
def listTarget (w : World ρ σ π) : Action ρ σ π → Option RosterId
  | .enrol target _ _ => some target
  | .place target _ _ _ => some target
  | action => action.throughList.bind fun (id, list) => (w.openList id list).1.toOption

/-- The calls on a roster that an action in `w` comes to. What is added is told by the action alone,
with the number of each object that is added without a key; only whether a request for an order is
granted shows in the reply. -/
def listCalls (number : Ref → Nat) (w : World ρ σ π) : Action ρ σ π → List (ListCall ρ)
  | .enrol _ entry p => [.add entry p]
  | .contribute _ _ entry p => [.add entry p]
  | .contributeObject _ list object => [.addObject number list.type.element object]
  | .contributeAll _ list contents =>
    (w.newObjects contents.length).map (.addObject number list.type.element)
  | .place target entry side other =>
    accepted (w.place target entry side other).1 [.place entry side other]
  | .arrange id list entry side other =>
    accepted (w.arrange id list entry side other).1 [.place entry side other]
  | _ => []

/-- The catalog that an action in `w` contributes to, which it is told or finds through its key by
`World.openMap`. -/
def mapTarget (w : World ρ σ π) : Action ρ σ π → Option CatalogId
  | .putEntry target _ _ => some target
  | action => action.throughMap.bind fun (id, map) => (w.openMap id map).1.toOption

/-- The rows that an action puts into a catalog, told by the action alone. -/
def mapRows : Action ρ σ π → List (String × Provider ρ)
  | .putEntry _ name p => [(name, p)]
  | .contributeNamed _ _ name p => [(name, p)]
  | _ => []

/-- Whether the action is one of those that contribute to a collection, directly or through a
key. -/
def contributes : Action ρ σ π → Bool
  | .enrol _ _ _ => true
  | .place _ _ _ _ => true
  | .putEntry _ _ _ => true
  | .contribute _ _ _ _ => true
  | .contributeObject _ _ _ => true
  | .contributeAll _ _ _ => true
  | .arrange _ _ _ _ _ => true
  | .contributeNamed _ _ _ _ => true
  | _ => false

end Action

namespace Collection

/-- The injector and the key through which an action contributes, by `throughList` or
`throughMap`. -/
def through : Collection → Action ρ σ π → Option (InjectorId × Key)
  | .list => Action.throughList
  | .map => Action.throughMap

/-- The place that an action in `w` contributes to, by `listTarget` or `mapTarget`. -/
def target (w : World ρ σ π) : (c : Collection) → Action ρ σ π → Option c.Place
  | .list => Action.listTarget w
  | .map => Action.mapTarget w

/-- What an action in `w` contributes, by `listCalls` or `mapRows`, where objects that are added
without a key are numbered by `number`. -/
def contributions (number : Ref → Nat) (w : World ρ σ π) :
    (c : Collection) → Action ρ σ π → List (c.Contribution ρ)
  | .list => Action.listCalls number w
  | .map => Action.mapRows

/-- The place that an action in `w` contributes to, and what it contributes there: `target` with
`contributions`. -/
def effect (number : Ref → Nat) (w : World ρ σ π) (c : Collection) (action : Action ρ σ π) :
    Option (c.Place × List (c.Contribution ρ)) :=
  (c.target w action).map (·, c.contributions number w action)

/-! ### Tables that stay as they are -/

/-- No entries are lost, and none of those that there are have changed. -/
def Spares (c : Collection) (w after : World ρ σ π) : Prop :=
  ∀ place, c.Known w place → c.Known after place ∧ c.table after place = c.table w place

/-- The contributions have been made at the place, as `collect` makes them, and nothing else has
changed. -/
structure Takes (c : Collection) (place : c.Place) (more : List (c.Contribution ρ))
    (w after : World ρ σ π) : Prop where
  known : ∀ other, c.Known w other → c.Known after other
  table : c.Known w place → c.collect (c.table w place) more = .ok (c.table after place)
  others : ∀ other, other ≠ place → c.Known w other → c.table after other = c.table w other

/-- What an action in `w` that leads to `after` does to the tables, given what it is to do: `Takes`
at the place, or `Spares` if it contributes nothing. -/
def Follows (c : Collection) (w after : World ρ σ π) :
    Option (c.Place × List (c.Contribution ρ)) → Prop
  | none => c.Spares w after
  | some (place, more) => c.Takes place more w after

variable {c : Collection} {w between after : World ρ σ π} {place : c.Place}
variable {more rest : List (c.Contribution ρ)}

namespace Spares

theorem refl (w : World ρ σ π) : c.Spares w w :=
  fun _ hknown => ⟨hknown, rfl⟩

theorem trans (h : c.Spares w between) (h' : c.Spares between after) : c.Spares w after := by
  intro place hknown
  obtain ⟨hbetween, htable⟩ := h place hknown
  obtain ⟨hafter, htable'⟩ := h' place hbetween
  exact ⟨hafter, htable'.trans htable⟩

/-- What happens to maps does not matter to lists. -/
theorem list_of_rosters (h : after.rosters = w.rosters) : Spares .list w after := by
  intro place hknown
  constructor
  · show place.index < after.rosters.size
    rwa [h]
  · show (after.rosters[place.index]?).getD _ = (w.rosters[place.index]?).getD _
    rw [h]

theorem map_of_catalogs (h : after.catalogs = w.catalogs) : Spares .map w after := by
  intro place hknown
  constructor
  · show place.index < after.catalogs.size
    rwa [h]
  · show (after.catalogs[place.index]?).getD _ = (w.catalogs[place.index]?).getD _
    rw [h]

theorem of_eq (hrosters : after.rosters = w.rosters) (hcatalogs : after.catalogs = w.catalogs) :
    c.Spares w after := by
  cases c with
  | list => exact list_of_rosters hrosters
  | map => exact map_of_catalogs hcatalogs

theorem of_sameStock (h : w.SameStock after) : c.Spares w after :=
  of_eq h.rosters h.catalogs

theorem newRoster (w : World ρ σ π) (list : Key) : c.Spares w (w.newRoster list).2 := by
  cases c with
  | map => exact map_of_catalogs rfl
  | list =>
    intro place hknown
    change place.index < w.rosters.size at hknown
    constructor
    · show place.index < (w.rosters.push { list }).size
      rw [Array.size_push]
      exact Nat.lt_succ_of_lt hknown
    · show ((w.rosters.push { list })[place.index]?).getD _ = (w.rosters[place.index]?).getD _
      rw [Array.getElem?_push_lt hknown, Array.getElem?_eq_getElem hknown]

theorem newCatalog (w : World ρ σ π) (map : Key) : c.Spares w (w.newCatalog map).2 := by
  cases c with
  | list => exact list_of_rosters rfl
  | map =>
    intro place hknown
    change place.index < w.catalogs.size at hknown
    constructor
    · show place.index < (w.catalogs.push { map }).size
      rw [Array.size_push]
      exact Nat.lt_succ_of_lt hknown
    · show ((w.catalogs.push { map })[place.index]?).getD _ = (w.catalogs[place.index]?).getD _
      rw [Array.getElem?_push_lt hknown, Array.getElem?_eq_getElem hknown]

theorem entryNumber (w : World ρ σ π) (object : Ref) : c.Spares w (w.entryNumber object).2 := by
  unfold World.entryNumber
  split
  case h_1 => exact refl w
  case h_2 => exact of_eq rfl rfl

/-- Calls on a list leave the maps alone, so `Spares` of maps is a `RosterFrame`. -/
theorem rosterFrame : World.RosterFrame (Spares .map : World ρ σ π → World ρ σ π → Prop) where
  refl := refl
  trans := trans
  note _ _ := of_eq rfl rfl
  allocate _ _ := of_eq rfl rfl
  setRoster _ _ _ := map_of_catalogs rfl
  enter _ _ _ := of_eq rfl rfl

/-- Calls on a registry leave the tables alone, so `Spares` is a `RegistryFrame`; a new collection
comes at a new place. -/
theorem registryFrame (id : InjectorId) :
    World.RegistryFrame id (c.Spares : World ρ σ π → World ρ σ π → Prop) where
  refl := refl
  trans := trans
  note _ _ := of_eq rfl rfl
  allocate _ _ := of_eq rfl rfl
  newSlot _ := of_eq rfl rfl
  newRoster := newRoster
  newCatalog := newCatalog
  setBinding _ _ _ := of_eq rfl rfl

end Spares

/-! ### Contributions to one table -/

namespace Takes

theorem of_spares (h : c.Spares w after) : c.Takes place [] w after where
  known other hknown := (h other hknown).1
  table hknown := congrArg Except.ok (h place hknown).2.symm
  others other _ hknown := (h other hknown).2

theorem trans (h : c.Takes place more w between) (h' : c.Takes place rest between after) :
    c.Takes place (more ++ rest) w after where
  known other hknown := h'.known other (h.known other hknown)
  table hknown := by
    rw [collect_append, h.table hknown]
    exact h'.table (h.known place hknown)
  others other hother hknown :=
    (h'.others other hother (h.known other hknown)).trans (h.others other hother hknown)

/-- What spares the tables, such as finding the collection, may come first. -/
theorem after_spares (h : c.Spares w between) (h' : c.Takes place more between after) :
    c.Takes place more w after :=
  (of_spares h).trans h'

theorem setRoster (w : World ρ σ π) (roster : RosterId) {table : Roster (Provider ρ)}
    {more : List (ListCall ρ)} (h : collect .list (w.roster roster) more = .ok table) :
    Takes .list roster more w (w.setRoster roster table) where
  known other hknown := by
    show other.index < (w.setRoster roster table).rosters.size
    rwa [World.size_rosters_setRoster]
  table hknown := by
    show collect .list (w.roster roster) more = .ok ((w.setRoster roster table).roster roster)
    rw [World.roster_setRoster w table hknown]
    exact h
  others other hother _ := by
    have hne : roster.index ≠ other.index := fun heq => hother (congrArg RosterId.mk heq).symm
    show ((w.rosters.setIfInBounds roster.index table)[other.index]?).getD _ = _
    rw [Array.getElem?_setIfInBounds_ne hne]
    rfl

theorem enrol (w : World ρ σ π) (roster : RosterId) (entry : Key) (p : Provider ρ) :
    Takes .list roster [.add entry p] w (w.enrol roster entry p) := by
  let v := w.setRoster roster ((w.roster roster).add entry p)
  have hset : Takes .list roster [.add entry p] w v := setRoster w roster rfl
  have hnote : Takes .list roster [] v (w.enrol roster entry p) := of_spares (Spares.of_eq rfl rfl)
  exact hset.trans hnote

/-- An object is added under the key of the number that it has in the end, by
`NumberedBy.entryNumber`. -/
theorem enrolObject (w : World ρ σ π) (roster : RosterId) (type : ValueType) (object : Ref)
    {number : Ref → Nat} (hnumber : (w.enrolObject roster type object).2.NumberedBy number) :
    Takes .list roster [.addObject number type object] w (w.enrolObject roster type object).2 := by
  have hkeeps : (w.entryNumber object).2.KeepsNumbers (w.enrolObject roster type object).2 :=
    World.KeepsNumbers.rosterFrame.enrol _ roster _ _
  unfold ListCall.addObject
  rw [hnumber.entryNumber hkeeps]
  exact after_spares (Spares.entryNumber w object) (enrol _ roster _ _)

/-- Objects that are added one after the other by `World.enrolAll`, each made new before it is. By
induction on the contents, each by `Takes.enrolObject`. -/
theorem enrolAll (w : World ρ σ π) (roster : RosterId) (type : ValueType) (contents : List (Content π))
    {number : Ref → Nat} (hnumber : (w.enrolAll roster type contents).2.NumberedBy number) :
    Takes .list roster ((w.newObjects contents.length).map (.addObject number type)) w
      (w.enrolAll roster type contents).2 := by
  induction contents generalizing w with
  | nil => exact of_spares (Spares.refl w)
  | cons content rest ih =>
    let u := (w.allocate content).2
    let v := (u.enrolObject roster type ⟨w.objects.size⟩).2
    have hmade : Spares .list w u := Spares.of_eq rfl rfl
    have hkeeps : v.KeepsNumbers (v.enrolAll roster type rest).2 :=
      World.KeepsNumbers.rosterFrame.enrolAll v roster type rest
    have hfirst := after_spares hmade (enrolObject u roster type _ (hnumber.of_keeps hkeeps))
    -- numbering an object makes none, so the next one is that of the next content
    have hsize : v.objects.size = w.objects.size + 1 := by
      rw [w.objects_enrolAll_first, Array.size_push]
    rw [List.length_cons, World.newObjects_succ hsize]
    exact hfirst.trans (ih v hnumber)

/-- A request is granted if the call is accepted, and then it is a contribution; else nothing has
changed. -/
theorem request (w : World ρ σ π) (roster : RosterId) (entry : Key) (side : Side) (other : Key) :
    Takes .list roster (accepted (w.place roster entry side other).1 [.place entry side other]) w
      (w.place roster entry side other).2 := by
  unfold World.place World.changeRoster
  split
  case h_1 => exact of_spares (Spares.of_eq rfl rfl)
  case h_2 table heq =>
    refine setRoster w roster ?_
    change (w.roster roster).place entry side other = .ok table at heq
    show ((w.roster roster).place entry side other).bind pure = .ok table
    rw [heq]
    rfl

theorem putEntry (w : World ρ σ π) (catalog : CatalogId) (name : String) (p : Provider ρ) :
    Takes .map catalog [(name, p)] w (w.putEntry catalog name p) where
  known other hknown := by
    show other.index < (w.catalogs.setIfInBounds catalog.index _).size
    rwa [Array.size_setIfInBounds]
  table hknown := by
    show _ = Except.ok (((w.catalogs.setIfInBounds catalog.index _)[catalog.index]?).getD _)
    rw [Array.getElem?_setIfInBounds_self_of_lt hknown]
    rfl
  others other hother _ := by
    have hne : catalog.index ≠ other.index := fun heq => hother (congrArg CatalogId.mk heq).symm
    show ((w.catalogs.setIfInBounds catalog.index _)[other.index]?).getD _ = _
    rw [Array.getElem?_setIfInBounds_ne hne]
    rfl

end Takes

/-! ### What each action does to the tables -/

/-- An action that contributes nothing, by `Action.contributes`, leaves the tables alone. -/
theorem Spares.perform {action : Action ρ σ π} (h : action.contributes = false) (w : World ρ σ π) :
    c.Spares w (action.perform w).2 := by
  cases action
  -- calls on a registry
  case bind id key p scope => exact (registryFrame id).register w (.bindProvider key p scope)
  case changeScope id key scope => exact (registryFrame id).register w (.changeScope key scope)
  case decorate id key stage => exact (registryFrame id).register w (.decorate key stage)
  case shutDown id => exact (registryFrame id).register w .shutDown
  case openList id list => exact (registryFrame id).register w (.listBuilder list)
  case openMap id map => exact (registryFrame id).register w (.mapBuilder map)
  case listOrder id list =>
    have hopen : c.Spares w (w.openList id list).2 := (registryFrame id).openList w list
    exact hopen.trans (World.withList_rest refl w id list fun roster v => of_sameStock (.ordered v roster))
  -- new collections
  case newRoster list => exact newRoster w list
  case newCatalog map => exact newCatalog w map
  -- what only looks, or changes something else
  case binding id key => exact of_sameStock (.bindingOf w id key)
  case provider id key => exact of_sameStock (.providerOf w id key)
  case orderedKeys roster => exact of_sameStock (.ordered w roster)
  case pushKey key => exact of_sameStock (.pushKey w key)
  all_goals first
    | exact of_eq rfl rfl
    | cases h

namespace Follows

/-- What is done with a list once `World.openList` has found it, or nothing if it has not. -/
theorem withList {α : Type} (w : World ρ σ π) (id : InjectorId) (list : Key)
    {rest : RosterId → World ρ σ π → Except Fault α × World ρ σ π} {more : List (ListCall ρ)}
    (hrest : ∀ roster u, w.openList id list = (.ok roster, u) → Takes .list roster more u (rest roster u).2) :
    Follows .list w (w.withList id list rest).2 ((w.openList id list).1.toOption.map (·, more)) := by
  have hopen : Spares .list w (w.openList id list).2 := (Spares.registryFrame id).openList w list
  unfold World.withList
  cases heq : w.openList id list with
  | mk found u =>
    rw [heq] at hopen
    cases found with
    | error _ => exact hopen
    | ok roster => exact (hrest roster u heq).after_spares hopen

/-- Lists take what is contributed to them, and what contributes to a map spares them. Objects that
are added without a key have the numbers that the world comes to, whatever the action replies. -/
theorem list (w : World ρ σ π) (action : Action ρ σ π) {number : Ref → Nat}
    (hnumber : (action.perform w).2.NumberedBy number) :
    Follows .list w (action.perform w).2 (effect number w .list action) := by
  cases action
  case enrol roster entry p => exact .enrol w roster entry p
  case place roster entry side other => exact .request w roster entry side other
  case contribute id list entry p => exact withList w id list fun roster u _ => .enrol u roster entry p
  case contributeObject id list object =>
    refine withList w id list fun roster u heq => .enrolObject u roster _ object ?_
    change (w.contributeObject id list object).2.NumberedBy number at hnumber
    unfold World.contributeObject World.withList at hnumber
    rwa [heq] at hnumber
  case contributeAll id list contents =>
    refine withList w id list fun roster u heq => ?_
    have hobjects : u.objects = w.objects := by
      rw [← w.objects_openList id list, heq]
    have hnew : u.newObjects contents.length = w.newObjects contents.length := by
      unfold World.newObjects
      rw [hobjects]
    change (w.contributeAll id list contents).2.NumberedBy number at hnumber
    unfold World.contributeAll World.withList at hnumber
    rw [heq] at hnumber
    have htakes := Takes.enrolAll u roster list.type.element contents hnumber
    rw [hnew] at htakes
    exact htakes
  case arrange id list entry side other =>
    refine withList w id list fun roster u heq => ?_
    have hreply : (u.place roster entry side other).1 = (w.arrange id list entry side other).1 := by
      unfold World.arrange World.withList
      rw [heq]
    have htakes := Takes.request u roster entry side other
    rw [hreply] at htakes
    exact htakes
  case putEntry catalog name p => exact Spares.list_of_rosters rfl
  case contributeNamed id map name p =>
    show Spares .list w (w.contributeNamed id map name p).2
    -- the map may be made for this, which is no list
    have hopen : Spares .list w (w.openMap id map).2 := (Spares.registryFrame id).openMap w map
    unfold World.contributeNamed
    split
    case h_1 heq => rwa [heq] at hopen
    case h_2 heq =>
      rw [heq] at hopen
      exact hopen.trans (Spares.list_of_rosters rfl)
  all_goals exact Spares.perform rfl w

/-- Maps take what is contributed to them, and what contributes to a list spares them; here no
numbers are needed. -/
theorem map (w : World ρ σ π) (action : Action ρ σ π) (number : Ref → Nat) :
    Follows .map w (action.perform w).2 (effect number w .map action) := by
  have hopen (id : InjectorId) (list : Key) : Spares .map w (w.openList id list).2 :=
    (Spares.registryFrame id).openList w list
  cases action
  case putEntry catalog name p => exact .putEntry w catalog name p
  case contributeNamed id map name p =>
    have hmap : Spares .map w (w.openMap id map).2 := (Spares.registryFrame id).openMap w map
    show Follows .map w (w.contributeNamed id map name p).2
      ((w.openMap id map).1.toOption.map (·, [(name, p)]))
    unfold World.contributeNamed
    generalize w.openMap id map = opened at hmap
    cases opened with
    | mk found u =>
      cases found with
      | error _ => exact hmap
      | ok catalog => exact (Takes.putEntry u catalog name p).after_spares hmap
  case enrol roster entry p => exact Spares.rosterFrame.enrol w roster entry p
  case place roster entry side other => exact Spares.rosterFrame.place w roster entry side other
  case contribute id list _ _ | contributeObject id list _ | contributeAll id list _ |
      arrange id list _ _ _ =>
    exact (hopen id list).trans (Spares.rosterFrame.perform rfl w)
  all_goals exact Spares.perform rfl w

end Follows

/-- An action changes the table that it contributes to by its `effect`, and no other. -/
theorem follows (c : Collection) (w : World ρ σ π) (action : Action ρ σ π) {number : Ref → Nat}
    (hnumber : (action.perform w).2.NumberedBy number) :
    c.Follows w (action.perform w).2 (c.effect number w action) := by
  cases c with
  | list => exact Follows.list w action hnumber
  | map => exact Follows.map w action number

/-! ### What calls make of a table -/

instance : (c : Collection) → DecidableEq c.Place
  | .list => inferInstanceAs (DecidableEq RosterId)
  | .map => inferInstanceAs (DecidableEq CatalogId)

/-- What a call contributes at a place, where objects that are added without a key are numbered by
`number`: its `contributions` if the place is its `target`, else nothing. -/
def share (c : Collection) (number : Ref → Nat) (place : c.Place) (call : Call ρ σ π) :
    List (c.Contribution ρ) :=
  if c.target call.before call.action = some place then c.contributions number call.before call.action else []

/-- What is at a place is what was there before, with the `share` of each call made one after the
other. By induction on the passage, each call by `follows`. -/
theorem collect_shares {calls : List (Call ρ σ π)} {number : Ref → Nat} (h : w.Passes calls after)
    (hnumber : after.NumberedBy number) (hknown : c.Known w place) :
    c.Known after place ∧
      c.collect (c.table w place) (calls.flatMap (c.share number place)) = .ok (c.table after place) := by
  induction h with
  | refl => exact ⟨hknown, rfl⟩
  | own _ hsame ih =>
    obtain ⟨hbefore, hcollect⟩ := ih (hnumber.of_keeps (.of_eq hsame.entered))
    obtain ⟨hafter, htable⟩ := Spares.of_sameStock hsame place hbefore
    exact ⟨hafter, hcollect.trans (congrArg Except.ok htable.symm)⟩
  | @call v calls _ action ih =>
    obtain ⟨hbefore, hcollect⟩ := ih (hnumber.of_keeps (.perform v action))
    have hfollows := c.follows v action hnumber
    rw [List.flatMap_append, List.flatMap_singleton, collect_append, hcollect]
    show _ ∧ c.collect (c.table v place) (c.share number place ⟨action, v⟩) = _
    unfold share effect at *
    cases htarget : c.target v action with
    | none =>
      rw [htarget] at hfollows
      obtain ⟨hafter, htable⟩ := hfollows place hbefore
      rw [if_neg (fun heq => nomatch heq)]
      exact ⟨hafter, congrArg Except.ok htable.symm⟩
    | some other =>
      rw [htarget] at hfollows
      refine ⟨hfollows.known place hbefore, ?_⟩
      by_cases hplace : other = place
      · subst hplace
        rw [if_pos rfl]
        exact hfollows.table hbefore
      · -- it contributes elsewhere
        rw [if_neg (fun heq => hplace (Option.some.inj heq))]
        exact congrArg Except.ok (hfollows.others place (Ne.symm hplace) hbefore).symm

/-! ### What calls through a key make of a table -/

/-- What an action through a key contributes, it contributes where the key leads to: that is its
`target`. -/
theorem target_of_opened {action : Action ρ σ π} {id : InjectorId} {key : Key}
    (hthrough : c.through action = some (id, key)) (hopened : (c.opened w id key).1 = .ok place) :
    c.target w action = some place := by
  have hfound : (c.opened w id key).1.toOption = some place := by
    rw [hopened]
    rfl
  cases c <;> cases action <;> first
    | cases hthrough
      exact hfound
    | cases hthrough

/-- What calls contribute through one key, where objects that are added without a key are numbered
by `number`: the `contributions` of each whose `through` is that key. -/
def gathered (c : Collection) (number : Ref → Nat) (id : InjectorId) (key : Key)
    (calls : List (Call ρ σ π)) : List (c.Contribution ρ) :=
  calls.flatMap fun call =>
    if c.through call.action = some (id, key) then c.contributions number call.before call.action else []

/-- The call contributes nothing at the place, unless it does so through the key. -/
def SolelyThrough (c : Collection) (id : InjectorId) (key : Key) (place : c.Place)
    (call : Call ρ σ π) : Prop :=
  c.target call.before call.action = some place → c.through call.action = some (id, key)

/-- While a key leads to a place to which nothing else contributes, what is there is what was there
before, with what was `gathered` through the key, made one after the other. -/
theorem collect_gathered {id : InjectorId} {key : Key} {calls : List (Call ρ σ π)} {number : Ref → Nat}
    (h : w.Passes calls after) (hnumber : after.NumberedBy number) (hknown : c.Known w place)
    (hopened : ∀ call ∈ calls, (c.opened call.before id key).1 = .ok place)
    (hsolely : ∀ call ∈ calls, c.SolelyThrough id key place call) :
    c.Known after place ∧
      c.collect (c.table w place) (c.gathered number id key calls) = .ok (c.table after place) := by
  have hshares : c.gathered number id key calls = calls.flatMap (c.share number place) := by
    refine List.flatMap_congr fun call hcall => ?_
    unfold share
    by_cases hthrough : c.through call.action = some (id, key)
    · rw [if_pos hthrough, if_pos (target_of_opened hthrough (hopened call hcall))]
    · -- it contributes elsewhere, since nothing else contributes here
      have helsewhere : c.target call.before call.action ≠ some place :=
        fun htarget => hthrough (hsolely call hcall htarget)
      rw [if_neg hthrough, if_neg helsewhere]
  rw [hshares]
  exact collect_shares h hnumber hknown

end Collection

end Wiring
