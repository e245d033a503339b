import Wiring.Proofs.KeptBases

/-!
# Numbers of objects that are added without a key

An object that is added to a list without a key is known there by its number, which `World.entryNumber`
gives it when it is added first and finds again each time that it is added later. So `World.Numbers` relates
each object to at most one number (`Numbers.unique`) and each number to at most one object
(`Numbers.eq_of_same`), and neither an action nor anything in between takes a number back
(`KeepsNumbers.perform`, `Passes.keepsNumbers`).

Since no number is ever taken back, the numbers that a world comes to in the end tell under which key each
object was added on the way. `World.numbering` continues them to all objects, injectively
(`numbering_injective`), so a key is settled by the object and by a numbering that the world goes by
(`World.NumberedBy`), whatever the call that added the object has replied.

* **`World.numbers_iff`** — a number is the first place among `World.entered`, from which uniqueness
  in both directions follows.
* **`World.numbers_entryNumber`** — the number that is given back is the object's from then on.
* **`NumberedBy.entryNumber`** — so in terms of the numbers at the end, an object has been added
  under its own.
-/

namespace Wiring

variable {ρ σ π : Type}

/-- The function `Key.ofObject` tells objects of different numbers apart. -/
theorem Key.ofObject_injective (type : ValueType) : Function.Injective (Key.ofObject type) := by
  intro m n h
  cases h
  rfl

namespace World

/-- The object has been given the number, by `World.entryNumber`: it stands first at that place
among `World.entered`, as `numbers_iff` has it. -/
def Numbers (w : World ρ σ π) (object : Ref) (number : Nat) : Prop :=
  w.entered.idxOf? object = some number

/-- The numbers of `w` are those that `number` gives, as far as `w` has given any by
`World.Numbers`. -/
def NumberedBy (w : World ρ σ π) (number : Ref → Nat) : Prop :=
  ∀ object n, w.Numbers object n → number object = n

/-- What has a number in `w` has the same number in `after`, by `World.Numbers`. -/
def KeepsNumbers (w after : World ρ σ π) : Prop :=
  ∀ object n, w.Numbers object n → after.Numbers object n

/-- The number of each object: the one that `World.Numbers` says it has been given, or else one beyond all
that have been given. -/
def numbering (w : World ρ σ π) (object : Ref) : Nat :=
  (w.entered.idxOf? object).getD (w.entered.size + object.index)

variable {w between after : World ρ σ π} {object other : Ref} {m n : Nat}

/-- The number of an object is the place at which it stands first among `World.entered`. -/
theorem numbers_iff :
    w.Numbers object n ↔ w.entered[n]? = some object ∧ ∀ m < n, w.entered[m]? ≠ some object := by
  unfold Numbers
  rw [Array.idxOf?_eq_map_finIdxOf?_val, Option.map_eq_some_iff]
  constructor
  · rintro ⟨place, hplace, rfl⟩
    obtain ⟨hthere, hfirst⟩ := Array.finIdxOf?_eq_some_iff.1 hplace
    refine ⟨Array.getElem?_eq_some_iff.2 ⟨place.isLt, hthere⟩, fun m hm hsome => ?_⟩
    obtain ⟨hlt, heq⟩ := Array.getElem?_eq_some_iff.1 hsome
    exact hfirst ⟨m, hlt⟩ hm heq
  · rintro ⟨hthere, hfirst⟩
    obtain ⟨hlt, heq⟩ := Array.getElem?_eq_some_iff.1 hthere
    refine ⟨⟨n, hlt⟩, Array.finIdxOf?_eq_some_iff.2 ⟨heq, fun place hplace hsame => ?_⟩, rfl⟩
    exact hfirst place hplace (Array.getElem?_eq_some_iff.2 ⟨place.isLt, hsame⟩)

namespace Numbers

theorem unique (h : w.Numbers object m) (h' : w.Numbers object n) : m = n :=
  Option.some.inj (h.symm.trans h')

/-- Different objects have different numbers: at one place of `World.entered` there is one
object. -/
theorem eq_of_same (h : w.Numbers object n) (h' : w.Numbers other n) : object = other :=
  Option.some.inj ((numbers_iff.1 h).1.symm.trans (numbers_iff.1 h').1)

theorem lt_size (h : w.Numbers object n) : n < w.entered.size :=
  (Array.getElem?_eq_some_iff.1 (numbers_iff.1 h).1).1

/-- Another object that comes at the end of `World.entered` has no part in it. -/
theorem push (h : w.Numbers object n) (last : Ref) :
    ({ w with entered := w.entered.push last } : World ρ σ π).Numbers object n := by
  obtain ⟨hthere, hfirst⟩ := numbers_iff.1 h
  have hsame (m : Nat) (hm : m ≤ n) : (w.entered.push last)[m]? = w.entered[m]? := by
    rw [Array.getElem?_push_lt (Nat.lt_of_le_of_lt hm h.lt_size), Array.getElem?_eq_getElem]
  refine numbers_iff.2 ⟨(hsame n (Nat.le_refl n)).trans hthere, fun m hm => ?_⟩
  show (w.entered.push last)[m]? ≠ some object
  rw [hsame m (Nat.le_of_lt hm)]
  exact hfirst m hm

end Numbers

/-- The number that `World.entryNumber` gives back is the object's from then on. -/
theorem numbers_entryNumber (w : World ρ σ π) (object : Ref) :
    (w.entryNumber object).2.Numbers object (w.entryNumber object).1 := by
  unfold entryNumber
  split
  case h_1 hnumber => exact hnumber
  case h_2 hnew =>
    refine numbers_iff.2 ⟨Array.getElem?_push_size, fun m hm hsome => ?_⟩
    change (w.entered.push object)[m]? = some object at hsome
    rw [Array.getElem?_push_lt hm, ← Array.getElem?_eq_getElem hm] at hsome
    exact Array.idxOf?_eq_none_iff.1 hnew (Array.mem_of_getElem? hsome)

theorem numberedBy_numbering (w : World ρ σ π) : w.NumberedBy w.numbering := by
  intro object n hnumber
  unfold numbering
  rw [hnumber]
  rfl

/-- Different objects have different numbers by `World.numbering`: those that have been given are
different, and the others are as far beyond them as the objects' own places. -/
theorem numbering_injective (w : World ρ σ π) : Function.Injective w.numbering := by
  -- a number that has been given is below all that have not
  have hlt {object : Ref} {n : Nat} (h : w.Numbers object n) : w.numbering object < w.entered.size := by
    rw [numberedBy_numbering w object n h]
    exact h.lt_size
  have hbeyond {object : Ref} (h : w.entered.idxOf? object = none) :
      w.numbering object = w.entered.size + object.index := by
    unfold numbering
    rw [h]
    rfl
  intro a b hsame
  cases ha : w.entered.idxOf? a with
  | some m =>
    cases hb : w.entered.idxOf? b with
    | some n =>
      rw [numberedBy_numbering w a m ha, numberedBy_numbering w b n hb] at hsame
      subst hsame
      exact Numbers.eq_of_same ha hb
    | none =>
      have hless := hlt ha
      have hmore := hbeyond hb
      omega
  | none =>
    cases hb : w.entered.idxOf? b with
    | some n =>
      have hless := hlt hb
      have hmore := hbeyond ha
      omega
    | none =>
      rw [hbeyond ha, hbeyond hb] at hsame
      have hindex : a.index = b.index := by omega
      exact congrArg Ref.mk hindex

/-! ### Numbers are kept -/

namespace KeepsNumbers

theorem refl (w : World ρ σ π) : w.KeepsNumbers w :=
  fun _ _ h => h

theorem trans (h : w.KeepsNumbers between) (h' : between.KeepsNumbers after) : w.KeepsNumbers after :=
  fun object n hnumber => h' object n (h object n hnumber)

theorem of_eq (h : after.entered = w.entered) : w.KeepsNumbers after := by
  intro object n hnumber
  unfold Numbers
  rwa [h]

/-- Calls on a registry give no numbers, so `KeepsNumbers` is a `RegistryFrame`. -/
theorem registryFrame (id : InjectorId) :
    RegistryFrame id (KeepsNumbers : World ρ σ π → World ρ σ π → Prop) where
  refl := refl
  trans := trans
  note _ _ := of_eq rfl
  allocate _ _ := of_eq rfl
  newSlot _ := of_eq rfl
  newRoster _ _ := of_eq rfl
  newCatalog _ _ := of_eq rfl
  setBinding _ _ _ := of_eq rfl

theorem rosterFrame : RosterFrame (KeepsNumbers : World ρ σ π → World ρ σ π → Prop) where
  refl := refl
  trans := trans
  note _ _ := of_eq rfl
  allocate _ _ := of_eq rfl
  setRoster _ _ _ := of_eq rfl
  enter _ last _ _ _ hnumber := hnumber.push last

/-- No action takes a number back. Those on lists give numbers, by `World.entryNumber`; the others
leave `World.entered` as it is. -/
theorem perform (w : World ρ σ π) (action : Action ρ σ π) : w.KeepsNumbers (action.perform w).2 := by
  cases action
  -- calls on a registry
  case bind id key p scope => exact (registryFrame id).register w (.bindProvider key p scope)
  case changeScope id key scope => exact (registryFrame id).register w (.changeScope key scope)
  case decorate id key stage => exact (registryFrame id).register w (.decorate key stage)
  case shutDown id => exact (registryFrame id).register w .shutDown
  case openList id list => exact (registryFrame id).openList w list
  case openMap id map => exact (registryFrame id).openMap w map
  -- calls on a list
  case enrol roster entry p => exact rosterFrame.enrol w roster entry p
  case place roster entry side other => exact rosterFrame.place w roster entry side other
  case orderedKeys roster => exact rosterFrame.ordered w roster
  case contribute id list _ _ | contributeObject id list _ | contributeAll id list _ |
      arrange id list _ _ _ | listOrder id list =>
    exact ((registryFrame id).openList w list).trans (rosterFrame.perform rfl w)
  case contributeNamed id map name p =>
    have hopen : w.KeepsNumbers (w.openMap id map).2 := (registryFrame id).openMap w map
    show w.KeepsNumbers (w.contributeNamed id map name p).2
    unfold World.contributeNamed
    split
    case h_1 heq => rwa [heq] at hopen
    case h_2 heq =>
      rw [heq] at hopen
      exact hopen.trans (of_eq rfl)
  -- what only looks, or changes something else
  case binding id key => exact of_eq (SameStock.bindingOf w id key).entered
  case provider id key => exact of_eq (SameStock.providerOf w id key).entered
  case pushKey key => exact of_eq (SameStock.pushKey w key).entered
  all_goals exact of_eq rfl

end KeepsNumbers

/-- Whatever passes between two worlds, objects keep their numbers, call by call by
`KeepsNumbers.perform`. -/
theorem Passes.keepsNumbers {calls : List (Call ρ σ π)} (h : w.Passes calls after) :
    w.KeepsNumbers after := by
  induction h with
  | refl => exact .refl w
  | call _ action ih => exact ih.trans (.perform _ action)
  | own _ hsame ih => exact ih.trans (.of_eq hsame.entered)

namespace NumberedBy

variable {number : Ref → Nat}

/-- What numbers all that has been numbered in the end numbers what had been before, since
`KeepsNumbers` has taken nothing back. -/
theorem of_keeps (h : after.NumberedBy number) (hkeeps : w.KeepsNumbers after) : w.NumberedBy number :=
  fun object n hnumber => h object n (hkeeps object n hnumber)

/-- The object has been added under the number that it has in the end, by `numbers_entryNumber`. -/
theorem entryNumber (h : after.NumberedBy number) (hkeeps : (w.entryNumber object).2.KeepsNumbers after) :
    number object = (w.entryNumber object).1 :=
  h.of_keeps hkeeps object _ (w.numbers_entryNumber object)

end NumberedBy

end World

end Wiring
