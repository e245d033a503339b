import Mathlib.Data.List.Forall2
import Wiring.World

/-!
# What objects hold

An object of a list or map holds other objects, and so on down to what the host put there. The whole
of it is a `Value`. An object that holds a value holds it for as long as objects are only added
(`World.Holds.mono`), whatever else happens to the world.

Outcomes are compared by `Accord`: values by a relation, and faults by `Fault.Alike`, which leaves
open only which cycle a contradictory order is blamed on.

* **`Holds.unique`** — the value is determined by the object, so a result about values is one about
  objects.
* **`Accord.join`** — two outcomes that agree with a third agree with each other.
-/

namespace Wiring

/-- What an object holds, down to what the host put there: a payload, or the values of the elements
of a list or map. -/
inductive Value (π : Type) where
  | plain (payload : π)
  | list (elements : List (Value π))
  | map (entries : List (String × Value π))

variable {ρ σ π : Type}

namespace World

/-- Each object that there is in `w` is there in `after`, and holds the same by `World.content?`. -/
def Extends (w after : World ρ σ π) : Prop :=
  ∀ object content, w.content? object = some content → after.content? object = some content

theorem Extends.refl (w : World ρ σ π) : w.Extends w :=
  fun _ _ h => h

theorem Extends.trans {w between after : World ρ σ π} (h : w.Extends between)
    (k : between.Extends after) : w.Extends after :=
  fun object content hc => k object content (h object content hc)

theorem extends_of_objects {w after : World ρ σ π} (h : after.objects = w.objects) :
    w.Extends after := by
  intro object content hc
  rw [content?, h]
  exact hc

theorem extends_allocate (w : World ρ σ π) (content : Content π) :
    w.Extends (w.allocate content).2 := by
  intro object old hold
  obtain ⟨hlt, -⟩ := Array.getElem?_eq_some_iff.1 hold
  show (w.objects.push content)[object.index]? = some old
  rw [Array.getElem?_push, if_neg (Nat.ne_of_lt hlt)]
  exact hold

theorem content?_allocate (w : World ρ σ π) (content : Content π) :
    (w.allocate content).2.content? (w.allocate content).1 = some content :=
  Array.getElem?_push_size

/-- The object holds the value: its own `Content`, with the values of the elements put in for
them. -/
inductive Holds (w : World ρ σ π) : Ref → Value π → Prop
  | plain {object : Ref} {payload : π} (h : w.content? object = some (.plain payload)) :
      Holds w object (.plain payload)
  | list {object : Ref} {elements : List Ref} {values : List (Value π)}
      (h : w.content? object = some (.list elements)) (hlength : elements.length = values.length)
      (helements : ∀ (index : Nat) (element : Ref) (value : Value π),
        elements[index]? = some element → values[index]? = some value → Holds w element value) :
      Holds w object (.list values)
  | map {object : Ref} {rows : List (String × Ref)} {entries : List (String × Value π)}
      (h : w.content? object = some (.map ⟨rows⟩))
      (hnames : rows.map (·.1) = entries.map (·.1))
      (hentries : ∀ (index : Nat) (row : String × Ref) (entry : String × Value π),
        rows[index]? = some row → entries[index]? = some entry → Holds w row.2 entry.2) :
      Holds w object (.map entries)

theorem Holds.mono {w after : World ρ σ π} {object : Ref} {value : Value π}
    (h : w.Holds object value) (hafter : w.Extends after) : after.Holds object value := by
  induction h with
  | plain h => exact .plain (hafter _ _ h)
  | list h hlength _ ih => exact .list (hafter _ _ h) hlength ih
  | map h hnames _ ih => exact .map (hafter _ _ h) hnames ih

/-- An object holds one value at most, by induction on the `Value`. -/
theorem Holds.unique {w : World ρ σ π} {object : Ref} {value other : Value π}
    (h : w.Holds object value) (k : w.Holds object other) : value = other := by
  induction h generalizing other with
  | plain h =>
    cases k with
    | plain k => cases h.symm.trans k; rfl
    | list k => cases h.symm.trans k
    | map k => cases h.symm.trans k
  | list h hlength _ ih =>
    cases k with
    | plain k => cases h.symm.trans k
    | list k hlength' helements =>
      cases h.symm.trans k
      congr 1
      -- both have the same objects in the same places, and each of these holds one value
      refine List.ext_getElem (hlength.symm.trans hlength') fun index hlt hlt' => ?_
      have hget := List.getElem?_eq_getElem (hlength.symm ▸ hlt)
      exact ih index _ _ hget (List.getElem?_eq_getElem hlt)
        (helements index _ _ hget (List.getElem?_eq_getElem hlt'))
    | map k => cases h.symm.trans k
  | map h hnames _ ih =>
    cases k with
    | plain k => cases h.symm.trans k
    | list k => cases h.symm.trans k
    | map k hnames' hentries =>
      cases h.symm.trans k
      have hlength := congrArg List.length hnames
      have hlength' := congrArg List.length hnames'
      rw [List.length_map, List.length_map] at hlength hlength'
      congr 1
      refine List.ext_getElem (hlength.symm.trans hlength') fun index hlt hlt' => ?_
      have hget := List.getElem?_eq_getElem (hlength.symm ▸ hlt)
      have hname := List.getElem_of_eq (hnames.symm.trans hnames') (by rwa [List.length_map])
      rw [List.getElem_map, List.getElem_map] at hname
      exact Prod.ext hname (ih index _ _ hget (List.getElem?_eq_getElem hlt)
        (hentries index _ _ hget (List.getElem?_eq_getElem hlt')))

theorem holds_list {w : World ρ σ π} {object : Ref} {elements : List Ref} {values : List (Value π)}
    (h : w.content? object = some (.list elements))
    (hall : List.Forall₂ w.Holds elements values) : w.Holds object (.list values) := by
  refine .list h hall.length_eq ?_
  intro index element value helement hvalue
  obtain ⟨hlt, rfl⟩ := List.getElem?_eq_some_iff.1 helement
  obtain ⟨hlt', rfl⟩ := List.getElem?_eq_some_iff.1 hvalue
  exact hall.get hlt hlt'

/-- A map of so many names holds the values of the objects under them, paired as `List.zip` pairs
them. -/
theorem holds_map {w : World ρ σ π} {object : Ref} {names : List String} {elements : List Ref}
    {values : List (Value π)} (h : w.content? object = some (.map ⟨names.zip elements⟩))
    (hall : List.Forall₂ w.Holds elements values) : w.Holds object (.map (names.zip values)) := by
  refine .map h ?_ ?_
  · clear h
    induction hall generalizing names with
    | nil => rw [List.zip_nil_right, List.zip_nil_right, List.map_nil, List.map_nil]
    | cons _ _ ih =>
      cases names with
      | nil => rfl
      | cons name names =>
        rw [List.zip_cons_cons, List.zip_cons_cons, List.map_cons, List.map_cons, ih]
  · intro index row entry hrow hentry
    have helement := (List.getElem?_zip_eq_some.1 hrow).2
    have hvalue := (List.getElem?_zip_eq_some.1 hentry).2
    obtain ⟨hlt, hrow'⟩ := List.getElem?_eq_some_iff.1 helement
    obtain ⟨hlt', hentry'⟩ := List.getElem?_eq_some_iff.1 hvalue
    rw [← hrow', ← hentry']
    exact hall.get hlt hlt'

end World

/-! ### Outcomes -/

/-- Faults that are the same but for the cycle that `Fault.orderingCycle` blames a contradictory
order on. -/
def Fault.Alike (fault other : Fault) : Prop :=
  fault = other ∨
    ∃ list cycle cycle', fault = .orderingCycle list cycle ∧ other = .orderingCycle list cycle'

namespace Fault.Alike

variable {fault other third : Fault}

theorem refl (fault : Fault) : fault.Alike fault := .inl rfl

theorem symm (h : fault.Alike other) : other.Alike fault := by
  rcases h with rfl | ⟨list, cycle, cycle', rfl, rfl⟩
  · exact .inl rfl
  · exact .inr ⟨list, cycle', cycle, rfl, rfl⟩

theorem trans (h : fault.Alike other) (k : other.Alike third) : fault.Alike third := by
  rcases h with rfl | ⟨list, cycle, cycle', rfl, rfl⟩
  · exact k
  · rcases k with rfl | ⟨list', again, cycle'', heq, rfl⟩
    · exact .inr ⟨list, cycle, cycle', rfl, rfl⟩
    · cases heq
      exact .inr ⟨list, cycle, cycle'', rfl, rfl⟩

end Fault.Alike

/-- Both are results, which `rel` relates, or both are faults, which are alike by `Fault.Alike`. -/
inductive Accord {α β : Type} (rel : α → β → Prop) : Except Fault α → Except Fault β → Prop
  | ok {a : α} {b : β} (h : rel a b) : Accord rel (.ok a) (.ok b)
  | error {fault other : Fault} (h : fault.Alike other) : Accord rel (.error fault) (.error other)

namespace Accord

variable {α β γ : Type} {rel : α → β → Prop}

theorem imp {rel' : α → β → Prop} {outcome : Except Fault α} {other : Except Fault β}
    (h : Accord rel outcome other) (himp : ∀ a b, rel a b → rel' a b) :
    Accord rel' outcome other := by
  cases h with
  | ok h => exact .ok (himp _ _ h)
  | error h => exact .error h

/-- Outcomes that agree with the same by `Accord` agree with each other, through what is between
them. -/
theorem join {rel' : γ → β → Prop} {outcome : Except Fault α} {other : Except Fault γ}
    {expected : Except Fault β} (h : Accord rel outcome expected) (k : Accord rel' other expected) :
    Accord (fun a c => ∃ b, rel a b ∧ rel' c b) outcome other := by
  cases h with
  | ok h =>
    cases k with
    | ok k => exact .ok ⟨_, h, k⟩
  | error h =>
    cases k with
    | error k => exact .error (h.trans k.symm)

end Accord

/-- The outcome is an object that holds the value by `World.Holds`, or a fault like the one
expected. -/
abbrev World.Shows (w : World ρ σ π) : Except Fault Ref → Except Fault (Value π) → Prop :=
  Accord w.Holds

theorem World.Shows.mono {w after : World ρ σ π} {outcome : Except Fault Ref}
    {expected : Except Fault (Value π)} (h : w.Shows outcome expected) (hafter : w.Extends after) :
    after.Shows outcome expected :=
  Accord.imp h fun _ _ hholds => hholds.mono hafter

end Wiring
