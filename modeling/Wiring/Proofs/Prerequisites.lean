import Mathlib.Data.Set.Basic
import Mathlib.Logic.Relation

/-!
# Lists in which things come after what they need

The function `needs` says for each thing which others it needs. `Ordered` says of a list that each
thing in it comes after those, and then it also comes after all that they need in turn
(`Ordered.transitive`).
-/

namespace Wiring

variable {α : Type}

/-- The first needs the second, which is one of its `needs`. -/
def Needs (needs : α → List α) (one other : α) : Prop :=
  other ∈ needs one

/-- Each of the list comes after all that it `Needs`, but for what was done before. -/
def Ordered (needs : α → List α) (done : Set α) (items : List α) : Prop :=
  ∀ earlier item later, items = earlier ++ item :: later →
    ∀ other, Needs needs item other → other ∈ done ∨ other ∈ earlier

namespace Ordered

variable {needs : α → List α} {done : Set α} {items more : List α}

theorem append (h : Ordered needs done items)
    (hmore : Ordered needs (done ∪ {item | item ∈ items}) more) :
    Ordered needs done (items ++ more) := by
  intro earlier item later heq other hneeds
  rcases List.append_eq_append_iff.1 heq with ⟨between, rfl, hbetween⟩ | ⟨between, hbetween, htail⟩
  · -- it is one of `more`
    rcases hmore between item later hbetween other hneeds with (hdone | hitems) | hearlier
    · exact .inl hdone
    · exact .inr (List.mem_append_left _ hitems)
    · exact .inr (List.mem_append_right _ hearlier)
  · cases between with
    | nil =>
      rw [List.append_nil] at hbetween
      subst hbetween
      rcases hmore [] item later htail.symm other hneeds with (hdone | hitems) | hearlier
      · exact .inl hdone
      · exact .inr hitems
      · cases hearlier
    | cons first between =>
      obtain ⟨rfl, -⟩ := List.cons.inj htail
      exact h earlier item between hbetween other hneeds

theorem of_append (h : Ordered needs done (items ++ more)) : Ordered needs done items := by
  rintro earlier item later rfl other hneeds
  exact h earlier item (later ++ more) (by simp) other hneeds

theorem singleton {item : α} (h : ∀ other, Needs needs item other → other ∈ done) :
    Ordered needs done [item] := by
  intro earlier last later heq other hneeds
  rcases List.singleton_eq_append_iff.1 heq with ⟨rfl, hcons⟩ | ⟨rfl, hcons⟩
  · obtain ⟨rfl, -⟩ := List.cons.inj hcons
    exact .inl (h other hneeds)
  · cases hcons

/-- What is needed by way of others, by `Needs` of one after the other, comes before too. -/
theorem transitive (h : Ordered needs ∅ items) {item other : α}
    (hneeds : Relation.TransGen (Needs needs) item other) {earlier later : List α}
    (heq : items = earlier ++ item :: later) : other ∈ earlier := by
  have hdirect {earlier later : List α} {item other : α} (heq : items = earlier ++ item :: later)
      (hneeds : Needs needs item other) : other ∈ earlier :=
    (h earlier item later heq other hneeds).resolve_left fun hnone => hnone
  induction hneeds using Relation.TransGen.head_induction_on generalizing earlier later with
  | single hneeds => exact hdirect heq hneeds
  | head hneeds _ ih =>
    -- the next on the way comes before the first, and the last before that
    obtain ⟨before, between, rfl⟩ := List.append_of_mem (hdirect heq hneeds)
    rw [List.append_assoc, List.cons_append] at heq
    exact List.mem_append_left _ (ih heq)

/-- Where nothing comes twice in an `Ordered` list, nothing needs itself. -/
theorem not_transGen_self (h : Ordered needs ∅ items) (hnodup : items.Nodup) {item : α}
    (hmem : item ∈ items) : ¬ Relation.TransGen (Needs needs) item item := by
  intro hself
  obtain ⟨earlier, later, rfl⟩ := List.append_of_mem hmem
  have hearlier := h.transitive hself rfl
  rw [List.nodup_append] at hnodup
  exact hnodup.2.2 item hearlier item (.head _) rfl

end Ordered

end Wiring
