import Wiring.Run

/-!
# When a computation does what another does

A computation refines to another, by `Run.Refines`, if that one is built alike and takes the same
steps wherever the first does not run out of fuel. So both come to the same results, alone
(`Run.Refines.run`) and step by step (`Run.Refines.advance`).
-/

namespace Wiring

variable {ρ σ π α β : Type}

/-! ### Outcomes -/

/-- Unless the first outcome is `Halt.outOfFuel`, both are the same halt, or both are results that
are related. -/
inductive Halt.Agree {A B : Type _} (related : A → B → Prop) :
    Except Halt A → Except Halt B → Prop where
  | outOfFuel (y : Except Halt B) : Agree related (.error .outOfFuel) y
  | halt (reason : Halt) : Agree related (.error reason) (.error reason)
  | ok {a : A} {b : B} (h : related a b) : Agree related (.ok a) (.ok b)

namespace Run

/-! ### Computations -/

/-- Wherever `x` does not run out of fuel, `y` does the same, step by step: one rule for each former
of `Run`. -/
inductive Refines {ρ σ π : Type} : {α : Type} → Run ρ σ π α → Run ρ σ π α → Prop where
  | done {α : Type} (result : α) : Refines (.done result) (.done result)
  | pause {α : Type} (result : α) : Refines (.pause result) (.pause result)
  | outOfFuel {α : Type} (y : Run ρ σ π α) : Refines (halt .outOfFuel) y
  | step {α : Type} {f g : World ρ σ π → Except Halt (α × World ρ σ π)}
      (h : ∀ w, Halt.Agree Eq (f w) (g w)) : Refines (.step f) (.step g)
  | bind {α β : Type} {x y : Run ρ σ π β} {f g : β → Run ρ σ π α} (h : Refines x y)
      (k : ∀ b, Refines (f b) (g b)) : Refines (.bind x f) (.bind y g)

theorem Refines.refl (x : Run ρ σ π α) : Refines x x := by
  induction x with
  | done result => exact .done result
  | pause result => exact .pause result
  | step take =>
    refine .step fun w => ?_
    cases take w with
    | error reason => exact .halt reason
    | ok _ => exact .ok rfl
  | bind first next ihf ihn => exact .bind ihf ihn

/-- Alone, by `Run.run`, the one comes to whatever the other comes to. -/
theorem Refines.run {x y : Run ρ σ π α} (h : Refines x y) (w : World ρ σ π) :
    Halt.Agree Eq (x.run w) (y.run w) := by
  induction h generalizing w with
  | done _ => exact .ok rfl
  | pause _ => exact .ok rfl
  | outOfFuel y => exact .outOfFuel _
  | step h => exact h w
  | bind h k ihx ihf =>
    rename_i x y f g
    rw [Run.run, Run.run]
    have hw := ihx w
    generalize x.run w = p at hw
    generalize y.run w = q at hw
    cases hw with
    | outOfFuel _ => exact .outOfFuel _
    | halt reason => exact .halt reason
    | ok e =>
      cases e
      exact ihf _ _

theorem Refines.result? {x y : Run ρ σ π α} {a : α} (h : Refines x y)
    (hx : x.result? = some a) : y.result? = some a := by
  induction h with
  | done _ => exact hx
  | pause _ => cases hx
  | outOfFuel _ => cases hx
  | step _ => cases hx
  | bind h k ihx ihf =>
    rename_i x y f g
    rw [Run.result?] at hx ⊢
    cases hr : x.result? with
    | none => simp [hr] at hx
    | some b =>
      simp only [hr] at hx
      rw [ihx hr]
      exact ihf b hx

/-- Unless the first comes to a lack of fuel next, both come to the same, with refined rests. -/
inductive Progress.Agree {α : Type} : Progress ρ σ π α → Progress ρ σ π α → Prop where
  | outOfFuel (q : Progress ρ σ π α) : Agree (.halted .outOfFuel) q
  | ended (result : α) : Agree (.ended result) (.ended result)
  | halted (reason : Halt) : Agree (.halted reason) (.halted reason)
  | gaveWay {x y : Run ρ σ π α} (h : Refines x y) : Agree (.gaveWay x) (.gaveWay y)
  | stepped {x y : Run ρ σ π α} (h : Refines x y) (w : World ρ σ π) :
      Agree (.stepped x w) (.stepped y w)

/-- The next steps agree, as `Progress.Agree` has it, and so does what is left to do after them. -/
theorem Refines.advance {x y : Run ρ σ π α} (h : Refines x y) (w : World ρ σ π) :
    Progress.Agree (x.advance w) (y.advance w) := by
  induction h generalizing w with
  | done result => exact .ended result
  | pause result => exact .gaveWay (.done result)
  | outOfFuel y => exact .outOfFuel _
  | step h =>
    rename_i f g
    rw [Run.advance, Run.advance]
    have hw := h w
    generalize f w = p at hw
    generalize g w = q at hw
    cases hw with
    | outOfFuel _ => exact .outOfFuel _
    | halt reason => exact .halted reason
    | ok e =>
      cases e
      exact .stepped (.done _) _
  | bind h k ihx ihf =>
    rename_i x y f g
    rw [Run.advance, Run.advance]
    have hw := ihx w
    generalize x.advance w = p at hw
    generalize y.advance w = q at hw
    cases hw with
    | outOfFuel _ => exact .outOfFuel _
    | ended b => exact ihf b w
    | halted reason => exact .halted reason
    | gaveWay e => exact .gaveWay (.bind e k)
    | stepped e v => exact .stepped (.bind e k) v

theorem inTurn_refines {f g : α → Run ρ σ π (Except Fault β)} (h : ∀ a, Refines (f a) (g a))
    (items : List α) : Refines (inTurn f items) (inTurn g items) := by
  induction items with
  | nil => exact .refl _
  | cons a rest ih =>
    refine .bind (h a) fun outcome => ?_
    cases outcome with
    | error _ => exact .refl _
    | ok b => exact .bind ih fun _ => .refl _

theorem through_refines {f g : α → β → Run ρ σ π (Except Fault β)}
    (h : ∀ a b, Refines (f a b) (g a b)) (items : List α) (b : β) :
    Refines (through f items b) (through g items b) := by
  induction items generalizing b with
  | nil => exact .refl _
  | cons a rest ih =>
    refine .bind (h a b) fun outcome => ?_
    cases outcome with
    | error _ => exact .refl _
    | ok b => exact ih b

end Run

end Wiring
