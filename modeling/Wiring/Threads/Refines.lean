import Wiring.Run.Refines
import Wiring.Threads

/-!
# Threads with refined computations

If the computation of each thread refines to that of another, by `Run.Refines`, the threads take the
same steps whoever steps next, unless one of them runs out of fuel. So carrying out tasks together
refines to carrying out their refinements with as many steps or more (`Run.together_refines`).
-/

namespace Wiring

variable {ρ σ π α : Type}

open Halt (Agree)

/-- Threads with the same numbers and stacks whose computations refine one by one, by
`Run.Refines`. -/
inductive Thread.RefineAll : List (Thread ρ σ π α) → List (Thread ρ σ π α) → Prop where
  | nil : RefineAll [] []
  | cons (id : ThreadId) (stack : ResolveStack) {x y : Run ρ σ π α}
      {rest others : List (Thread ρ σ π α)} (h : x.Refines y) (k : RefineAll rest others) :
      RefineAll (⟨id, stack, x⟩ :: rest) (⟨id, stack, y⟩ :: others)

namespace Thread.RefineAll

variable {ts us : List (Thread ρ σ π α)}

theorem length (h : RefineAll ts us) : ts.length = us.length := by
  induction h with
  | nil => rfl
  | cons _ _ _ _ ih => simp [ih]

/-- At each place there are threads that differ in a refined computation, or there is none in either
list. -/
theorem getElem? (h : RefineAll ts us) (index : Nat) :
    (ts[index]? = none ∧ us[index]? = none) ∨
      ∃ id stack, ∃ x y : Run ρ σ π α, x.Refines y ∧
        ts[index]? = some ⟨id, stack, x⟩ ∧ us[index]? = some ⟨id, stack, y⟩ := by
  induction h generalizing index with
  | nil => simp
  | cons id stack h _ ih =>
    cases index with
    | zero => exact .inr ⟨id, stack, _, _, h, rfl, rfl⟩
    | succ index => simpa using ih index

theorem set (h : RefineAll ts us) (index : Nat) (id : ThreadId) (stack : ResolveStack)
    {x y : Run ρ σ π α} (hxy : x.Refines y) :
    RefineAll (ts.set index ⟨id, stack, x⟩) (us.set index ⟨id, stack, y⟩) := by
  induction h generalizing index with
  | nil => exact .nil
  | cons id' stack' h k ih =>
    cases index with
    | zero => exact .cons id stack hxy k
    | succ index => exact .cons id' stack' h (ih index)

theorem modify (h : RefineAll ts us) (index : Nat) {x y : Run ρ σ π α} (hxy : x.Refines y) :
    RefineAll (ts.modify index fun thread => { thread with rest := x })
      (us.modify index fun thread => { thread with rest := y }) := by
  induction h generalizing index with
  | nil => cases index <;> exact .nil
  | cons id stack h k ih =>
    cases index with
    | zero => exact .cons id stack hxy k
    | succ index => exact .cons id stack h (ih index)

theorem resultsOf? (h : RefineAll ts us) {results : List α}
    (hr : Threads.resultsOf? ts = some results) : Threads.resultsOf? us = some results := by
  induction h generalizing results with
  | nil => exact hr
  | cons id stack h _ ih =>
    rw [Threads.resultsOf?] at hr ⊢
    split at hr
    case h_1 a as ha has =>
      rw [h.result? ha, ih has]
      exact hr
    case h_2 => cases hr

/-- Where the second threads have all ended, so have the first, unless one runs out of fuel, and
`next` says so of it in every world. -/
theorem outOfFuel_of_resultsOf? (h : RefineAll ts us) {results : List α}
    (ht : Threads.resultsOf? ts = none) (hu : Threads.resultsOf? us = some results) :
    ∃ (index : Nat) (thread : Thread ρ σ π α), ts[index]? = some thread ∧
      ∀ w, thread.rest.advance w = .halted .outOfFuel := by
  induction h generalizing results with
  | nil => cases ht
  | cons id stack h _ ih =>
    rename_i x y rest others _
    rw [Threads.resultsOf?] at ht hu
    split at hu
    case h_2 => cases hu
    case h_1 a as ha has =>
      cases hx : x.result? with
      | none =>
        refine ⟨0, _, rfl, fun w => ?_⟩
        have hw := h.advance w
        rw [Run.advance_eq_ended_iff.2 ha] at hw
        generalize hp : x.advance w = p at hw
        cases hw with
        | outOfFuel _ => rfl
        | ended _ =>
          rw [Run.advance_eq_ended_iff.1 hp] at hx
          cases hx
      | some b =>
        have hrest : Threads.resultsOf? rest = none := by
          cases hr : Threads.resultsOf? rest with
          | none => rfl
          | some bs => simp [hx, hr] at ht
        obtain ⟨index, thread, hi, hadvance⟩ := ih hrest has
        exact ⟨index + 1, thread, hi, hadvance⟩

end Thread.RefineAll

namespace Threads

/-- Threads on the same world whose computations refine one by one, as `Thread.RefineAll` has it. -/
structure Refines (s t : Threads ρ σ π α) : Prop where
  world : s.world = t.world
  threads : Thread.RefineAll s.threads t.threads

variable {s t : Threads ρ σ π α}

theorem Refines.next (h : s.Refines t) (index : Nat) :
    Run.Progress.Agree (s.next index) (t.next index) := by
  rw [Threads.next, Threads.next]
  rcases h.threads.getElem? index with ⟨hs, ht⟩ | ⟨id, stack, x, y, hxy, hs, ht⟩
  · rw [hs, ht]
    exact .halted _
  · rw [hs, ht, h.world]
    exact hxy.advance _

theorem Refines.moveOn (h : s.Refines t) (index : Nat) {x y : Run ρ σ π α} (hxy : x.Refines y)
    (w : World ρ σ π) : (s.moveOn index x w).Refines (t.moveOn index y w) :=
  ⟨rfl, h.threads.set index _ _ hxy⟩

theorem Refines.leavePause (h : s.Refines t) (index : Nat) {x y : Run ρ σ π α}
    (hxy : x.Refines y) : (s.leavePause index x).Refines (t.leavePause index y) :=
  ⟨h.world, h.threads.modify index hxy⟩

theorem Refines.step (h : s.Refines t) (index : Nat) :
    Agree Refines (s.step index) (t.step index) := by
  rw [Threads.step, Threads.step]
  have hn := h.next index
  generalize s.next index = p at hn
  generalize t.next index = q at hn
  cases hn with
  | outOfFuel _ => exact .outOfFuel _
  | ended _ => exact .halt _
  | halted reason => exact .halt reason
  | gaveWay e => exact .ok (h.leavePause index e)
  | stepped e w => exact .ok (h.moveOn index e w)

theorem Refines.stepFirst (h : s.Refines t) (indices : List Nat) :
    Agree (fun p q => p.1 = q.1 ∧ p.2.Refines q.2) (s.stepFirst indices)
      (t.stepFirst indices) := by
  induction indices with
  | nil => exact .halt _
  | cons index rest ih =>
    rw [Threads.stepFirst, Threads.stepFirst]
    have hw := h.step index
    generalize s.step index = p at hw
    generalize t.step index = q at hw
    cases hw with
    | outOfFuel _ => exact .outOfFuel _
    | halt reason =>
      cases reason with
      | outOfFuel => exact .outOfFuel _
      | blocked => exact ih
    | ok e => exact .ok ⟨rfl, e⟩

theorem Refines.approach (h : s.Refines t) (index : Nat) {m n : Nat} (hmn : m ≤ n) :
    Agree Refines (s.approach index m) (t.approach index n) := by
  induction n generalizing m s t with
  | zero =>
    cases Nat.le_zero.1 hmn
    exact .outOfFuel _
  | succ n ih =>
    cases m with
    | zero => exact .outOfFuel _
    | succ m =>
      rw [Threads.approach, Threads.approach]
      have hn := h.next index
      generalize s.next index = p at hn
      generalize t.next index = q at hn
      cases hn with
      | outOfFuel _ => exact .outOfFuel _
      | ended _ => exact .ok h
      | halted reason =>
        cases reason with
        | outOfFuel => exact .outOfFuel _
        | blocked => exact .ok h
      | gaveWay _ => exact .ok h
      | stepped e w => exact ih (h.moveOn index e w) (Nat.le_of_succ_le_succ hmn)

theorem Refines.approachAll (h : s.Refines t) (indices : List Nat) {m n : Nat} (hmn : m ≤ n) :
    Agree Refines (s.approachAll m indices) (t.approachAll n indices) := by
  induction indices generalizing s t with
  | nil => exact .ok h
  | cons index rest ih =>
    rw [Threads.approachAll, Threads.approachAll]
    have hw := h.approach index hmn
    generalize s.approach index m = p at hw
    generalize t.approach index n = q at hw
    cases hw with
    | outOfFuel _ => exact .outOfFuel _
    | halt reason => exact .halt reason
    | ok e => exact ih e

theorem Refines.finish (h : s.Refines t) {m n : Nat} (hmn : m ≤ n) (current : Nat) :
    Agree Refines (s.finish m current) (t.finish n current) := by
  induction n generalizing m s t current with
  | zero =>
    cases Nat.le_zero.1 hmn
    exact .outOfFuel _
  | succ n ih =>
    cases m with
    | zero => exact .outOfFuel _
    | succ m =>
      rw [Threads.finish, Threads.finish, h.threads.length]
      have hw := h.stepFirst (current :: List.range t.threads.length)
      generalize s.stepFirst (current :: List.range t.threads.length) = p at hw
      generalize t.stepFirst (current :: List.range t.threads.length) = q at hw
      cases hw with
      | outOfFuel _ => exact .outOfFuel _
      | halt reason =>
        cases reason with
        | outOfFuel => exact .outOfFuel _
        | blocked => exact .ok h
      | ok e =>
        rename_i a b
        simp only [e.1]
        exact ih e.2 (Nat.le_of_succ_le_succ hmn) b.1

theorem Refines.play (h : s.Refines t) {m n : Nat} (hmn : m ≤ n) :
    Agree Refines (s.play m) (t.play n) := by
  rw [Threads.play, Threads.play, h.threads.length]
  have hw := h.approachAll (List.range t.threads.length) hmn
  generalize s.approachAll m (List.range t.threads.length) = p at hw
  generalize t.approachAll n (List.range t.threads.length) = q at hw
  cases hw with
  | outOfFuel _ => exact .outOfFuel _
  | halt reason => exact .halt reason
  | ok e => exact e.finish hmn 0

/-- Threads that came to rest did not run out of fuel, so they have their `results?` if their
refinements do. -/
theorem Refines.results? (h : s.Refines t)
    (still : ∀ index, index < s.threads.length → s.step index = .error .blocked) :
    s.results? = t.results? := by
  unfold Threads.results?
  cases hs : resultsOf? s.threads with
  | some results => exact (h.threads.resultsOf? hs).symm
  | none =>
    cases ht : resultsOf? t.threads with
    | none => rfl
    | some results =>
      obtain ⟨index, thread, hi, hout⟩ := h.threads.outOfFuel_of_resultsOf? hs ht
      have hlt : index < s.threads.length := (List.getElem?_eq_some_iff.1 hi).1
      have hstep := still index hlt
      simp [Threads.step, Threads.next, hi, hout] at hstep

end Threads

/-- Tasks that refine one by one, before `Threads.start` puts them on threads. -/
inductive Run.RefineAll : List (Run ρ σ π α) → List (Run ρ σ π α) → Prop where
  | nil : RefineAll [] []
  | cons {x y : Run ρ σ π α} {rest others : List (Run ρ σ π α)} (h : x.Refines y)
      (k : RefineAll rest others) : RefineAll (x :: rest) (y :: others)

/-- Tasks made from items refine if they do item by item. -/
theorem Run.RefineAll.map {ι : Type} {f g : ι → Run ρ σ π α} (h : ∀ i, (f i).Refines (g i))
    (items : List ι) : Run.RefineAll (items.map f) (items.map g) := by
  induction items with
  | nil => exact .nil
  | cons i rest ih => exact .cons (h i) ih

theorem Run.RefineAll.start {tasks others : List (Run ρ σ π α)}
    (h : Run.RefineAll tasks others) (w : World ρ σ π) :
    (Threads.start w tasks).Refines (Threads.start w others) := by
  have length : tasks.length = others.length := by
    induction h with
    | nil => rfl
    | cons _ _ ih => simp [ih]
  have threads (id : ThreadId) :
      Thread.RefineAll (Thread.startAll id tasks) (Thread.startAll id others) := by
    clear length
    induction h generalizing id with
    | nil => exact .nil
    | cons h _ ih => exact .cons id [] h (ih (id + 1))
  exact ⟨by simp [Threads.start, length], threads w.threads⟩

/-- Tasks carried out by `Run.together` refine to their refinements with at least as many steps. -/
theorem Run.together_refines {m n : Nat} (hmn : m ≤ n) {tasks others : List (Run ρ σ π α)}
    (h : Run.RefineAll tasks others) :
    (Run.together m tasks).Refines (Run.together n others) := by
  refine .step fun w => ?_
  have hw := (h.start w).play hmn
  cases hp : (Threads.start w tasks).play m with
  | error reason =>
    rw [hp] at hw
    generalize (Threads.start w others).play n = q at hw
    cases hw with
    | outOfFuel _ => exact .outOfFuel _
    | halt reason => exact .halt reason
  | ok s =>
    rw [hp] at hw
    generalize (Threads.start w others).play n = q at hw
    cases hw with
    | ok e =>
      rename_i t
      have still : ∀ index, index < s.threads.length → s.step index = .error .blocked := by
        rw [Threads.play] at hp
        split at hp
        · cases hp
        · exact fun _ hi => Threads.step_of_finish hp hi
      simp only [e.results? still, e.world]
      cases t.results? with
      | none => exact .halt _
      | some results => exact .ok rfl

end Wiring
