import Mathlib.Logic.Function.Basic
import Wiring.Threads

/-!
# Disciplines for threads

What is true of threads however they take turns is shown thread by thread. A `Discipline` gives each
thread a place, which says how far it has got and which only its own steps change, and an invariant
of the world and all places. A computation obeys it if each of its steps, taken in any world where
the invariant holds, keeps the invariant and moves no place but that of its thread (`Run.Obeys`).
Then the threads obey it in every state that their interleavings reach (`Threads.Obey.of_reaches`).

Obedience is put together along `Run.bind` and its steps (`Run.Obeys.step`, `Run.Obeys.now`), so a
long computation is shown to obey part by part.

* **`Threads.Obey.step`** — one step moves the place of one thread, and all threads still obey.
* **`Threads.Obey.asleep`** — a thread that can take no step is asleep at its place, which the
  invariant can be asked about.
-/

namespace Wiring

/-- What threads are to keep to: `γ` are the places of a thread, `holds` is the invariant of the
world and all places, and `asleep` says who may wait. -/
structure Discipline (ρ σ π γ : Type) where
  /-- The resolve stack of a thread at a place, which `World.stack` is while it runs. -/
  stack : γ → ResolveStack
  holds : World ρ σ π → (ThreadId → γ) → Prop
  /-- A thread at this place has to wait in this world, so a step of it may halt with
  `Halt.blocked`. -/
  asleep : World ρ σ π → γ → Prop
  /-- Which thread runs is nothing to the invariant: `World.switchTo` leaves `holds` as it is. -/
  holds_switchTo : ∀ {w places} (thread : ThreadId) (stack : ResolveStack),
    holds w places → holds (w.switchTo thread stack) places
  asleep_of_switchTo : ∀ {w place} {thread : ThreadId} {stack : ResolveStack},
    asleep (w.switchTo thread stack) place → asleep w place

variable {ρ σ π γ : Type} {d : Discipline ρ σ π γ} {me : ThreadId}

namespace Run

/-- Each step of the computation on the thread `me`, which is at `place`, keeps the invariant
`holds`, and the computation ends with a result and at a place of which `ends` holds. -/
def Obeys {α : Type} (d : Discipline ρ σ π γ) (me : ThreadId) :
    Run ρ σ π α → (place : γ) → (ends : α → γ → Prop) → Prop
  | .done result, place, ends => ends result place
  | .pause result, place, ends => ends result place
  | .step take, place, ends => ∀ w places, d.holds w places → places me = place →
    w.thread = me → w.stack = d.stack place →
      match take w with
      | .ok (a, w') => w'.thread = me ∧ ∃ next, w'.stack = d.stack next ∧
          d.holds w' (Function.update places me next) ∧ ends a next
      | .error .blocked => d.asleep w place
      | .error .outOfFuel => False
  | .bind first next, place, ends =>
    first.Obeys d me place fun b place => (next b).Obeys d me place ends

variable {α β : Type} {place : γ} {ends : α → γ → Prop}

/-! ### Rules -/

theorem Obeys.mono {x : Run ρ σ π α} {less : α → γ → Prop} (h : x.Obeys d me place less)
    (hends : ∀ a next, less a next → ends a next) : x.Obeys d me place ends := by
  induction x generalizing place with
  | done result => exact hends result place h
  | pause result => exact hends result place h
  | step take =>
    intro w places hholds hplace hthread hstack
    have hstep := h w places hholds hplace hthread hstack
    split at hstep
    case h_1 a w' htake =>
      obtain ⟨hthread', next, hstack', hholds', hless⟩ := hstep
      exact ⟨hthread', next, hstack', hholds', hends a next hless⟩
    case h_2 => exact hstep
    case h_3 => exact hstep
  -- what the first part may end with is a statement about the rest, and that is weakened first
  | bind first next ihf ihn =>
    exact ihf h fun b place hb => ihn b hb hends

theorem Obeys.bind {x : Run ρ σ π β} {f : β → Run ρ σ π α} {between : β → γ → Prop}
    (hx : x.Obeys d me place between)
    (hf : ∀ b next, between b next → (f b).Obeys d me next ends) :
    (x >>= f).Obeys d me place ends :=
  Obeys.mono (x := x) hx hf

/-- A `Run.step` obeys if it can be taken, or has to wait where the thread may sleep. -/
theorem Obeys.step {take : World ρ σ π → Except Halt (α × World ρ σ π)}
    (h : ∀ w places, d.holds w places → places me = place → w.thread = me →
      w.stack = d.stack place →
      (∃ a w', take w = .ok (a, w') ∧ w'.thread = me ∧ ∃ next, w'.stack = d.stack next ∧
        d.holds w' (Function.update places me next) ∧ ends a next) ∨
      (take w = .error .blocked ∧ d.asleep w place)) :
    (Run.step take).Obeys d me place ends := by
  intro w places hholds hplace hthread hstack
  rcases h w places hholds hplace hthread hstack with ⟨a, w', htake, hnext⟩ | ⟨htake, hasleep⟩
  · rw [htake]
    exact hnext
  · rw [htake]
    exact hasleep

/-- A step that is always possible, by `Run.now`, and goes to a place told by the world before
it. -/
theorem Obeys.now {f : World ρ σ π → α × World ρ σ π}
    (h : ∀ w places, d.holds w places → places me = place → w.thread = me →
      w.stack = d.stack place → (f w).2.thread = me ∧ ∃ next, (f w).2.stack = d.stack next ∧
        d.holds (f w).2 (Function.update places me next) ∧ ends (f w).1 next) :
    (Run.now f).Obeys d me place ends :=
  h

theorem Obeys.change {f : World ρ σ π → World ρ σ π} {ends : Unit → γ → Prop} (next : γ)
    (h : ∀ w places, d.holds w places → places me = place → w.thread = me →
      w.stack = d.stack place → (f w).thread = me ∧ (f w).stack = d.stack next ∧
        d.holds (f w) (Function.update places me next)) (hends : ends () next) :
    (Run.change f).Obeys d me place ends := by
  intro w places hholds hplace hthread hstack
  obtain ⟨hthread', hstack', hholds'⟩ := h w places hholds hplace hthread hstack
  exact ⟨hthread', next, hstack', hholds', hends⟩

theorem Obeys.andThen {answer : (request : Request ρ σ π) → Run ρ σ π request.Answer}
    {code : Code ρ σ π β} {f : β → Code ρ σ π α} {between : β → γ → Prop}
    (hcode : (code.run answer).Obeys d me place between)
    (hf : ∀ b next, between b next → ((f b).run answer).Obeys d me next ends) :
    ((code.andThen f).run answer).Obeys d me place ends := by
  induction code generalizing place with
  | done result => exact hf result place hcode
  | ask request rest ih =>
    exact Obeys.mono (x := answer request) hcode fun reply next hreply => ih reply hreply

theorem Obeys.result {x : Run ρ σ π α} {a : α} (h : x.Obeys d me place ends)
    (hresult : x.result? = some a) : ends a place := by
  induction x generalizing place with
  | done result =>
    cases hresult
    exact h
  | pause _ => cases hresult
  | step _ => cases hresult
  | bind first next ihf ihn =>
    rw [result?] at hresult
    split at hresult
    · cases hresult
    case h_2 b hb => exact ihn b (ihf h hb) hresult

/-- The next that a computation comes to in `w`, as `Run.advance` gives it, is in order: the rest
obeys by `Run.Obeys`, and fuel never runs out. -/
def Progress.Obeys (d : Discipline ρ σ π γ) (me : ThreadId) (w : World ρ σ π)
    (places : ThreadId → γ) (ends : α → γ → Prop) : Progress ρ σ π α → Prop
  | .ended a => ends a (places me)
  | .halted .blocked => d.asleep w (places me)
  | .halted .outOfFuel => False
  | .gaveWay rest => rest.Obeys d me (places me) ends
  | .stepped rest w' => w'.thread = me ∧ ∃ next, w'.stack = d.stack next ∧
      d.holds w' (Function.update places me next) ∧ rest.Obeys d me next ends

theorem Obeys.advance {x : Run ρ σ π α} {w : World ρ σ π} {places : ThreadId → γ}
    (h : x.Obeys d me (places me) ends) (hholds : d.holds w places) (hthread : w.thread = me)
    (hstack : w.stack = d.stack (places me)) :
    (x.advance w).Obeys d me w places ends := by
  induction x with
  | done result => exact h
  | pause result => exact h
  | step take =>
    have hstep := h w places hholds rfl hthread hstack
    rw [Run.advance]
    cases htake : take w with
    | error reason =>
      rw [htake] at hstep
      cases reason with
      | outOfFuel => exact hstep
      | blocked => exact hstep
    | ok p =>
      rw [htake] at hstep
      exact hstep
  | bind first next ihf ihn =>
    -- where the first has to end is where the second sets out
    have hfirst := ihf h
    rw [Run.advance]
    cases hadvance : first.advance w with
    | ended b =>
      rw [hadvance] at hfirst
      exact ihn b hfirst
    | halted reason =>
      rw [hadvance] at hfirst
      cases reason with
      | outOfFuel => exact hfirst
      | blocked => exact hfirst
    | gaveWay rest =>
      rw [hadvance] at hfirst
      exact hfirst
    | stepped rest w' =>
      rw [hadvance] at hfirst
      exact hfirst

end Run

namespace Threads

variable {α : Type}

/-- The threads obey a discipline: the invariant `holds`, each has the stack of its place and obeys
by `Run.Obeys` in what it has left to do, and nobody else is anywhere but at `idle`. -/
structure Obey (d : Discipline ρ σ π γ) (idle : γ) (first : ThreadId) (ends : Nat → α → γ → Prop)
    (s : Threads ρ σ π α) (places : ThreadId → γ) : Prop where
  holds : d.holds s.world places
  ids : ∀ index (thread : Thread ρ σ π α), s.threads[index]? = some thread →
    thread.id = first + index
  stack : ∀ index (thread : Thread ρ σ π α), s.threads[index]? = some thread →
    thread.stack = d.stack (places (first + index))
  rest : ∀ index (thread : Thread ρ σ π α), s.threads[index]? = some thread →
    thread.rest.Obeys d (first + index) (places (first + index)) (ends index)
  others : ∀ id, (∀ index, index < s.threads.length → id ≠ first + index) → places id = idle

variable {idle : γ} {first : ThreadId} {ends : Nat → α → γ → Prop} {s t : Threads ρ σ π α}
variable {places : ThreadId → γ} {index : Nat} {thread : Thread ρ σ π α}

theorem Obey.next (h : s.Obey d idle first ends places)
    (hthread : s.threads[index]? = some thread) :
    (s.next index).Obeys d (first + index) s.world places (ends index) := by
  have hnext := (h.rest index thread hthread).advance
    (d.holds_switchTo thread.id thread.stack h.holds) (h.ids index thread hthread)
    (h.stack index thread hthread)
  rw [next_of_getElem? hthread]
  cases hadvance : thread.rest.advance (s.world.switchTo thread.id thread.stack) with
  | halted reason =>
    rw [hadvance] at hnext
    cases reason with
    | outOfFuel => exact hnext
    -- the thread was switched to only to see that it has to wait
    | blocked => exact d.asleep_of_switchTo hnext
  | ended a =>
    rw [hadvance] at hnext
    exact hnext
  | gaveWay rest =>
    rw [hadvance] at hnext
    exact hnext
  | stepped rest w' =>
    rw [hadvance] at hnext
    exact hnext

/-- A thread has got to another place, and the world with it; the others still obey, for `holds` is
of all places together. -/
theorem Obey.set (h : s.Obey d idle first ends places) {w : World ρ σ π} {next : γ}
    (hindex : index < s.threads.length) (hid : thread.id = first + index)
    (hstack : thread.stack = d.stack next)
    (hrest : thread.rest.Obeys d (first + index) next (ends index))
    (hholds : d.holds w (Function.update places (first + index) next)) :
    Obey d idle first ends ⟨w, s.threads.set index thread⟩
      (Function.update places (first + index) next) := by
  -- each thread is the one that was put in, or one of the others, whose place is not touched
  have hget (other : Nat) (u : Thread ρ σ π α)
      (hu : (s.threads.set index thread)[other]? = some u) :
      (index = other ∧ u = thread) ∨
        (first + other ≠ first + index ∧ s.threads[other]? = some u) := by
    by_cases heq : index = other
    · subst heq
      rw [List.getElem?_set_self hindex] at hu
      exact .inl ⟨rfl, (Option.some.inj hu).symm⟩
    · rw [List.getElem?_set_ne heq] at hu
      exact .inr ⟨fun e => heq (Nat.add_left_cancel e).symm, hu⟩
  refine ⟨hholds, ?ids, ?stack, ?rest, ?others⟩
  case ids =>
    intro other u hu
    rcases hget other u hu with ⟨rfl, rfl⟩ | ⟨-, hold⟩
    · exact hid
    · exact h.ids other u hold
  case stack =>
    intro other u hu
    rcases hget other u hu with ⟨rfl, rfl⟩ | ⟨hne, hold⟩
    · rw [Function.update_self]
      exact hstack
    · rw [Function.update_of_ne hne]
      exact h.stack other u hold
  case rest =>
    intro other u hu
    rcases hget other u hu with ⟨rfl, rfl⟩ | ⟨hne, hold⟩
    · rw [Function.update_self]
      exact hrest
    · rw [Function.update_of_ne hne]
      exact h.rest other u hold
  case others =>
    intro id hidle
    rw [List.length_set] at hidle
    rw [Function.update_of_ne (hidle index hindex)]
    exact h.others id hidle

/-- A step by `Threads.step` moves the place of the thread that takes it, if any, and no other. -/
theorem Obey.step (h : s.Obey d idle first ends places) (hs : s.step index = .ok t) :
    ∃ next, t.Obey d idle first ends (Function.update places (first + index) next) := by
  obtain ⟨thread, hthread, hcases⟩ := step_cases hs
  have hindex : index < s.threads.length := (List.getElem?_eq_some_iff.1 hthread).1
  have hnext := h.next hthread
  rw [next_of_getElem? hthread] at hnext
  rcases hcases with ⟨rest, hadvance, rfl⟩ | ⟨rest, w, hadvance, rfl⟩
  · rw [hadvance] at hnext
    -- giving way changes what is left to do, and nothing else
    have hset : s.leavePause index rest =
        ⟨s.world, s.threads.set index { thread with rest }⟩ := by
      have : Inhabited (Thread ρ σ π α) := ⟨thread⟩
      rw [leavePause, List.modify_eq_set, hthread]
      rfl
    refine ⟨places (first + index), ?_⟩
    rw [hset]
    refine h.set hindex (h.ids index thread hthread) (h.stack index thread hthread) hnext ?_
    rw [Function.update_eq_self]
    exact h.holds
  · rw [hadvance] at hnext
    obtain ⟨hid, next, hstack, hholds, hrest⟩ := hnext
    exact ⟨next, h.set hindex hid hstack hrest hholds⟩

theorem Obey.of_reaches (h : s.Obey d idle first ends places) (hreach : s.Reaches t) :
    ∃ places, t.Obey d idle first ends places := by
  induction hreach with
  | refl => exact ⟨places, h⟩
  | step _ hs ih =>
    -- the places are those of the step before, but for one
    obtain ⟨between, ih⟩ := ih
    obtain ⟨next, hnext⟩ := ih.step hs
    exact ⟨_, hnext⟩

/-- Fuel is no matter where threads obey: `Halt.outOfFuel` is never the reason that a step fails. -/
theorem Obey.step_ne_outOfFuel (h : s.Obey d idle first ends places) (index : Nat) :
    s.step index ≠ .error .outOfFuel := by
  intro hs
  rw [Threads.step] at hs
  cases hthread : s.threads[index]? with
  | none =>
    rw [Threads.next, hthread] at hs
    cases hs
  | some thread =>
    have hnext := h.next hthread
    split at hs
    · cases hs
    case h_2 reason hcomes =>
      cases hs
      rw [hcomes] at hnext
      exact hnext
    · cases hs
    · cases hs

/-- A thread that cannot take a step has a result, or it is `asleep` at its place. -/
theorem Obey.asleep (h : s.Obey d idle first ends places)
    (hthread : s.threads[index]? = some thread) (hunfinished : thread.rest.result? = none)
    (hs : ∀ t, s.step index ≠ .ok t) : d.asleep s.world (places (first + index)) := by
  have hnext := h.next hthread
  rw [next_of_getElem? hthread] at hnext
  cases hadvance : thread.rest.advance (s.world.switchTo thread.id thread.stack) with
  | ended a =>
    rw [Run.advance_eq_ended_iff.1 hadvance] at hunfinished
    cases hunfinished
  | halted reason =>
    simp only [hadvance] at hnext
    cases reason with
    | outOfFuel => exact hnext.elim
    | blocked => exact hnext
  | gaveWay rest =>
    refine absurd ?_ (hs (s.leavePause index rest))
    rw [Threads.step, next_of_getElem? hthread, hadvance]
  | stepped rest w =>
    refine absurd ?_ (hs (s.moveOn index rest w))
    rw [Threads.step, next_of_getElem? hthread, hadvance]

theorem Obey.result (h : s.Obey d idle first ends places) {a : α}
    (hthread : s.threads[index]? = some thread) (hresult : thread.rest.result? = some a) :
    ends index a (places (first + index)) :=
  (h.rest index thread hthread).result hresult

/-! ### The start -/

theorem getElem?_startAll (id : ThreadId) (tasks : List (Run ρ σ π α)) (index : Nat) :
    (Thread.startAll id tasks)[index]? =
      tasks[index]?.map fun rest => { id := id + index, rest } := by
  induction tasks generalizing id index with
  | nil => rfl
  | cons rest tasks ih =>
    cases index with
    | zero => rfl
    | succ index =>
      rw [Thread.startAll, List.getElem?_cons_succ, List.getElem?_cons_succ, ih]
      rw [Nat.add_assoc, Nat.add_comm 1]

/-- New threads, by `Threads.start`, are at `idle` with nothing on their stacks, and their tasks
obey from there on by `Run.Obeys`. -/
theorem obey_start {w : World ρ σ π} {tasks : List (Run ρ σ π α)} (hidle : d.stack idle = [])
    (hholds : d.holds (Threads.start w tasks).world fun _ => idle)
    (htasks : ∀ index (task : Run ρ σ π α), tasks[index]? = some task →
      task.Obeys d (w.threads + index) idle (ends index)) :
    (Threads.start w tasks).Obey d idle w.threads ends fun _ => idle := by
  have hget (index : Nat) (thread : Thread ρ σ π α)
      (hthread : (Threads.start w tasks).threads[index]? = some thread) :
      ∃ task, tasks[index]? = some task ∧ thread = { id := w.threads + index, rest := task } := by
    rw [start, getElem?_startAll] at hthread
    obtain ⟨task, htask, rfl⟩ := Option.map_eq_some_iff.1 hthread
    exact ⟨task, htask, rfl⟩
  refine ⟨hholds, ?_, ?_, ?_, fun _ _ => rfl⟩
  · intro index thread hthread
    obtain ⟨task, -, rfl⟩ := hget index thread hthread
    rfl
  · intro index thread hthread
    obtain ⟨task, -, rfl⟩ := hget index thread hthread
    exact hidle.symm
  · intro index thread hthread
    obtain ⟨task, htask, rfl⟩ := hget index thread hthread
    exact htasks index task htask

end Threads

end Wiring
