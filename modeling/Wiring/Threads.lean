import Wiring.Run

/-!
# Threads that share a world

Several computations go on at the same time, each on a `Thread` of its own with a resolve stack of
its own. The state of them all, `Threads`, is data, and `Threads.step` is one step of one of them.
Threads notice each other through the world alone: a singleton is made by one thread at a time, and
the others sleep. When it succeeds they find the value, and when it fails one of them tries again.
-/

namespace Wiring

variable {ρ σ π α : Type}

/-- A computation on a thread of its own. -/
structure Thread (ρ σ π α : Type) where
  id : ThreadId
  /-- The keys that the thread is resolving, which are on the stack of the world while it runs. -/
  stack : ResolveStack := []
  /-- What the thread has left to do, as `Run.advance` leaves it. -/
  rest : Run ρ σ π α

/-- New threads for tasks, numbered from `id` on, each with an empty stack. -/
def Thread.startAll (id : ThreadId) : List (Run ρ σ π α) → List (Thread ρ σ π α)
  | [] => []
  | rest :: tasks => { id, rest } :: startAll (id + 1) tasks

/-- Threads, and the world that they share. -/
structure Threads (ρ σ π α : Type) where
  world : World ρ σ π
  threads : List (Thread ρ σ π α)

namespace Threads

/-- A new thread for each of the tasks, by `Thread.startAll`; `World.threads` counts them. -/
def start (w : World ρ σ π) (tasks : List (Run ρ σ π α)) : Threads ρ σ π α where
  world := { w with threads := w.threads + tasks.length }
  threads := Thread.startAll w.threads tasks

/-- What the thread at `index` comes to next by `Run.advance`; it sees its own number and its own
stack. -/
def next (s : Threads ρ σ π α) (index : Nat) : Run.Progress ρ σ π α :=
  match s.threads[index]? with
  | none => .halted .blocked
  | some thread => thread.rest.advance (s.world.switchTo thread.id thread.stack)

/-- The state once the thread at `index` has taken a step, which has left the world `w`. The thread
takes the stack of that world with it. -/
def moveOn (s : Threads ρ σ π α) (index : Nat) (rest : Run ρ σ π α) (w : World ρ σ π) :
    Threads ρ σ π α where
  world := w
  threads := s.threads.set index { id := w.thread, stack := w.stack, rest }

/-- The state once the thread at `index` has given way, which does not change the world. -/
def leavePause (s : Threads ρ σ π α) (index : Nat) (rest : Run ρ σ π α) : Threads ρ σ π α :=
  { s with threads := s.threads.modify index fun thread => { thread with rest } }

/-- One step of the thread at `index`, as `next` tells it; `Halt.blocked` if it sleeps, or has a
result. -/
def step (s : Threads ρ σ π α) (index : Nat) : Except Halt (Threads ρ σ π α) :=
  match s.next index with
  | .ended _ => .error .blocked
  | .halted reason => .error reason
  | .gaveWay rest => .ok (s.leavePause index rest)
  | .stepped rest w => .ok (s.moveOn index rest w)

/-- The results of threads by `Run.result?`, once none of them has a step left. -/
def resultsOf? : List (Thread ρ σ π α) → Option (List α)
  | [] => some []
  | thread :: rest =>
    match thread.rest.result?, resultsOf? rest with
    | some result, some results => some (result :: results)
    | _, _ => none

/-- The results of all threads by `resultsOf?`, once none of them has a step left. -/
def results? (s : Threads ρ σ π α) : Option (List α) :=
  resultsOf? s.threads

/-- Steps the thread at `index` until it is about to give way, has a result or sleeps. -/
def approach (index : Nat) :
    (steps : Nat) → Threads ρ σ π α → Except Halt (Threads ρ σ π α)
  | 0, _ => .error .outOfFuel
  | steps + 1, s =>
    match s.next index with
    | .ended _ => .ok s
    | .halted .blocked => .ok s
    | .halted .outOfFuel => .error .outOfFuel
    | .gaveWay _ => .ok s
    | .stepped rest w => approach index steps (s.moveOn index rest w)

/-- One thread after another is stepped by `approach` until it is about to give way, has a result or
sleeps. -/
def approachAll (steps : Nat) :
    List Nat → Threads ρ σ π α → Except Halt (Threads ρ σ π α)
  | [], s => .ok s
  | index :: rest, s =>
    match s.approach index steps with
    | .error reason => .error reason
    | .ok s => approachAll steps rest s

/-- Steps the first of some threads that can take a step, and tells which. -/
def stepFirst (s : Threads ρ σ π α) : List Nat → Except Halt (Nat × Threads ρ σ π α)
  | [] => .error .blocked
  | index :: rest =>
    match s.step index with
    | .error .blocked => s.stepFirst rest
    | .error .outOfFuel => .error .outOfFuel
    | .ok s => .ok (index, s)

/-- Steps the thread at `current` as long as it can take a step, then the first that can, and so on
until none can; each turn is one of `stepFirst`. -/
def finish : (steps : Nat) → (current : Nat) → Threads ρ σ π α → Except Halt (Threads ρ σ π α)
  | 0, _, _ => .error .outOfFuel
  | steps + 1, current, s =>
    match s.stepFirst (current :: List.range s.threads.length) with
    | .error .blocked => .ok s
    | .error .outOfFuel => .error .outOfFuel
    | .ok (current, s) => finish steps current s

/-- All threads get as far as they give way before any goes on (`approachAll`); then the first goes
on, and each other once all before it have a result or sleep (`finish`). -/
def play (steps : Nat) (s : Threads ρ σ π α) : Except Halt (Threads ρ σ π α) :=
  match s.approachAll steps (List.range s.threads.length) with
  | .error reason => .error reason
  | .ok s => s.finish steps 0

end Threads

namespace Run

/-- Carries out tasks at the same time by `Threads.play`, each on a new thread, and gives their
results. The thread that asks for it does nothing else meanwhile. -/
def together (steps : Nat) (tasks : List (Run ρ σ π α)) : Run ρ σ π (List α) :=
  .step fun w =>
    match (Threads.start w tasks).play steps with
    | .error reason => .error reason
    | .ok s =>
      match s.results? with
      | none => .error .blocked
      | some results => .ok (results, s.world.switchTo w.thread w.stack)

end Run

namespace Threads

/-! ### Interleavings

How the threads take turns is no more than which of them steps next, so whatever holds in every
state that `Threads.Reaches` leads to holds however they take turns; `reaches_of_play` says that
`play` is one of these ways. -/

/-- Some interleaving of steps leads from `s` to the other state: any thread that `Threads.step`
lets step may be the next. -/
inductive Reaches (s : Threads ρ σ π α) : Threads ρ σ π α → Prop where
  | refl : Reaches s s
  | step {t u : Threads ρ σ π α} {index : Nat} (h : Reaches s t) (hs : t.step index = .ok u) :
      Reaches s u

theorem Reaches.trans {s t u : Threads ρ σ π α} (h : s.Reaches t) (k : t.Reaches u) :
    s.Reaches u := by
  induction k with
  | refl => exact h
  | step _ hs ih => exact .step ih hs

theorem next_of_getElem? {s : Threads ρ σ π α} {index : Nat} {thread : Thread ρ σ π α}
    (h : s.threads[index]? = some thread) :
    s.next index = thread.rest.advance (s.world.switchTo thread.id thread.stack) := by
  rw [next, h]

/-- All that a step can be: the thread gives way, and `leavePause` is what comes of it, or it
changes the world as it finds it, by `moveOn`. -/
theorem step_cases {s t : Threads ρ σ π α} {index : Nat} (h : s.step index = .ok t) :
    ∃ thread, s.threads[index]? = some thread ∧
      ((∃ rest, thread.rest.advance (s.world.switchTo thread.id thread.stack) = .gaveWay rest ∧
          t = s.leavePause index rest) ∨
        ∃ rest w, thread.rest.advance (s.world.switchTo thread.id thread.stack) = .stepped rest w ∧
          t = s.moveOn index rest w) := by
  cases hthread : s.threads[index]? with
  | none =>
    rw [step, next, hthread] at h
    cases h
  | some thread =>
    rw [step, next_of_getElem? hthread] at h
    refine ⟨thread, rfl, ?_⟩
    split at h
    case h_1 => cases h
    case h_2 => cases h
    case h_3 rest hadvance => exact .inl ⟨rest, hadvance, (Except.ok.inj h).symm⟩
    case h_4 rest w hadvance => exact .inr ⟨rest, w, hadvance, (Except.ok.inj h).symm⟩

theorem step_eq_of_stepped {s : Threads ρ σ π α} {index : Nat} {rest : Run ρ σ π α}
    {w : World ρ σ π} (h : s.next index = .stepped rest w) :
    s.step index = .ok (s.moveOn index rest w) := by
  rw [step, h]

theorem step_of_stepFirst {s t : Threads ρ σ π α} {indices : List Nat} {index : Nat}
    (h : s.stepFirst indices = .ok (index, t)) : s.step index = .ok t := by
  induction indices with
  | nil => cases h
  | cons i rest ih =>
    rw [stepFirst] at h
    split at h
    case h_1 => exact ih h
    case h_2 => cases h
    case h_3 u hu =>
      cases h
      exact hu

/-- Where none of some threads can step by `stepFirst`, each of them sleeps or has a result. -/
theorem stepFirst_eq_blocked {s : Threads ρ σ π α} {indices : List Nat}
    (h : s.stepFirst indices = .error .blocked) :
    ∀ index ∈ indices, s.step index = .error .blocked := by
  induction indices with
  | nil => exact fun _ hi => nomatch hi
  | cons index rest ih =>
    rw [stepFirst] at h
    split at h
    case h_1 hs =>
      intro i hi
      cases hi with
      | head => exact hs
      | tail _ hi => exact ih h i hi
    case h_2 => cases h
    case h_3 => cases h

theorem reaches_of_approach {index steps : Nat} {s t : Threads ρ σ π α}
    (h : s.approach index steps = .ok t) : s.Reaches t := by
  induction steps generalizing s with
  | zero => cases h
  | succ steps ih =>
    rw [approach] at h
    split at h
    case h_1 =>
      cases h
      exact .refl
    case h_2 =>
      cases h
      exact .refl
    case h_3 => cases h
    case h_4 =>
      cases h
      exact .refl
    -- one step, then the rest of the way
    case h_5 hn => exact .trans (.step .refl (step_eq_of_stepped hn)) (ih h)

theorem reaches_of_approachAll {steps : Nat} {indices : List Nat} {s t : Threads ρ σ π α}
    (h : s.approachAll steps indices = .ok t) : s.Reaches t := by
  induction indices generalizing s with
  | nil =>
    cases h
    exact .refl
  | cons index rest ih =>
    rw [approachAll] at h
    split at h
    · cases h
    case h_2 u hu => exact .trans (reaches_of_approach hu) (ih h)

theorem reaches_of_finish {steps current : Nat} {s t : Threads ρ σ π α}
    (h : s.finish steps current = .ok t) : s.Reaches t := by
  induction steps generalizing s current with
  | zero => cases h
  | succ steps ih =>
    rw [finish] at h
    split at h
    · cases h
      exact .refl
    · cases h
    case h_3 hu => exact .trans (.step .refl (step_of_stepFirst hu)) (ih h)

/-- What the threads come to by `play` is one of the states that an interleaving of their steps
reaches. -/
theorem reaches_of_play {steps : Nat} {s t : Threads ρ σ π α} (h : s.play steps = .ok t) :
    s.Reaches t := by
  rw [play] at h
  split at h
  · cases h
  case h_2 u hu => exact .trans (reaches_of_approachAll hu) (reaches_of_finish h)

/-- In what the threads come to by `finish`, each of them has a result or sleeps. -/
theorem step_of_finish {steps current : Nat} {s t : Threads ρ σ π α}
    (h : s.finish steps current = .ok t) {index : Nat} (hi : index < t.threads.length) :
    t.step index = .error .blocked := by
  induction steps generalizing s current with
  | zero => cases h
  | succ steps ih =>
    rw [finish] at h
    split at h
    case h_1 hb =>
      cases h
      exact stepFirst_eq_blocked hb index (.tail _ (List.mem_range.2 hi))
    case h_2 => cases h
    case h_3 => exact ih h

end Threads

end Wiring
