import Wiring.Code

/-!
# Computations on the world

A `Run` is built from steps, each of which changes the world at one moment. Run alone, by `Run.run`,
it comes to a result or halts; run beside others, its steps fall between theirs, and `Run.advance`
tells one at a time. A step can have to wait for what others do, and running out of fuel is one way
to `Halt` that never looks like a result.
-/

namespace Wiring

/-- Why a computation does not go on. -/
inductive Halt where
  /-- The fuel of `Host.answer` did not suffice. -/
  | outOfFuel
  /-- The next step has to wait for somebody else, as `Engine.takeSlot` does. -/
  | blocked
deriving DecidableEq

/-- A computation on the world. -/
inductive Run (ρ σ π : Type) : Type → Type 1 where
  | done {α : Type} (result : α) : Run ρ σ π α
  /-- Gives way to the computations that started with this one until they have got as far. -/
  | pause {α : Type} (result : α) : Run ρ σ π α
  /-- One moment. A step that cannot be taken leaves the world alone and may be possible later. -/
  | step {α : Type} (take : World ρ σ π → Except Halt (α × World ρ σ π)) : Run ρ σ π α
  | bind {α β : Type} (first : Run ρ σ π β) (next : β → Run ρ σ π α) : Run ρ σ π α

namespace Run

variable {ρ σ π α β : Type}

instance : Monad (Run ρ σ π) where
  pure := .done
  bind := .bind

/-- A `step` that is always possible. -/
def now (f : World ρ σ π → α × World ρ σ π) : Run ρ σ π α :=
  .step fun w => .ok (f w)

/-- A change of the world, which is always possible and gives nothing back. -/
def change (f : World ρ σ π → World ρ σ π) : Run ρ σ π Unit :=
  now fun w => ((), f w)

def halt (reason : Halt) : Run ρ σ π α :=
  .step fun _ => .error reason

/-! ### One computation alone -/

/-- Takes all steps, with nobody else at work; `pause` gives way to nobody then. -/
def run {α : Type} : Run ρ σ π α → World ρ σ π → Except Halt (α × World ρ σ π)
  | .done result, w => .ok (result, w)
  | .pause result, w => .ok (result, w)
  | .step take, w => take w
  | .bind first next, w =>
    match first.run w with
    | .error reason => .error reason
    | .ok (b, w) => (next b).run w

theorem run_bind (x : Run ρ σ π β) (f : β → Run ρ σ π α) (w : World ρ σ π) :
    (x >>= f).run w = (x.run w).bind fun p => (f p.1).run p.2 := by
  show run (.bind x f) w = _
  rw [run]
  cases x.run w <;> rfl

@[simp] theorem run_now (f : World ρ σ π → α × World ρ σ π) (w : World ρ σ π) :
    (now f).run w = .ok (f w) := rfl

@[simp] theorem run_change (f : World ρ σ π → World ρ σ π) (w : World ρ σ π) :
    (change f).run w = .ok ((), f w) := rfl

/-- What is done one after the other can be put together either way, seen from `run`. -/
theorem run_assoc {γ : Type} (x : Run ρ σ π α) (f : α → Run ρ σ π β) (g : β → Run ρ σ π γ)
    (w : World ρ σ π) :
    (x >>= f >>= g).run w = (x >>= fun a => f a >>= g).run w := by
  simp only [run_bind]
  cases x.run w <;> simp [Except.bind]

/-! ### One step of a computation -/

/-- What a computation comes to next. -/
inductive Progress (ρ σ π α : Type) : Type 1 where
  /-- No step is left. -/
  | ended (result : α)
  /-- The next step cannot be taken. -/
  | halted (reason : Halt)
  /-- It gives way, and `rest` is left to do. -/
  | gaveWay (rest : Run ρ σ π α)
  /-- It took a step, and `rest` is left to do. -/
  | stepped (rest : Run ρ σ π α) (w : World ρ σ π)

/-- What a computation comes to next in a world: it takes the first step that is left, of which
there is none just if `result?` has a result. -/
def advance {α : Type} : Run ρ σ π α → World ρ σ π → Progress ρ σ π α
  | .done result, _ => .ended result
  | .pause result, _ => .gaveWay (.done result)
  | .step take, w =>
    match take w with
    | .error reason => .halted reason
    | .ok (a, w) => .stepped (.done a) w
  | .bind first next, w =>
    match first.advance w with
    | .ended b => (next b).advance w
    | .halted reason => .halted reason
    | .gaveWay rest => .gaveWay (.bind rest next)
    | .stepped rest w => .stepped (.bind rest next) w

/-- The result, once no step is left. -/
def result? {α : Type} : Run ρ σ π α → Option α
  | .done result => some result
  | .pause _ => none
  | .step _ => none
  | .bind first next =>
    match first.result? with
    | none => none
    | some b => (next b).result?

/-- A computation has ended in one world just if it has in all, since `result?` looks at no
world. -/
theorem advance_eq_ended_iff {x : Run ρ σ π α} {a : α} {w : World ρ σ π} :
    x.advance w = .ended a ↔ x.result? = some a := by
  induction x with
  | done result => simp [advance, result?]
  | pause _ => simp [advance, result?]
  | step take =>
    rw [advance]
    split <;> simp [result?]
  | bind first next ihf ihn =>
    rw [advance, result?]
    cases hf : first.advance w with
    | ended b => simp only [ihf.1 hf, ihn]
    | halted _ =>
      cases hr : first.result? with
      | none => simp
      | some b => simp [ihf.2 hr] at hf
    | gaveWay _ =>
      cases hr : first.result? with
      | none => simp
      | some b => simp [ihf.2 hr] at hf
    | stepped _ _ =>
      cases hr : first.result? with
      | none => simp
      | some b => simp [ihf.2 hr] at hf

/-- What a computation comes to alone by `run`, told by what it comes to next by `advance`. -/
theorem run_eq_of_advance (x : Run ρ σ π α) (w : World ρ σ π) :
    x.run w =
      match x.advance w with
      | .ended a => .ok (a, w)
      | .halted reason => .error reason
      | .gaveWay rest => rest.run w
      | .stepped rest v => rest.run v := by
  induction x generalizing w with
  | done _ => rfl
  | pause _ => rfl
  | step take =>
    rw [run, advance]
    cases take w <;> rfl
  | bind first next ihf ihn =>
    rw [run, advance, ihf w]
    cases first.advance w with
    | ended b => exact ihn b w
    | halted _ => rfl
    | gaveWay rest => simp only [run]
    | stepped rest v => simp only [run]

/-! ### Several computations in turn -/

/-- One after the other, up to the first fault, with the results in that order. -/
def inTurn (f : α → Run ρ σ π (Except Fault β)) :
    List α → Run ρ σ π (Except Fault (List β))
  | [] => pure (.ok [])
  | a :: rest => do
    match ← f a with
    | .error fault => pure (.error fault)
    | .ok b =>
      match ← inTurn f rest with
      | .error fault => pure (.error fault)
      | .ok bs => pure (.ok (b :: bs))

/-- Leads a value through all, each going on from what the one before has given, up to the first
fault. -/
def through (f : α → β → Run ρ σ π (Except Fault β)) :
    List α → β → Run ρ σ π (Except Fault β)
  | [], b => pure (.ok b)
  | a :: rest, b => do
    match ← f a b with
    | .error fault => pure (.error fault)
    | .ok b => through f rest b

end Run

/-- Runs code of the host; `answer` carries out its requests, in the order in which they are
made. -/
def Code.run {ρ σ π α : Type} (answer : (request : Request ρ σ π) → Run ρ σ π request.Answer) :
    Code ρ σ π α → Run ρ σ π α
  | .done result => pure result
  | .ask request next => do
    let reply ← answer request
    (next reply).run answer

end Wiring
