import Wiring.Engine
import Wiring.Session.Routines

/-!
# Playing a session

The operations run one after the other on one world, by `playAll`, each with the events and log
lines that it gives rise to. A session with an operation that waits for ever, or that nests too
deeply, gives no reply.
-/

namespace Wiring.Session

/-- What is shown of one operation. -/
structure Step where
  answer : Answer
  events : List Reply
  log : List LogEvent

/-- How deep requests may nest, and how many steps threads may take together: the fuel of
`Host.run`. -/
def nesting : Nat := 1000000

/-- A world with one injector, on a thread that resolves nothing. -/
def start : World Routine Memory Datum :=
  let empty : World Routine Memory Datum := { memory := {} }
  let (id, w) := empty.newInjector
  { w with memory := { injectors := #[id] } }

/-- Carries out one operation on the first injector by `Op.run`, unless it comes to no end. -/
def play (w : World Routine Memory Datum) (op : Op) :
    Except Halt (Step × World Routine Memory Datum) :=
  let first : InjectorId := (w.memory.injectors[0]?).getD default
  let fresh := { w with log := #[], memory := { w.memory with events := #[] } }
  match (host.run nesting (op.run first)).run fresh with
  | .ok (answer, w) => .ok ({ answer, events := w.memory.events.toList, log := w.log.toList }, w)
  | .error reason => .error reason

namespace Step

/-- A step as a reply, with its log if that is wanted. -/
def reply (step : Step) (withLog : Bool) : Reply :=
  let events := if step.events.isEmpty then [] else [("ev", Reply.items step.events)]
  let log := if withLog then [("log", Reply.items (step.log.map (.text ·.line)))] else []
  .fields (step.answer.fields ++ events ++ log)

end Step

/-- Carries out operations from a world on, by `play`, each in the world that the one before has
left. -/
def playAll (w : World Routine Memory Datum) : List Op → Except Halt (List Step)
  | [] => .ok []
  | op :: rest => do
    let (step, w) ← play w op
    let steps ← playAll w rest
    pure (step :: steps)

/-- The replies to the operations of a session from `start` on, if all of them come to an end. -/
def replies (ops : List Op) (withLog : Bool) : Except Halt Reply := do
  let steps ← playAll start ops
  pure (.fields [("steps", .items (steps.map (·.reply withLog)))])

end Wiring.Session
