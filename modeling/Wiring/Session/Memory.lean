import Wiring.Code
import Wiring.Session.Reply
import Wiring.Session.Syntax

/-!
# The memory of a session

What a session stored under slots, how often each `Routine` ran, the events of the current step, and
the labels under which objects and entries have been shown. Its own code is a `Script`.
-/

namespace Wiring.Session

/-- The code that a session brings. `counter` is where its runs are counted, by `countRun`. -/
inductive Routine where
  /-- A factory for the key of `name`; its value is handed on as a copy if `copied`. -/
  | recipe (name : Name) (counter : Nat) (copied : Bool) (recipe : Recipe)
  | treatment (kind : Kind) (counter : Nat) (treatment : Treatment)
  | hook (kind : Kind) (counter : Nat) (hook : Hook)
  | module (module : Module)
  | crossing (counter : Nat) (crossing : Crossing)

/-- What a session remembers, from one operation to the next. -/
structure Memory where
  injectors : Array InjectorId := #[]
  values : Table String Ref := .empty
  providers : Table String (Provider Routine) := .empty
  singletons : Table String SlotId := .empty
  lists : Table String RosterId := .empty
  maps : Table String CatalogId := .empty
  entries : Table String (List Key) := .empty
  guards : Table String Key := .empty
  /-- The runs of each routine so far, under the numbers that `newCounter` gives. -/
  runs : Array Nat := #[]
  /-- The events of the current step, as `event` records them. -/
  events : Array Reply := #[]
  /-- The objects shown so far; `label` labels an object by its place here. -/
  shown : Array Ref := #[]

/-- Code of a session, with its own routines, memory and data. -/
abbrev Script := Code Routine Memory Datum

namespace Script

/-- The session's memory, by `Action.recall`. -/
def memory : Script Memory :=
  Code.act .recall

/-- Changes the session's memory, by `Action.recall` and `Action.remember`. -/
def modify (f : Memory → Memory) : Script Unit := do
  let memory ← memory
  Code.act (.remember (f memory))

/-- Records an event of the current step, after those that there are. -/
def event (parts : List Reply) : Script Unit :=
  modify fun m => { m with events := m.events.push (.items parts) }

/-- A fault that the session's own code finds, noted by `Action.report`. -/
def fail {α : Type} (fault : Fault) : Script (Except Fault α) := do
  Code.act (.report fault)
  pure (.error fault)

/-- A counter for the runs of a new routine, which has not run yet. -/
def newCounter : Script Nat := do
  let memory ← memory
  Code.act (.remember { memory with runs := memory.runs.push 0 })
  pure memory.runs.size

/-- Counts a run and gives the number of earlier ones. -/
def countRun (counter : Nat) : Script Nat := do
  let memory ← memory
  let earlier := (memory.runs[counter]?).getD 0
  Code.act (.remember { memory with runs := memory.runs.setIfInBounds counter (earlier + 1) })
  pure earlier

/-- The injector with a number, as `Op.at` names it. -/
def injectorAt (index : Nat) : Script InjectorId := do
  let memory ← memory
  pure ((memory.injectors[index]?).getD default)

/-- Stores a value, if there is a slot for it. -/
def storeValue (slot : Option String) (object : Ref) : Script Unit :=
  match slot with
  | none => pure ()
  | some slot => modify fun m => { m with values := m.values.insert slot object }

/-- Stores a provider, if there is a slot for it. -/
def storeProvider (slot : Option String) (provider : Provider Routine) : Script Unit :=
  match slot with
  | none => pure ()
  | some slot => modify fun m => { m with providers := m.providers.insert slot provider }

/-- The key that a reference stands for: a name, or an entry whose key was saved by
`storeEntries`. -/
def keyOf : KeyRef → Script Key
  | .name name => pure name.key
  | .entry slot index => do
    let memory ← memory
    pure (((memory.entries.get? slot).bind (·[index]?)).getD default)

/-- What a script gives once it does not fail, else the fault. -/
def orFault {α : Type} (script : Script (Except Fault α)) (next : α → Script Answer) :
    Script Answer := do
  match ← script with
  | .error fault => pure (.error fault)
  | .ok a => next a

end Script

end Wiring.Session
