import Wiring.Threads

/-!
# Carrying out requests

`Host.answer` carries out one `Request`, with the host's code where it is needed. The requests that
arise on the way are carried out by the same function with one unit of fuel less: `Engine.step` has
a part for each former of requests, and every part takes what answers those requests as an argument.

Faults are answers. Whatever was begun for a resolution (a key on the stack, a wait, a production)
is ended when the resolution is over, whether it gave a value or a fault.
-/

namespace Wiring

namespace Engine

variable {ρ σ π : Type}

section

variable (host : Host ρ σ π)
variable (answer : (request : Request ρ σ π) → Run ρ σ π request.Answer)

/-- The effective provider of a key, as `World.providerOf` finds it, produces while the key is on
the resolve stack. A key that `World.pushKey` refuses is not looked up. -/
def resolve (id : InjectorId) (key : Key) : Run ρ σ π (Except Fault Ref) := do
  match ← Run.now (·.pushKey key) with
  | .error fault => pure (.error fault)
  | .ok () =>
    Run.change (·.note (.resolving key))
    let outcome ← match ← Run.now (·.providerOf id key) with
      | .error fault => pure (.error fault)
      | .ok provider => answer (.produce id provider)
    Run.change (·.popKey)
    pure outcome

/-- Runs the hooks that a type has at the outset, by `Injector.hooksOf`, in order up to the first
fault. Hooks that are registered meanwhile do not run. -/
def injectMembers (id : InjectorId) (type : ValueType) (object : Ref) :
    Run ρ σ π (Except Fault Unit) := do
  let hooks ← Run.now fun w => ((w.injector id).hooksOf type, w)
  Run.through (fun hook _ => (host.hook hook id object).run answer) hooks ()

/-- Leads a value through one stage: the host's routine, or the hooks of a type by
`Request.injectMembers`. -/
def complete (id : InjectorId) (stage : Stage ρ) (object : Ref) :
    Run ρ σ π (Except Fault Ref) := do
  match stage with
  | .routine routine => (host.stage routine id object).run answer
  | .memberInjection type =>
    match ← answer (.injectMembers id type object) with
    | .error fault => pure (.error fault)
    | .ok () => pure (.ok object)

/-- The value in a slot if there is one; else the slot is taken, and is `Slot.busy` from then on.
While another has taken it, this step has to wait, as `Halt.blocked`. -/
def takeSlot (slot : SlotId) : Run ρ σ π (Option Ref) :=
  .step fun w =>
    match w.slot slot with
    | .filled object => .ok (some object, w)
    | .empty => .ok (none, w.setSlot slot .busy)
    | .busy => .error .blocked

/-- The delegate of a singleton produces for a slot that `takeSlot` has taken, and the slot is given
back: with the value, or empty after a fault. `World.startProducing` and `World.stopProducing`
record the work. -/
def initialise (id : InjectorId) (slot : SlotId) (key : Key) (type : ValueType)
    (delegate : Provider ρ) : Run ρ σ π (Except Fault Ref) := do
  Run.change (·.startProducing id key)
  Run.change (·.note (.creatingSingleton slot type))
  let outcome ← answer (.produce id delegate)
  Run.change (·.stopProducing id key)
  let kept : Slot := match outcome with
    | .ok object => .filled object
    | .error _ => .empty
  Run.change (·.setSlot slot kept)
  pure outcome

/-- The value of a singleton that the thread waits for: the one that another thread made meanwhile,
as `takeSlot` finds it, else the one that its delegate produces now, by `initialise`. -/
def takeOrMake (id : InjectorId) (slot : SlotId) (key : Key) (type : ValueType)
    (delegate : Provider ρ) : Run ρ σ π (Except Fault Ref) := do
  match ← takeSlot slot with
  | some object => pure (.ok object)
  | none => initialise answer id slot key type delegate

/-- Waits for the value of a singleton by `takeOrMake`, unless that wait would never end: then
`World.awaitKey` refuses it. -/
def await (id : InjectorId) (slot : SlotId) (key : Key) (type : ValueType)
    (delegate : Provider ρ) : Run ρ σ π (Except Fault Ref) := do
  match ← Run.now (·.awaitKey id key) with
  | .error fault => pure (.error fault)
  | .ok () =>
    let outcome ← takeOrMake answer id slot key type delegate
    Run.change (·.stopAwaiting id key)
    pure outcome

/-- The value of a singleton: the one that its slot keeps, else the one that comes of `await`. -/
def single (id : InjectorId) (slot : SlotId) (key : Key) (type : ValueType)
    (delegate : Provider ρ) : Run ρ σ π (Except Fault Ref) := do
  match ← Run.now fun w => (w.slot slot, w) with
  | .filled object => pure (.ok object)
  | _ => await answer id slot key type delegate

/-- The entries that a roster has at the outset produce in the order of `World.ordered`, up to the
first fault, and a new list object holds what they gave. -/
def assembleList (id : InjectorId) (roster : RosterId) : Run ρ σ π (Except Fault Ref) := do
  match ← Run.now (·.ordered roster) with
  | .error fault => pure (.error fault)
  | .ok entries =>
    Run.change fun w => w.note (.producingList (w.roster roster).list entries.length)
    match ← Run.inTurn (fun entry => answer (.produce id entry.provider)) entries with
    | .error fault => pure (.error fault)
    | .ok objects =>
      let list ← Run.now (·.allocate (.list objects))
      pure (.ok list)

/-- The entries that a catalog has at the outset produce by ascending name, up to the first fault,
and a new map object holds what they gave. -/
def assembleMap (id : InjectorId) (catalog : CatalogId) : Run ρ σ π (Except Fault Ref) := do
  let rows ← Run.now fun w => ((w.catalog catalog).entries.rows, w)
  match ← Run.inTurn (fun row => answer (.produce id row.2)) rows with
  | .error fault => pure (.error fault)
  | .ok objects =>
    let map ← Run.now (·.allocate (.map ⟨(rows.map (·.1)).zip objects⟩))
    pure (.ok map)

/-- A provider produces, each former in its own way: `single` for singletons, `assembleList` and
`assembleMap` for collections, and `complete` for each stage of a decoration. -/
def produce (id : InjectorId) : Provider ρ → Run ρ σ π (Except Fault Ref)
  | .fixed object => pure (.ok object)
  | .factory type routine => do
    Run.change (·.note (.runningFactory type))
    (host.make routine id).run answer
  | .lookup key => answer (.resolve id key)
  | .decorating delegate stages => do
    match ← answer (.produce id delegate) with
    | .error fault => pure (.error fault)
    | .ok object => Run.through (complete host answer id) stages object
  | .singleton slot key type delegate => single answer id slot key type delegate
  | .list roster => assembleList answer id roster
  | .map catalog => assembleMap answer id catalog

/-- Installs a module after those that it needs, by `Host.imports`, unless one of its `Host.kind` is
installed. The kind counts as installed from the outset, before anything is configured. -/
def install (id : InjectorId) (module : ρ) : Run ρ σ π (Except Fault Unit) := do
  let kind := host.kind module
  let known ← Run.now fun w => ((w.injector id).installed.contains kind, w)
  if known then
    Run.change (·.note (.alreadyInstalled kind))
    pure (.ok ())
  else
    -- marked before the modules it needs, so modules that need each other come to an end
    Run.change (·.markInstalled id kind)
    match ← Run.through (fun needed _ => answer (.install id needed)) (host.imports module) () with
    | .error fault => pure (.error fault)
    | .ok () =>
      Run.change (·.note (.configuring kind))
      (host.configure module id).run answer

/-- Resolves a key on a new thread with a resolve stack of its own, and goes on once it is over. -/
def resolveApart (id : InjectorId) (key : Key) : Run ρ σ π (Except Fault Ref) := do
  let (thread, stack) ← Run.now fun w =>
    ((w.thread, w.stack), { w with threads := w.threads + 1 }.switchTo w.threads [])
  let outcome ← answer (.resolve id key)
  Run.change (·.switchTo thread stack)
  pure outcome

end

/-- Carries out a request; `answer` carries out those that arise on the way. Threads that run
together, by `Run.together`, take at most `steps` steps. -/
def step (host : Host ρ σ π) (steps : Nat)
    (answer : (request : Request ρ σ π) → Run ρ σ π request.Answer) :
    (request : Request ρ σ π) → Run ρ σ π request.Answer
  | .act action => Run.now action.perform
  | .resolve id key => resolve answer id key
  | .produce id provider => produce host answer id provider
  | .injectMembers id type object => injectMembers host answer id type object
  | .install id module => install host answer id module
  | .resolveApart id key => resolveApart answer id key
  | .resolveTogether id keys => Run.together steps (keys.map fun key => answer (.resolve id key))
  | .pause => .pause ()

end Engine

/-- Carries out a request with so much fuel: the requests may nest so deeply, and threads that run
together may take so many steps. By `Host.answer_of_le` the fuel matters only if it runs out. -/
def Host.answer {ρ σ π : Type} (host : Host ρ σ π) :
    (fuel : Nat) → (request : Request ρ σ π) → Run ρ σ π request.Answer
  | 0, _ => Run.halt .outOfFuel
  | fuel + 1, request => Engine.step host fuel (host.answer fuel) request

/-- Runs code of the host with so much fuel, its requests carried out by `Host.answer`. -/
def Host.run {ρ σ π α : Type} (host : Host ρ σ π) (fuel : Nat) (code : Code ρ σ π α) :
    Run ρ σ π α :=
  code.run (host.answer fuel)

end Wiring
