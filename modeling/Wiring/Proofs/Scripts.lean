import Wiring.Engine

/-!
# The course of a run

A `Run` no longer tells which of its steps carry out which request, for the answers are built into
it. A `Script` is a computation in which requests stand by name and the work of a singleton's
delegate is marked with its slot. Each request has a script, which is the engine's own part for it
once the answers are filled in (`Script.toRun_request`), so the scripts add no behaviour; they tell
what happens on the way: which requests are asked in which world, what they are answered, and when
the delegate of a slot begins and ends. These moments, in their order, are the course of a run.

* **`Script.toRun`** — fills the answers in; `Code.script` and `Script.request` are the scripts of
  code and of requests.
-/

namespace Wiring

variable {ρ σ π : Type}

/-- A computation in which the requests that it makes stand by name, beside the steps of a `Run`. -/
inductive Script (ρ σ π : Type) : Type → Type 1 where
  | done {α : Type} (result : α) : Script ρ σ π α
  /-- One moment, as `Run.step` has it. -/
  | step {α : Type} (take : World ρ σ π → Except Halt (α × World ρ σ π)) : Script ρ σ π α
  | ask (request : Request ρ σ π) : Script ρ σ π request.Answer
  /-- The delegate of the singleton that keeps its value in `slot` is at work, and `work` is what it
  does. -/
  | making (slot : SlotId) (work : Script ρ σ π (Except Fault Ref)) :
      Script ρ σ π (Except Fault Ref)
  /-- What is up to other threads; a script does not tell what happens there, and has only the `Run`
  for it. -/
  | apart {α : Type}
      (part : ((request : Request ρ σ π) → Run ρ σ π request.Answer) → Run ρ σ π α) :
      Script ρ σ π α
  | bind {α β : Type} (first : Script ρ σ π β) (next : β → Script ρ σ π α) : Script ρ σ π α

namespace Script

variable {α β : Type}

instance : Monad (Script ρ σ π) where
  pure := .done
  bind := .bind

/-- A step that is always possible, as `Run.now` is. -/
def now (f : World ρ σ π → α × World ρ σ π) : Script ρ σ π α :=
  .step fun w => .ok (f w)

/-- A change of the world, as `Run.change` makes it. -/
def change (f : World ρ σ π → World ρ σ π) : Script ρ σ π Unit :=
  now fun w => ((), f w)

/-- The computation with the answers filled in: the `Run` that the script tells of. -/
def toRun (answer : (request : Request ρ σ π) → Run ρ σ π request.Answer) {α : Type} :
    Script ρ σ π α → Run ρ σ π α
  | .done result => .done result
  | .step take => .step take
  | .ask request => answer request
  | .making _ work => work.toRun answer
  | .apart part => part answer
  | .bind first next => .bind (first.toRun answer) fun b => (next b).toRun answer

/-- One after the other, up to the first fault, as in `Run.inTurn`. -/
def inTurn (f : α → Script ρ σ π (Except Fault β)) :
    List α → Script ρ σ π (Except Fault (List β))
  | [] => pure (.ok [])
  | a :: rest => do
    match ← f a with
    | .error fault => pure (.error fault)
    | .ok b =>
      match ← inTurn f rest with
      | .error fault => pure (.error fault)
      | .ok bs => pure (.ok (b :: bs))

/-- Leads a value through all, up to the first fault, as in `Run.through`. -/
def through (f : α → β → Script ρ σ π (Except Fault β)) :
    List α → β → Script ρ σ π (Except Fault β)
  | [], b => pure (.ok b)
  | a :: rest, b => do
    match ← f a b with
    | .error fault => pure (.error fault)
    | .ok b => through f rest b

end Script

/-- The code with its requests by name, as `Code.run` carries it out. -/
def Code.script {α : Type} : Code ρ σ π α → Script ρ σ π α
  | .done result => pure result
  | .ask request next => do
    let reply ← .ask request
    (next reply).script

/-! ### The scripts of the requests -/

namespace Script

def resolve (id : InjectorId) (key : Key) : Script ρ σ π (Except Fault Ref) := do
  match ← now (·.pushKey key) with
  | .error fault => pure (.error fault)
  | .ok () =>
    change (·.note (.resolving key))
    let outcome ← match ← now (·.providerOf id key) with
      | .error fault => pure (.error fault)
      | .ok provider => ask (.produce id provider)
    change (·.popKey)
    pure outcome

def injectMembers (host : Host ρ σ π) (id : InjectorId) (type : ValueType) (object : Ref) :
    Script ρ σ π (Except Fault Unit) := do
  let hooks ← now fun w => ((w.injector id).hooksOf type, w)
  through (fun hook _ => (host.hook hook id object).script) hooks ()

def complete (host : Host ρ σ π) (id : InjectorId) (stage : Stage ρ) (object : Ref) :
    Script ρ σ π (Except Fault Ref) := do
  match stage with
  | .routine routine => (host.stage routine id object).script
  | .memberInjection type =>
    match ← ask (.injectMembers id type object) with
    | .error fault => pure (.error fault)
    | .ok () => pure (.ok object)

/-- The slot of a singleton has been taken, and its delegate is at work until it is given back, as
in `Engine.initialise`. -/
def initialise (id : InjectorId) (slot : SlotId) (key : Key) (type : ValueType)
    (delegate : Provider ρ) : Script ρ σ π (Except Fault Ref) :=
  .making slot do
    change (·.startProducing id key)
    change (·.note (.creatingSingleton slot type))
    let outcome ← ask (.produce id delegate)
    change (·.stopProducing id key)
    let kept : Slot := match outcome with
      | .ok object => .filled object
      | .error _ => .empty
    change (·.setSlot slot kept)
    pure outcome

def takeOrMake (id : InjectorId) (slot : SlotId) (key : Key) (type : ValueType)
    (delegate : Provider ρ) : Script ρ σ π (Except Fault Ref) := do
  let taken ← step fun w : World ρ σ π =>
    match w.slot slot with
    | .filled object => .ok (some object, w)
    | .empty => .ok (none, w.setSlot slot .busy)
    | .busy => .error .blocked
  match taken with
  | some object => pure (.ok object)
  | none => initialise id slot key type delegate

def await (id : InjectorId) (slot : SlotId) (key : Key) (type : ValueType)
    (delegate : Provider ρ) : Script ρ σ π (Except Fault Ref) := do
  match ← now (·.awaitKey id key) with
  | .error fault => pure (.error fault)
  | .ok () =>
    let outcome ← takeOrMake id slot key type delegate
    change (·.stopAwaiting id key)
    pure outcome

def single (id : InjectorId) (slot : SlotId) (key : Key) (type : ValueType)
    (delegate : Provider ρ) : Script ρ σ π (Except Fault Ref) := do
  match ← now fun w => (w.slot slot, w) with
  | .filled object => pure (.ok object)
  | _ => await id slot key type delegate

def assembleList (id : InjectorId) (roster : RosterId) : Script ρ σ π (Except Fault Ref) := do
  match ← now (·.ordered roster) with
  | .error fault => pure (.error fault)
  | .ok entries =>
    change fun w => w.note (.producingList (w.roster roster).list entries.length)
    match ← inTurn (fun entry => ask (.produce id entry.provider)) entries with
    | .error fault => pure (.error fault)
    | .ok objects =>
      let list ← now (·.allocate (.list objects))
      pure (.ok list)

def assembleMap (id : InjectorId) (catalog : CatalogId) : Script ρ σ π (Except Fault Ref) := do
  let rows ← now fun w => ((w.catalog catalog).entries.rows, w)
  match ← inTurn (fun row => ask (.produce id row.2)) rows with
  | .error fault => pure (.error fault)
  | .ok objects =>
    let map ← now (·.allocate (.map ⟨(rows.map (·.1)).zip objects⟩))
    pure (.ok map)

def produce (host : Host ρ σ π) (id : InjectorId) :
    Provider ρ → Script ρ σ π (Except Fault Ref)
  | .fixed object => pure (.ok object)
  | .factory type routine => do
    change (·.note (.runningFactory type))
    (host.make routine id).script
  | .lookup key => ask (.resolve id key)
  | .decorating delegate stages => do
    match ← ask (.produce id delegate) with
    | .error fault => pure (.error fault)
    | .ok object => through (complete host id) stages object
  | .singleton slot key type delegate => single id slot key type delegate
  | .list roster => assembleList id roster
  | .map catalog => assembleMap id catalog

def install (host : Host ρ σ π) (id : InjectorId) (module : ρ) :
    Script ρ σ π (Except Fault Unit) := do
  let kind := host.kind module
  let known ← now fun w => ((w.injector id).installed.contains kind, w)
  if known then
    change (·.note (.alreadyInstalled kind))
    pure (.ok ())
  else
    change (·.markInstalled id kind)
    match ← through (fun needed _ => ask (.install id needed)) (host.imports module) () with
    | .error fault => pure (.error fault)
    | .ok () =>
      change (·.note (.configuring kind))
      (host.configure module id).script

/-- The script of a request, for what `Engine.step` does. What goes on on other threads is left to
them. -/
def request (host : Host ρ σ π) (steps : Nat) :
    (request : Request ρ σ π) → Script ρ σ π request.Answer
  | .act action => now action.perform
  | .resolve id key => resolve id key
  | .produce id provider => produce host id provider
  | .injectMembers id type object => injectMembers host id type object
  | .install id module => install host id module
  | .resolveApart id key => .apart (Engine.step host steps · (.resolveApart id key))
  | .resolveTogether id keys => .apart (Engine.step host steps · (.resolveTogether id keys))
  | .pause => .apart (Engine.step host steps · .pause)

/-! ### Scripts are the parts of the engine -/

section

variable {α β : Type} (host : Host ρ σ π)
variable (answer : (request : Request ρ σ π) → Run ρ σ π request.Answer)

theorem toRun_inTurn (f : α → Script ρ σ π (Except Fault β)) (items : List α) :
    (inTurn f items).toRun answer = Run.inTurn (fun a => (f a).toRun answer) items := by
  induction items with
  | nil => rfl
  | cons a rest ih =>
    refine congrArg (Run.bind _) (funext fun outcome => ?_)
    cases outcome with
    | error _ => rfl
    | ok b =>
      refine (congrArg (Run.bind · _) ih).trans (congrArg (Run.bind _) (funext fun outcomes => ?_))
      cases outcomes <;> rfl

theorem toRun_through (f : α → β → Script ρ σ π (Except Fault β)) (items : List α) (b : β) :
    (through f items b).toRun answer = Run.through (fun a b => (f a b).toRun answer) items b := by
  induction items generalizing b with
  | nil => rfl
  | cons a rest ih =>
    refine congrArg (Run.bind _) (funext fun outcome => ?_)
    cases outcome with
    | error _ => rfl
    | ok b => exact ih b

theorem toRun_code (code : Code ρ σ π α) : code.script.toRun answer = code.run answer := by
  induction code with
  | done _ => rfl
  | ask request next ih => exact congrArg (Run.bind _) (funext ih)

theorem toRun_resolve (id : InjectorId) (key : Key) :
    (resolve id key).toRun answer = Engine.resolve answer id key := by
  refine congrArg (Run.bind _) (funext fun pushed => ?_)
  cases pushed with
  | error _ => rfl
  | ok _ =>
    refine congrArg (Run.bind _) (funext fun _ => congrArg (Run.bind _) (funext fun found => ?_))
    cases found <;> rfl

theorem toRun_injectMembers (id : InjectorId) (type : ValueType) (object : Ref) :
    (injectMembers host id type object).toRun answer =
      Engine.injectMembers host answer id type object := by
  refine congrArg (Run.bind _) (funext fun hooks => ?_)
  rw [toRun_through]
  exact congrArg (Run.through · hooks ()) (funext fun hook => funext fun _ => toRun_code answer _)

theorem toRun_complete (id : InjectorId) (stage : Stage ρ) (object : Ref) :
    (complete host id stage object).toRun answer = Engine.complete host answer id stage object := by
  cases stage with
  | routine routine => exact toRun_code answer _
  | memberInjection type =>
    refine congrArg (Run.bind _) (funext fun outcome => ?_)
    cases outcome <;> rfl

theorem toRun_takeOrMake (id : InjectorId) (slot : SlotId) (key : Key) (type : ValueType)
    (delegate : Provider ρ) :
    (takeOrMake id slot key type delegate).toRun answer =
      Engine.takeOrMake answer id slot key type delegate := by
  refine congrArg (Run.bind _) (funext fun taken => ?_)
  cases taken <;> rfl

theorem toRun_single (id : InjectorId) (slot : SlotId) (key : Key) (type : ValueType)
    (delegate : Provider ρ) :
    (single id slot key type delegate).toRun answer =
      Engine.single answer id slot key type delegate := by
  have hawait : (await id slot key type delegate).toRun answer =
      Engine.await answer id slot key type delegate := by
    refine congrArg (Run.bind _) (funext fun granted => ?_)
    cases granted with
    | error _ => rfl
    | ok _ => exact congrArg (Run.bind · _) (toRun_takeOrMake answer id slot key type delegate)
  refine congrArg (Run.bind _) (funext fun found => ?_)
  cases found with
  | filled _ => rfl
  | empty => exact hawait
  | busy => exact hawait

theorem toRun_assembleList (id : InjectorId) (roster : RosterId) :
    (assembleList id roster).toRun answer = Engine.assembleList answer id roster := by
  refine congrArg (Run.bind _) (funext fun ordered => ?_)
  cases ordered with
  | error _ => rfl
  | ok entries =>
    refine congrArg (Run.bind _) (funext fun _ => ?_)
    refine (congrArg (Run.bind · _) (toRun_inTurn answer _ entries)).trans
      (congrArg (Run.bind _) (funext fun outcome => ?_))
    cases outcome <;> rfl

theorem toRun_assembleMap (id : InjectorId) (catalog : CatalogId) :
    (assembleMap id catalog).toRun answer = Engine.assembleMap answer id catalog := by
  refine congrArg (Run.bind _) (funext fun rows => ?_)
  refine (congrArg (Run.bind · _) (toRun_inTurn answer _ rows)).trans
    (congrArg (Run.bind _) (funext fun outcome => ?_))
  cases outcome <;> rfl

theorem toRun_produce (id : InjectorId) (provider : Provider ρ) :
    (produce host id provider).toRun answer = Engine.produce host answer id provider := by
  cases provider with
  | fixed _ => rfl
  | factory type routine => exact congrArg (Run.bind _) (funext fun _ => toRun_code answer _)
  | lookup _ => rfl
  | decorating delegate stages =>
    refine congrArg (Run.bind _) (funext fun outcome => ?_)
    cases outcome with
    | error _ => rfl
    | ok object =>
      refine (toRun_through answer _ stages object).trans ?_
      exact congrArg (Run.through · stages object)
        (funext fun stage => funext fun value => toRun_complete host answer id stage value)
  | singleton slot key type delegate => exact toRun_single answer id slot key type delegate
  | list roster => exact toRun_assembleList answer id roster
  | map catalog => exact toRun_assembleMap answer id catalog

theorem toRun_install (id : InjectorId) (module : ρ) :
    (install host id module).toRun answer = Engine.install host answer id module := by
  refine congrArg (Run.bind _) (funext fun known => ?_)
  cases known with
  | true => rfl
  | false =>
    refine congrArg (Run.bind _) (funext fun _ => ?_)
    refine (congrArg (Run.bind · _) (toRun_through answer _ (host.imports module) ())).trans
      (congrArg (Run.bind _) (funext fun outcome => ?_))
    cases outcome with
    | error _ => rfl
    | ok _ => exact congrArg (Run.bind _) (funext fun _ => toRun_code answer _)

/-- With the answers filled in by `toRun`, the script of a request is what the engine does for
it. -/
theorem toRun_request (steps : Nat) (r : Request ρ σ π) :
    (request host steps r).toRun answer = Engine.step host steps answer r := by
  cases r with
  | act _ => rfl
  | resolve id key => exact toRun_resolve answer id key
  | produce id provider => exact toRun_produce host answer id provider
  | injectMembers id type object => exact toRun_injectMembers host answer id type object
  | install id module => exact toRun_install host answer id module
  | resolveApart _ _ => rfl
  | resolveTogether _ _ => rfl
  | pause => rfl

end

end Script

end Wiring
