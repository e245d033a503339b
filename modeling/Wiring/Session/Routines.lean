import Wiring.Session.Operations

/-!
# Factories, stages, hooks and modules

What the routines of a session stand for, put together in `host`. Each of them may record an event
with the number of its earlier runs, by `ran`, and carry out operations by `runOps`; the answers to
those are events and do not stop it.
-/

namespace Wiring.Session

namespace Script

/-- Records that a routine ran, if it is marked. -/
def ran (what : String) (mark : Option Mark) (earlier : Nat) : Script Unit :=
  match mark with
  | none => pure ()
  | some mark => event [.text what, mark, .number earlier]

/-- Carries out operations, by `Op.run`; their answers are events, faults among them. -/
def runOps (id : InjectorId) : List Op → Script Unit
  | [] => pure ()
  | op :: rest => do
    let answer ← op.run id
    event [.text "op", answer.reply]
    runOps id rest

/-- Renders what is bound under names, by `render`, up to the first fault. -/
def renderAll (id : InjectorId) : List Name → Script (Except Fault (List String)) :=
  forEachTry fun name => do
    match ← Code.send (.resolve id name.key) with
    | .error fault => pure (.error fault)
    | .ok object => do pure (.ok (← render name.kind object))

/-- A text as a value of a kind: the text itself, a service of that name, or its length. -/
def fromText (kind : Kind) (text : String) : Script Ref :=
  match kind with
  | .service | .plugin => allocate (.plain (.service { name := text }))
  | .integer => allocate (.plain (.integer (Int64.ofNat text.length)))
  | _ => allocate (.plain (.text text))

end Script

open Script

/-! ### Factories -/

mutual

/-- Makes a value for the key of `name`; `earlier` is the number of earlier runs, as `countRun`
gives it. -/
def Recipe.run (name : Name) (earlier : Nat) (id : InjectorId) :
    Recipe → Script (Except Fault Ref)
  | .mk mark first making => do
    ran "make" mark earlier
    runOps id first
    making.run name earlier id

def Making.run (name : Name) (earlier : Nat) (id : InjectorId) :
    Making → Script (Except Fault Ref)
  | .literal value => do pure (.ok (← build name.kind value))
  | .numbered start => do pure (.ok (← fromText name.kind (start ++ toString earlier)))
  | .counted start => do
    pure (.ok (← allocate (.plain (.integer (start + Int64.ofNat earlier)))))
  | .fail reason => fail (.providerFailed name.key reason)
  | .fault kind message => fail (.custom kind message)
  | .concat names separator => do
    match ← renderAll id names with
    | .error fault => pure (.error fault)
    | .ok parts => do pure (.ok (← fromText name.kind (String.intercalate separator parts)))
  | .use qualifier => Code.send (.resolve id (Name.key ⟨name.kind, qualifier⟩))
  | .inSequence recipes => runNthRecipe name earlier id earlier recipes
  | .attempt recipe otherwise => do
    match ← recipe.run name earlier id with
    | .ok object => pure (.ok object)
    | .error fault => do
      event [.text "caught", Reply.ofFault fault]
      otherwise.run name earlier id
  | .other recipe injector => do
    match injector with
    | none => recipe.run name earlier id
    | some index => do
      let other ← injectorAt index
      recipe.run name earlier other

/-- The recipe at a place, or the last one: `Making.inSequence` has one for each run. -/
def runNthRecipe (name : Name) (earlier : Nat) (id : InjectorId) :
    Nat → List Recipe → Script (Except Fault Ref)
  | _, [] => fail (.providerFailed name.key "")
  | _, [recipe] => recipe.run name earlier id
  | 0, recipe :: _ => recipe.run name earlier id
  | place + 1, _ :: rest => runNthRecipe name earlier id place rest

end

/-- Makes the text of a crossing: its own qualifier, with the text that it asks for. It asks only
once the threads that started with it are inside their factories too. -/
def Crossing.run (id : InjectorId) (crossing : Crossing) : Script (Except Fault Ref) := do
  let own := crossing.qualifier.getD ""
  let made := fun text => do pure (.ok (← allocate (.plain (.text text))))
  Code.send .pause
  match crossing.wanted with
  | none => made own
  | some qualifier => do
    match ← renderAll id [⟨.text, qualifier⟩], crossing.recover with
    | .ok parts, _ => made (own ++ "<" ++ String.join parts ++ ">")
    | .error fault, some word => made (own ++ "!" ++ word ++ "!" ++ fault.message)
    | .error fault, none => pure (.error fault)

/-! ### Stages -/

mutual

/-- Leads a value of a kind through a stage; `earlier` is the number of earlier runs, as `countRun`
gives it. -/
def Treatment.run (kind : Kind) (earlier : Nat) (id : InjectorId) (object : Ref) :
    Treatment → Script (Except Fault Ref)
  | .mk mark first effect => do
    ran "stage" mark earlier
    runOps id first
    effect.run kind earlier id object

def Effect.run (kind : Kind) (earlier : Nat) (id : InjectorId) (object : Ref) :
    Effect → Script (Except Fault Ref)
  | .inSequence treatments => runNthTreatment kind earlier id object earlier treatments
  | .wrap before after => do pure (.ok (← wrap before after kind object))
  | .suffix name => do
    match ← renderAll id [name] with
    | .error fault => pure (.error fault)
    | .ok parts => do pure (.ok (← wrap "" (String.join parts) kind object))
  | .replace value => do pure (.ok (← build kind value))
  | .fail reason => fail (.providerFailed ⟨kind.type, none⟩ reason)
  | .keep => pure (.ok object)

/-- The treatment at a place, or the last one: `Effect.inSequence` has one for each run. -/
def runNthTreatment (kind : Kind) (earlier : Nat) (id : InjectorId) (object : Ref) :
    Nat → List Treatment → Script (Except Fault Ref)
  | _, [] => pure (.ok object)
  | _, [treatment] => treatment.run kind earlier id object
  | 0, treatment :: _ => treatment.run kind earlier id object
  | place + 1, _ :: rest => runNthTreatment kind earlier id object place rest

end

/-! ### Hooks -/

namespace Script

/-- Changes the service that an object is, by `Action.write`; other values stay as they are. -/
def modifyService (kind : Kind) (object : Ref) (f : Service → Service) : Script Unit := do
  match kind.isService, ← contentOf object with
  | true, .plain (.service service) => Code.act (.write object (.plain (.service (f service))))
  | _, _ => pure ()

/-- Fills the slot of a service with the text bound under a qualifier, unless it is filled. The
text is resolved in any case. -/
def fill (kind : Kind) (id : InjectorId) (object : Ref) (qualifier : Option String) :
    Script (Except Fault Unit) := do
  match ← renderAll id [⟨.text, qualifier⟩] with
  | .error fault => pure (.error fault)
  | .ok parts => do
    modifyService kind object fun service =>
      { service with slot := some (service.slot.getD (String.join parts)) }
    pure (.ok ())

end Script

mutual

/-- Completes a value of a kind; `earlier` is the number of earlier runs, as `countRun` gives it. -/
def Hook.run (kind : Kind) (earlier : Nat) (id : InjectorId) (object : Ref) :
    Hook → Script (Except Fault Unit)
  | .inSequence mark hooks => do
    ran "hook" mark earlier
    runNthHook kind earlier id object earlier hooks
  | .steps mark note ops wanted reason => do
    ran "hook" mark earlier
    match note with
    | none => pure ()
    | some note =>
      modifyService kind object fun service => { service with notes := service.notes ++ [note] }
    runOps id ops
    let filled ← match wanted with
      | none => pure (.ok ())
      | some qualifier => fill kind id object qualifier
    match filled, reason with
    | .error fault, _ => pure (.error fault)
    | .ok (), none => pure (.ok ())
    | .ok (), some reason => fail (.providerFailed ⟨kind.type, none⟩ reason)

/-- The hook at a place, or the last one: `Hook.inSequence` has one for each run. -/
def runNthHook (kind : Kind) (earlier : Nat) (id : InjectorId) (object : Ref) :
    Nat → List Hook → Script (Except Fault Unit)
  | _, [] => pure (.ok ())
  | _, [hook] => hook.run kind earlier id object
  | 0, hook :: _ => hook.run kind earlier id object
  | place + 1, _ :: rest => runNthHook kind earlier id object place rest

end

/-! ### Modules -/

namespace Script

/-- Configures an injector: operations by `Op.run`, up to the first fault. The other answers are
events. -/
def configure (id : InjectorId) : List Op → Script (Except Fault Unit)
  | [] => pure (.ok ())
  | op :: rest => do
    match ← op.run id with
    | .error fault => pure (.error fault)
    | .ok reply => do
      event [.text "op", Answer.reply (.ok reply)]
      configure id rest

end Script

/-- Modules of this kind need no others, whatever is written down for them. -/
def standalone : ModuleId := 8

/-- What the routines of a session stand for. A `Routine` of another sort than is asked for has
nothing to do. -/
def host : Host Routine Memory Datum where
  make routine id :=
    match routine with
    | .recipe name counter copied recipe => do
      let earlier ← countRun counter
      match ← recipe.run name earlier id with
      | .error fault => pure (.error fault)
      | .ok object => do
        if copied then
          pure (.ok (← copy object))
        else pure (.ok object)
    | .crossing counter crossing => do
      let _ ← countRun counter
      crossing.run id
    | _ => do pure (.ok (← allocate (.plain default)))
  stage routine id object :=
    match routine with
    | .treatment kind counter treatment => do
      let earlier ← countRun counter
      treatment.run kind earlier id object
    | _ => pure (.ok object)
  hook routine id object :=
    match routine with
    | .hook kind counter hook => do
      let earlier ← countRun counter
      hook.run kind earlier id object
    | _ => pure (.ok ())
  kind
    | .module (.mk kind _ _) => kind
    | _ => 0
  imports
    | .module (.mk kind imports _) => if kind = standalone then [] else imports.map .module
    | _ => []
  configure routine id :=
    match routine with
    | .module (.mk kind _ ops) => do
      event [.text "configure", .number kind]
      configure id ops
    | _ => pure (.ok ())

end Wiring.Session
