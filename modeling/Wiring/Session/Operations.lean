import Wiring.Session.Providers

/-!
# Operations

What each operation of a session does, as requests to the container, and how its outcome is shown:
`Op.run` has them all. Operations within operations, on a list or map or after an addition, run in
their place.
-/

namespace Wiring.Session

namespace Script

/-- The answer of something that works or fails, without a value. -/
def ofUnit (script : Script (Except Fault Unit)) : Script Answer := do
  pure (Answer.ofUnit (← script))

def ofKeys (script : Script (Except Fault (List Key))) : Script Answer := do
  pure ((← script).map Reply.ofKeys)

def ok (script : Script Unit) : Script Answer := do
  script
  pure (.ok .nothing)

def answered (reply : Reply) : Script Answer :=
  pure (.ok reply)

/-- Shows what a provider or a resolution gave, by `present`, or the fault. -/
def shown (kind : Kind) (slot : Option String) (script : Script (Except Fault Ref)) :
    Script Answer :=
  orFault script (present kind slot)

/-- Installs modules in order, each by `Request.install`, up to the first fault. -/
def installAll (id : InjectorId) : List Module → Script (Except Fault Unit)
  | [] => pure (.ok ())
  | module :: rest => do
    match ← Code.send (.install id (.module module)) with
    | .error fault => pure (.error fault)
    | .ok () => installAll id rest

/-- A new injector with modules. It has a number only if `installAll` could install all of them. -/
def withModules (modules : List Module) : Script Answer := do
  let id ← Code.act .newInjector
  match ← installAll id modules with
  | .error fault => pure (.error fault)
  | .ok () => do
    -- the modules may have made injectors too, and those have the numbers before this one
    let m ← memory
    modify fun m => { m with injectors := m.injectors.push id }
    answered (.number m.injectors.size)

/-- Pushes a key by hand; a guard that was in the slot before is dropped afterwards. -/
def pushGuard (slot : String) (key : Key) : Script Answer :=
  orFault (Code.act (.pushKey key)) fun _ => do
    let m ← memory
    -- what comes off is the top of the stack, the key that was just pushed
    if m.guards.contains slot then Code.act .popKey else pure ()
    modify fun m => { m with guards := m.guards.insert slot key }
    answered (.text key.display)

def dropGuard (slot : String) : Script Answer := do
  let m ← memory
  match m.guards.get? slot with
  | none => answered .nothing
  | some key => do
    Code.act .popKey
    modify fun m => { m with guards := m.guards.erase slot }
    answered (.text key.display)

/-- Describes the binding of a name, and stores its providers as asked. -/
def describeBinding (id : InjectorId) (name : Name) (effective base : Option String) :
    Script Answer := do
  match ← Code.act (.binding id name.key) with
  | none => answered .nothing
  | some binding => do
    storeProvider effective binding.effective
    storeProvider base binding.base
    match binding.base with
    | .lookup target => event [.text "lookup", .text target.display]
    | _ => pure ()
    answered (.fields
      [("key", .text binding.key.display), ("scope", .text binding.scope.display),
        ("original", .text binding.base.sort), ("bare", .flag binding.isBare)])

/-- The values first, by their rendering, then the faults, by their message; this makes an answer
that does not depend on who came first. -/
def sortOutcomes (outcomes : List (Except Fault Ref × String)) : List (Except Fault Ref × String) :=
  let isValue := fun outcome : Except Fault Ref × String => outcome.1.toBool
  let byText := fun outcomes : List (Except Fault Ref × String) =>
    outcomes.mergeSort fun a b => (compare a.2 b.2).isLE
  byText (outcomes.filter isValue) ++ byText (outcomes.filter (!isValue ·))

/-- An outcome with the text by which `sortOutcomes` sorts it among others. -/
def describeOutcome (kind : Kind) (outcome : Except Fault Ref) :
    Script (Except Fault Ref × String) :=
  match outcome with
  | .error fault => pure (outcome, fault.message)
  | .ok object => do pure (outcome, ← render kind object)

/-- Several threads resolve a name, each on its own, by `Request.resolveTogether`. What they gave is
compared and shown as it is when all of them are over. -/
def threads (id : InjectorId) (name : Name) (count : Nat) : Script Answer := do
  let outcomes ← forEach (fun _ => Code.send (.resolveApart id name.key)) (List.range count)
  let described ← forEach (describeOutcome name.kind) outcomes
  let replies ← forEach
    (fun outcome => do
      match (outcome : Except Fault Ref × String).1 with
      | .error fault => pure (Reply.ofFault fault)
      | .ok object => display name.kind object)
    (sortOutcomes described)
  answered (.items replies)

/-- Binds a singleton for each crossing, and gives the counter of its factory. -/
def bindCrossing (id : InjectorId) (crossing : Crossing) : Script Nat := do
  let counter ← newCounter
  let factory := Provider.completed Kind.text.type (.crossing counter crossing)
  Code.act (.bind id crossing.name.key factory .singleton)
  pure counter

/-- Lets the threads of crossings resolve their keys at the same time, and counts how often each
factory ran. -/
def cross (id : InjectorId) (crossings : List Crossing) : Script Answer := do
  let counters ← forEach (bindCrossing id) crossings
  let outcomes ← Code.send (.resolveTogether id (crossings.map (·.name.key)))
  let threads ← forEach
    (fun outcome => do
      match (outcome : Except Fault Ref) with
      | .error fault => pure (Reply.ofFault fault)
      | .ok object => do pure (Answer.reply (.ok (.text (← render .text object)))))
    outcomes
  let m ← memory
  let calls := counters.map fun counter => Reply.number ((m.runs[counter]?).getD 0 : Nat)
  answered (.fields [("threads", .items threads), ("calls", .items calls)])

/-- Takes one step on a list that stands on its own, with the actions on rosters. -/
def listStep (id : InjectorId) (kind : Kind) (roster : RosterId) : ListStep → Script Answer
  | .add entry provider => do
    let provider ← buildProvider kind.element provider
    let entry ← keyOf entry
    ok (Code.act (.enrol roster entry provider))
  | .after entry other => do
    let entry ← keyOf entry
    let other ← keyOf other
    ofUnit (Code.act (.place roster entry .after other))
  | .before entry other => do
    let entry ← keyOf entry
    let other ← keyOf other
    ofUnit (Code.act (.place roster entry .before other))
  | .contains entry => do
    let entry ← keyOf entry
    let table ← Code.act (.roster roster)
    answered (.flag (table.contains entry))
  | .size => do
    let table ← Code.act (.roster roster)
    answered (.items [.number table.size, .flag (table.size = 0)])
  | .keys => ofKeys (Code.act (.orderedKeys roster))
  | .value => shown kind none (Code.send (.produce id (.list roster)))

/-- Takes one step on a map that stands on its own, with the actions on catalogs. -/
def mapStep (id : InjectorId) (kind : Kind) (catalog : CatalogId) : MapStep → Script Answer
  | .put name provider => do
    let provider ← buildProvider kind.element provider
    ok (Code.act (.putEntry catalog name provider))
  | .contains name => do
    let table ← Code.act (.catalog catalog)
    answered (.flag (table.entries.contains name))
  | .size => do
    let table ← Code.act (.catalog catalog)
    answered (.items [.number table.entries.size, .flag (table.entries.size = 0)])
  | .key => do
    let table ← Code.act (.catalog catalog)
    answered (.text table.map.display)
  | .value => shown kind none (Code.send (.produce id (.map catalog)))

/-- Adds to the list of `list`, whose entries are of kind `kind`. Gives the keys of the new entries,
for `runConstraints` to place. -/
def addEntries (id : InjectorId) (list : Key) (kind : Kind) :
    Addition → Script (Except Fault (List Key))
  | .lookup qualifier => do
    let entry := Name.key ⟨kind, qualifier⟩
    let added ← Code.act (.contribute id list entry (.lookup entry))
    pure (added.map fun _ => [entry])
  | .value value => do
    let object ← allocate (← buildContent kind value)
    let added ← Code.act (.contributeObject id list object)
    pure (added.map ([·]))
  | .shared value => do
    let object ← build kind value
    let added ← Code.act (.contributeObject id list object)
    pure (added.map ([·]))
  | .keyed qualifier value => do
    let object ← build kind value
    let entry := Name.key ⟨kind, qualifier⟩
    let added ← Code.act (.contribute id list entry (.completing kind.type object))
    pure (added.map fun _ => [entry])
  | .all values => do
    let contents ← forEach (buildContent kind) values
    Code.act (.contributeAll id list contents)

/-- Asks the same of several entries, up to the first fault. -/
def constrain (place : Key → Script (Except Fault Unit)) : List Key → Script (Except Fault Unit)
  | [] => pure (.ok ())
  | entry :: rest => do
    match ← place entry with
    | .error fault => pure (.error fault)
    | .ok () => constrain place rest

/-- Stores the keys of entries, if there is a slot for them. -/
def storeEntries (slot : Option String) (entries : List Key) : Script Unit :=
  match slot with
  | none => pure ()
  | some slot => modify fun m => { m with entries := m.entries.insert slot entries }

/-- Puts several values into the map of `map`, up to the first fault. -/
def putAll (id : InjectorId) (map : Key) (kind : Kind) :
    List (String × Content Datum) → Script (Except Fault Unit)
  | [] => pure (.ok ())
  | (name, content) :: rest => do
    let object ← allocate content
    match ← Code.act (.contributeNamed id map name (.completing kind.type object)) with
    | .error fault => pure (.error fault)
    | .ok () => putAll id map kind rest

end Script

open Script

mutual

/-- Carries out an operation on an injector. The answer shows what came of it, and faults are
answers. -/
def Op.run (id : InjectorId) : Op → Script Answer
  | .at index op => do
    let other ← injectorAt index
    op.run other
  | .newInjector => do
    let other ← Code.act .newInjector
    let m ← memory
    modify fun m => { m with injectors := m.injectors.push other }
    answered (.number m.injectors.size)
  | .withModules modules => withModules modules
  | .install module => ofUnit (Code.send (.install id (.module module)))
  | .contains key => do
    let key ← keyOf key
    let injector ← Code.act (.inspect id)
    answered (.flag (injector.contains key))
  | .scopeOf key => do
    let key ← keyOf key
    let injector ← Code.act (.inspect id)
    answered (Reply.ofOption ((injector.scopeOf key).map (·.display)))
  | .size => do
    let injector ← Code.act (.inspect id)
    answered (.number injector.size)
  | .isEmpty => do
    let injector ← Code.act (.inspect id)
    answered (.flag (injector.size = 0))
  | .changeScope key scope => do
    let key ← keyOf key
    ofUnit (Code.act (.changeScope id key scope))
  | .shutDown => ok (Code.act (.shutDown id))
  | .describe nested => do
    let injector ← Code.act (.inspect id)
    answered (.text (if nested then injector.describeNested else injector.describe))
  | .pushGuard slot name => pushGuard slot name.key
  | .dropGuard slot => dropGuard slot
  | .depth => do
    let depth : Nat ← Code.act .depth
    answered (.number depth)
  | .make kind value slot => do
    let object ← build kind value
    present kind slot object
  | .cast service plugin => do
    let object ← build .service (.stored service)
    ok (storeValue (some plugin) object)
  | .bind name provider scope => do
    let provider ← buildProvider name.kind provider
    ok (Code.act (.bind id name.key provider scope))
  | .bindValue name value => do
    let object ← allocate (← buildContent name.kind value)
    ok (Code.act (.bind id name.key (.fixed object) .noScope))
  | .bindShared name value => do
    let object ← build name.kind value
    ok (Code.act (.bind id name.key (.fixed object) .noScope))
  | .bindFactory name scope recipe => do
    let provider ← buildFactory name recipe
    ok (Code.act (.bind id name.key provider scope))
  | .binding name effective base => describeBinding id name effective base
  | .decorate name treatment => do
    let stage ← buildStage name.kind (.treatment treatment)
    ofUnit (Code.act (.decorate id name.key stage))
  | .provider name slot =>
    orFault (Code.act (.provider id name.key)) fun provider =>
      ok (storeProvider (some slot) provider)
  | .produce kind provider slot => do
    let provider ← buildProvider kind provider
    shown kind slot (Code.send (.produce id provider))
  | .resolve name slot => shown name.kind slot (Code.send (.resolve id name.key))
  | .onInject kind hook => do
    let counter ← newCounter
    ok (Code.act (.addHook id kind.type (.hook kind counter hook)))
  | .injectMembers kind value => do
    let object ← build kind value
    orFault (Code.send (.injectMembers id kind.type object)) fun _ => present kind none object
  | .decorating kind delegate stages => do
    let delegate ← buildProvider kind delegate
    let stages ← forEach (buildStage kind) stages
    orFault (Code.send (.produce id (.decorating delegate stages))) fun object => do
      let value ← display kind object
      answered (.fields [("stages", .number stages.length), ("value", value)])
  | .saveProvider kind provider slot => do
    let provider ← buildProvider kind provider
    ok (storeProvider (some slot) provider)
  | .newSingleton kind name delegate slot => do
    let delegate ← buildProvider kind delegate
    let (place, provider) ← buildSingleton kind name.key delegate
    modify fun m => { m with singletons := m.singletons.insert slot place }
    ok (storeProvider (some slot) provider)
  | .isInitialised slot => do
    let m ← memory
    let state ← Code.act (.slot ((m.singletons.get? slot).getD default))
    answered (.flag (match state with
      | .filled _ => true
      | _ => false))
  | .newList name slot => do
    let roster ← Code.act (.newRoster name.key)
    modify fun m => { m with lists := m.lists.insert slot roster }
    ok (storeProvider (some slot) (.list roster))
  | .newMap name slot => do
    let catalog ← Code.act (.newCatalog name.key)
    modify fun m => { m with maps := m.maps.insert slot catalog }
    ok (storeProvider (some slot) (.map catalog))
  | .onList kind slot steps => do
    let m ← memory
    let replies ← forEach (listStep id kind ((m.lists.get? slot).getD default)) steps
    answered (.items (replies.map Answer.reply))
  | .onMap kind slot steps => do
    let m ← memory
    let replies ← forEach (mapStep id kind ((m.maps.get? slot).getD default)) steps
    answered (.items (replies.map Answer.reply))
  | .list name steps => do
    match ← Code.act (.openList id name.key) with
    | .error fault => pure (.error fault)
    | .ok _ => do
      let replies ← runListSteps id name steps
      answered (.items (replies.map Answer.reply))
  | .map name steps => do
    match ← Code.act (.openMap id name.key) with
    | .error fault => pure (.error fault)
    | .ok _ => do
      let replies ← runMapSteps id name steps
      answered (.items (replies.map Answer.reply))
  | .threads name count => threads id name count
  | .cross crossings => cross id crossings

/-- Takes the steps on the list of a name, one after the other. -/
def runListSteps (id : InjectorId) (name : Name) : List BuildListStep → Script (List Answer)
  | [] => pure []
  | step :: rest => do
    let answer ← step.run id name
    let answers ← runListSteps id name rest
    pure (answer :: answers)

/-- Takes one step on the list of a name: an addition by `addEntries` with what is asked of the new
entries, a request of an entry, or an operation in between. -/
def BuildListStep.run (id : InjectorId) (name : Name) : BuildListStep → Script Answer
  | .add addition constraints slot => do
    match ← addEntries id name.key name.kind.element addition with
    | .error fault => pure (.error fault)
    | .ok entries => do
      -- the entries are known from here on, so what is asked of them may name them
      storeEntries slot entries
      match ← runConstraints id name entries constraints with
      | .error fault => pure (.error fault)
      | .ok () => answered (Reply.ofKeys entries)
  | .after entry other => do
    let entry ← keyOf entry
    let other ← keyOf other
    ofUnit (Code.act (.arrange id name.key entry .after other))
  | .before entry other => do
    let entry ← keyOf entry
    let other ← keyOf other
    ofUnit (Code.act (.arrange id name.key entry .before other))
  | .scope scope => ofUnit (Code.act (.changeScope id name.key scope))
  | .keys => ofKeys (Code.act (.listOrder id name.key))
  | .key => answered (.text name.key.display)
  | .describe => answered (.text ("ListBuilder \x7b key: " ++ name.key.describe ++ " \x7d"))
  | .nested op => op.run id

/-- Asks what is asked of the entries that were just added, each by `Constraint.run`, up to the
first fault. The answer of an operation in between is an event. -/
def runConstraints (id : InjectorId) (name : Name) (entries : List Key) :
    List Constraint → Script (Except Fault Unit)
  | [] => pure (.ok ())
  | constraint :: rest => do
    match ← constraint.run id name entries with
    | .error fault => pure (.error fault)
    | .ok () => runConstraints id name entries rest

def Constraint.run (id : InjectorId) (name : Name) (entries : List Key) :
    Constraint → Script (Except Fault Unit)
  | .after other => do
    let other ← keyOf other
    constrain (fun entry => Code.act (.arrange id name.key entry .after other)) entries
  | .before other => do
    let other ← keyOf other
    constrain (fun entry => Code.act (.arrange id name.key entry .before other)) entries
  | .nested op => do
    let answer ← op.run id
    event [.text "op", answer.reply]
    pure (.ok ())

/-- Takes the steps on the map of a name, one after the other. -/
def runMapSteps (id : InjectorId) (name : Name) : List BuildMapStep → Script (List Answer)
  | [] => pure []
  | step :: rest => do
    let answer ← step.run id name
    let answers ← runMapSteps id name rest
    pure (answer :: answers)

/-- Takes one step on the map of a name. -/
def BuildMapStep.run (id : InjectorId) (name : Name) : BuildMapStep → Script Answer
  | .put entry qualifier =>
    let target := Name.key ⟨name.kind.element, qualifier⟩
    ofUnit (Code.act (.contributeNamed id name.key entry (.lookup target)))
  | .value entry value => do
    let content ← buildContent name.kind.element value
    ofUnit (putAll id name.key name.kind.element [(entry, content)])
  | .shared entry value => do
    let object ← build name.kind.element value
    ofUnit (Code.act (.contributeNamed id name.key entry
      (.completing name.kind.element.type object)))
  | .all rows => do
    let contents ← forEach
      (fun (entry, value) => do pure (entry, ← buildContent name.kind.element value)) rows
    ofUnit (putAll id name.key name.kind.element contents)
  | .scope scope => ofUnit (Code.act (.changeScope id name.key scope))
  | .key => answered (.text name.key.display)
  | .nested op => op.run id

end

end Wiring.Session
