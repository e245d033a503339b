import Wiring.Session.Kind
import Wiring.Session.Reply

/-!
# Operations as data

A session is written down as a list of `Op`, and the factories, stages, hooks and modules that it
brings as small programs made of operations: `Recipe`, `Treatment`, `Hook` and `Module`. Names of
slots refer to what the session stored before.
-/

namespace Wiring.Session

/-- A value as it is written down. -/
inductive Literal where
  | text (text : String)
  | integer (value : Int64)
  | items (items : List Literal)
  | fields (fields : List (String × Literal))
  /-- The shared value stored under a slot. -/
  | stored (slot : String)

/-- What an event is marked with; it is shown as it is, by `ran`. -/
abbrev Mark := Reply

/-- A key, or the key of an entry that was saved when it was added, as `keyOf` reads it. -/
inductive KeyRef where
  | name (name : Name)
  | entry (slot : String) (index : Nat)

/-- A contribution to a list, carried out by `addEntries`. -/
inductive Addition where
  /-- Whatever is bound under the qualifier. -/
  | lookup (qualifier : Option String)
  /-- A copy of a value, under a key of its own. -/
  | value (value : Literal)
  /-- A value, under a key of its own. -/
  | shared (value : Literal)
  /-- A value, under the key of the qualifier. -/
  | keyed (qualifier : Option String) (value : Literal)
  /-- Copies of values, each under a key of its own. -/
  | all (values : List Literal)

/-- A thread that resolves the text of a qualifier, whose factory asks for another text. -/
structure Crossing where
  qualifier : Option String
  /-- The qualifier of what the factory asks for, if it does. -/
  wanted : Option (Option String)
  /-- What the factory makes a value of when what it asked for failed. -/
  recover : Option String

mutual

/-- An operation, carried out by `Op.run`. -/
inductive Op where
  /-- An operation on the injector with this number. -/
  | at (injector : Nat) (op : Op)
  | newInjector
  | withModules (modules : List Module)
  | install (module : Module)
  | contains (key : KeyRef)
  | scopeOf (key : KeyRef)
  | size
  | isEmpty
  | changeScope (key : KeyRef) (scope : Scope)
  | shutDown
  | describe (nested : Bool)
  | pushGuard (slot : String) (name : Name)
  | dropGuard (slot : String)
  | depth
  | make (kind : Kind) (value : Literal) (slot : Option String)
  /-- Stores a service as a plugin. -/
  | cast (service plugin : String)
  | bind (name : Name) (provider : Spec) (scope : Scope)
  | bindValue (name : Name) (value : Literal)
  | bindShared (name : Name) (value : Literal)
  | bindFactory (name : Name) (scope : Scope) (recipe : Recipe)
  | binding (name : Name) (effective base : Option String)
  | decorate (name : Name) (treatment : Treatment)
  | provider (name : Name) (slot : String)
  | produce (kind : Kind) (provider : Spec) (slot : Option String)
  | resolve (name : Name) (slot : Option String)
  | onInject (kind : Kind) (hook : Hook)
  | injectMembers (kind : Kind) (value : Literal)
  | decorating (kind : Kind) (delegate : Spec) (stages : List StageSpec)
  | saveProvider (kind : Kind) (provider : Spec) (slot : String)
  | newSingleton (kind : Kind) (name : Name) (delegate : Spec) (slot : String)
  | isInitialised (slot : String)
  | newList (name : Name) (slot : String)
  | newMap (name : Name) (slot : String)
  | onList (kind : Kind) (slot : String) (steps : List ListStep)
  | onMap (kind : Kind) (slot : String) (steps : List MapStep)
  | list (name : Name) (steps : List BuildListStep)
  | map (name : Name) (steps : List BuildMapStep)
  | threads (name : Name) (count : Nat)
  | cross (crossings : List Crossing)

/-- A provider, made by `buildProvider`. -/
inductive Spec where
  | fixed (value : Literal)
  | factory (qualifier : Option String) (recipe : Recipe)
  | lookup (qualifier : Option String)
  | decorating (delegate : Spec) (stages : List StageSpec)
  | scoped (scope : Scope) (name : Name) (delegate : Spec)
  | stored (slot : String)

/-- A stage of a decorating provider, made by `buildStage`. -/
inductive StageSpec where
  | memberInjection
  | treatment (treatment : Treatment)

/-- What a factory does, by `Recipe.run`: an event, some operations, then the making of its
value. -/
inductive Recipe where
  | mk (event : Option Mark) (first : List Op) (making : Making)

/-- How a recipe comes to its value. -/
inductive Making where
  /-- The literal, built anew. -/
  | literal (value : Literal)
  /-- The text followed by the number of earlier runs. -/
  | numbered (start : String)
  /-- The integer increased by the number of earlier runs. -/
  | counted (start : Int64)
  | fail (reason : String)
  | fault (kind : FaultKind) (message : String)
  /-- The renderings of what is bound under the names, joined. -/
  | concat (names : List Name) (separator : String)
  /-- Whatever is bound under the qualifier. -/
  | use (qualifier : Option String)
  /-- One recipe for each run, the last for all further ones. -/
  | inSequence (recipes : List Recipe)
  /-- The second recipe if the first fails. -/
  | attempt (recipe otherwise : Recipe)
  /-- A recipe, from here on with another injector if one is given. -/
  | other (recipe : Recipe) (injector : Option Nat)

/-- What a stage does to a value, by `Treatment.run`: an event, some operations, then the effect. -/
inductive Treatment where
  | mk (event : Option Mark) (first : List Op) (effect : Effect)

/-- The effect of a stage on the value. -/
inductive Effect where
  /-- One treatment for each run, the last for all further ones. -/
  | inSequence (treatments : List Treatment)
  | wrap (before after : String)
  /-- Puts the rendering of what is bound under the name behind the value. -/
  | suffix (name : Name)
  | replace (value : Literal)
  | fail (reason : String)
  | keep

/-- What a hook does to a value, by `Hook.run`. -/
inductive Hook where
  /-- One hook for each run, the last for all further ones. -/
  | inSequence (event : Option Mark) (hooks : List Hook)
  /-- Adds a note, runs operations, fills the slot with what is bound under a qualifier, fails:
  as far as each is asked for, in this order. -/
  | steps (event : Option Mark) (note : Option String) (ops : List Op)
      (fill : Option (Option String)) (fail : Option String)

/-- A module of some kind: the modules it needs, and the operations that configure it, by
`configure`. -/
inductive Module where
  | mk (kind : ModuleId) (imports : List Module) (ops : List Op)

/-- A step on a list that stands on its own, by `listStep`. -/
inductive ListStep where
  | add (entry : KeyRef) (provider : Spec)
  | after (entry other : KeyRef)
  | before (entry other : KeyRef)
  | contains (entry : KeyRef)
  | size
  | keys
  | value

/-- A step on a map that stands on its own, by `mapStep`. -/
inductive MapStep where
  | put (name : String) (provider : Spec)
  | contains (name : String)
  | size
  | key
  | value

/-- A step on the list bound under a name, by `BuildListStep.run`. -/
inductive BuildListStep where
  | add (addition : Addition) (constraints : List Constraint) (slot : Option String)
  | after (entry other : KeyRef)
  | before (entry other : KeyRef)
  | scope (scope : Scope)
  | keys
  | key
  | describe
  | nested (op : Op)

/-- What is asked of the entries that were just added, by `Constraint.run`. -/
inductive Constraint where
  | after (other : KeyRef)
  | before (other : KeyRef)
  | nested (op : Op)

/-- A step on the map bound under a name, by `BuildMapStep.run`. -/
inductive BuildMapStep where
  | put (name : String) (qualifier : Option String)
  | value (name : String) (value : Literal)
  | shared (name : String) (value : Literal)
  | all (rows : List (String × Literal))
  | scope (scope : Scope)
  | key
  | nested (op : Op)

end

namespace Crossing

/-- The name that the thread resolves. -/
def name (crossing : Crossing) : Name :=
  ⟨.text, crossing.qualifier⟩

end Crossing

namespace Constraint

/-- After the unqualified key of a kind. -/
def afterKind (kind : Kind) : Constraint :=
  .after (.name ⟨kind, none⟩)

/-- Before the unqualified key of a kind. -/
def beforeKind (kind : Kind) : Constraint :=
  .before (.name ⟨kind, none⟩)

end Constraint

end Wiring.Session
