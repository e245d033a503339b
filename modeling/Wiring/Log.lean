import Wiring.Fault
import Wiring.Provider
import Wiring.Text.Quoted

/-!
# The log

What an injector does is noted as a `LogEvent` by `World.note`. The severity and the wording of
events stand here and nowhere else.
-/

namespace Wiring

/-- A kind of module, as `Host.kind` tells it: modules of one kind are installed once. -/
abbrev ModuleId := Nat

/-- How much an event matters; a fault that `FaultKind.isMissing` matters less than another. -/
inductive Severity where
  | trace | debug | info | warn | error
deriving DecidableEq

namespace Severity

def name : Severity → String
  | .trace => "TRACE"
  | .debug => "DEBUG"
  | .info => "INFO"
  | .warn => "WARN"
  | .error => "ERROR"

end Severity

/-- Something that happened, with the keys and numbers that its line shows. -/
inductive LogEvent where
  | resolving (key : Key)
  | runningFactory (type : ValueType)
  /-- The delegate of the singleton with this slot is about to produce. -/
  | creatingSingleton (slot : SlotId) (type : ValueType)
  /-- A key was bound; `again` if it was bound before. -/
  | bound (key : Key) (scope : Scope) (again : Bool)
  | changingScope (key : Key) (old new : Scope)
  | decorating (key : Key)
  | shutDown (released kept : Nat)
  | creatingCollection (key : Key)
  | addingEntry (entry list : Key)
  | replacingEntry (entry list : Key)
  | producingList (list : Key) (entries : Nat)
  | puttingEntry (name : String) (map : Key)
  | alreadyInstalled (module : ModuleId)
  | configuring (module : ModuleId)
  | fault (cause : Fault)
deriving DecidableEq

namespace LogEvent

def severity : LogEvent → Severity
  | .resolving _ | .runningFactory _ => .trace
  | .shutDown _ _ | .configuring _ => .info
  | .fault cause => if cause.kind.isMissing then .warn else .error
  | _ => .debug

def text : LogEvent → String
  | .resolving key => "Resolving " ++ key.display
  | .runningFactory type => "Executing factory for " ++ type.name
  | .creatingSingleton _ type => "Creating singleton instance of " ++ type.name
  | .bound key scope again =>
    (if again then "Rebound " else "Bound ") ++ key.display ++ " (" ++ scope.display ++ " scope)"
  | .changingScope key old new =>
    "Changing scope of " ++ key.display ++ " from " ++ old.display ++ " to " ++ new.display
  | .decorating key => "Decorating " ++ key.display
  | .shutDown released kept =>
    "Injector shut down, " ++ toString released ++ " singletons released, " ++ toString kept ++
      " bindings kept"
  | .creatingCollection key => "Creating empty multi-value binding " ++ key.display
  | .addingEntry entry list => "Adding entry " ++ entry.display ++ " to " ++ list.display
  | .replacingEntry entry list => "Replacing entry " ++ entry.display ++ " of " ++ list.display
  | .producingList list entries =>
    "Producing " ++ list.display ++ " with " ++ toString entries ++ " entries"
  | .puttingEntry name map => "Putting entry " ++ Text.quote name ++ " into " ++ map.display
  | .alreadyInstalled module => "Module Module#" ++ toString module ++ " already installed, skipping"
  | .configuring module => "Configuring module Module#" ++ toString module
  | .fault cause => cause.display

/-- A line of the log, with the severity and the wording of the event. -/
def line (event : LogEvent) : String :=
  event.severity.name ++ " " ++ event.text

end LogEvent

end Wiring
