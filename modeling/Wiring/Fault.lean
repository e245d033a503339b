import Wiring.Key

/-!
# Faults

Everything that can go wrong, as causes. The wording of each cause stands in `Fault.message` alone,
so a fault can be compared by what happened and is put into words when it is shown. `FaultKind` has
the categories by which callers tell faults apart, and `FaultKind.isMissing` those that are no more
than a warning in the log.
-/

namespace Wiring

/-- The categories by which a caller tells faults apart. -/
inductive FaultKind where
  /-- A key without binding was asked for. -/
  | unboundKey
  /-- A binding or list entry that was to be changed does not exist. -/
  | bindingNotFound
  /-- A key was asked for while it was being resolved. -/
  | cyclicBinding
  /-- The order asked of the entries of a list contradicts itself. -/
  | orderingCycle
  /-- A binding is not of the sort that an operation works on. -/
  | typeMismatch
  /-- A provider failed for a reason of its own. -/
  | providerFailed
deriving DecidableEq

namespace FaultKind

def name : FaultKind → String
  | .unboundKey => "UnboundKey"
  | .bindingNotFound => "BindingNotFound"
  | .cyclicBinding => "CyclicBinding"
  | .orderingCycle => "OrderingCycle"
  | .typeMismatch => "TypeMismatch"
  | .providerFailed => "ProviderFailed"

/-- Something that is merely missing, of kind `unboundKey` or `bindingNotFound`, is no more than a
warning in the log. -/
def isMissing : FaultKind → Bool
  | .unboundKey | .bindingNotFound => true
  | _ => false

end FaultKind

/-- The cause of a failed operation, with the keys that it is about. `Fault.message` has it in
words. -/
inductive Fault where
  /-- Nothing is bound under `key`. -/
  | unboundKey (key : Key)
  /-- The binding of `key` was to be changed, and there is none. -/
  | bindingNotFound (key : Key)
  /-- `entry` was to be placed in `list`, and is not an entry of it. -/
  | entryNotFound (list entry : Key)
  /-- The last key of `chain` was asked for by those before it, itself among them. -/
  | cyclicBinding (chain : List Key)
  /-- Each key of `cycle` is to stand before the next in `list`, and the last before the first. -/
  | orderingCycle (list : Key) (cycle : List Key)
  /-- What is bound under `key` is not what is `expected`. -/
  | typeMismatch (key : Key) (expected : String)
  /-- The provider of `key` gave up for `reason`. -/
  | providerFailed (key : Key) (reason : String)
  /-- A fault that a provider put into words itself. -/
  | custom (kind : FaultKind) (message : String)
deriving DecidableEq

namespace Fault

def kind : Fault → FaultKind
  | .unboundKey _ => .unboundKey
  | .bindingNotFound _ => .bindingNotFound
  | .entryNotFound _ _ => .bindingNotFound
  | .cyclicBinding _ => .cyclicBinding
  | .orderingCycle _ _ => .orderingCycle
  | .typeMismatch _ _ => .typeMismatch
  | .providerFailed _ _ => .providerFailed
  | .custom kind _ => kind

/-- The cause in words. All keys stand there as `Key.display` and `Key.path` show them. -/
def message : Fault → String
  | .unboundKey key => "No binding registered for key: " ++ key.display
  | .bindingNotFound key => "Cannot modify missing binding: " ++ key.display
  | .entryNotFound list entry =>
    "No entry " ++ entry.display ++ " in list binding " ++ list.display
  | .cyclicBinding chain => "Circular dependency detected: " ++ Key.path chain
  | .orderingCycle list cycle =>
    "Ordering constraints of " ++ list.display ++ " form a cycle: " ++ Key.path cycle
  | .typeMismatch key expected => "Binding for " ++ key.display ++ " is not a " ++ expected
  | .providerFailed key reason => "Provider for " ++ key.display ++ " failed: " ++ reason
  | .custom _ message => message

/-- The category in parentheses, then the cause as `Fault.message` words it. -/
def display (fault : Fault) : String :=
  "(" ++ fault.kind.name ++ ") - " ++ fault.message

end Fault

end Wiring
