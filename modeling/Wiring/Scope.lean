/-!
# Scopes

How often a binding produces its value: at every resolution, or once. A `Scope` decides which
wrapper `World.wrap` puts round the provider of a binding.
-/

namespace Wiring

/-- When the value of a binding is reused. -/
inductive Scope where
  /-- Every resolution produces the value again. -/
  | noScope
  /-- The first value produced is kept until the binding is given a new wrapper. -/
  | singleton
deriving DecidableEq

namespace Scope

/-- A binding that names no scope has `noScope`. -/
instance : Inhabited Scope := ⟨.noScope⟩

def isSingleton : Scope → Bool
  | .noScope => false
  | .singleton => true

/-- The name of a scope in messages of the log. -/
def display : Scope → String
  | .noScope => "no-scope"
  | .singleton => "singleton"

/-- The name of a scope in the description of an injector. -/
def describe : Scope → String
  | .noScope => "NoScope"
  | .singleton => "Singleton"

end Scope

end Wiring
