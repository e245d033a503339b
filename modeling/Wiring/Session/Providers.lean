import Wiring.Session.Values

/-!
# Providers from their descriptions

A `Spec` describes a provider, and `buildProvider` makes it. Each routine that a description brings
has a counter of its own, by `newCounter`.
-/

namespace Wiring.Session

namespace Script

/-- A stage for values of a kind, as `StageSpec` describes it. -/
def buildStage (kind : Kind) : StageSpec → Script (Stage Routine)
  | .memberInjection => pure (.memberInjection kind.type)
  | .treatment treatment => do
    let counter ← newCounter
    pure (.routine (.treatment kind counter treatment))

/-- A singleton of its own round a provider, with a slot by `Action.newSlot`. -/
def buildSingleton (kind : Kind) (key : Key) (delegate : Provider Routine) :
    Script (SlotId × Provider Routine) := do
  let slot ← Code.act .newSlot
  pure (slot, .singleton slot key kind.type delegate)

/-- A provider of values of a kind, as `Spec` describes it; slots, rosters and catalogs are new. -/
def buildProvider (kind : Kind) : Spec → Script (Provider Routine)
  | .fixed value => do
    pure (.fixed (← build kind value))
  | .factory qualifier recipe => do
    let counter ← newCounter
    pure (.factory kind.type (.recipe ⟨kind, qualifier⟩ counter false recipe))
  | .lookup qualifier => pure (.lookup (Name.key ⟨kind, qualifier⟩))
  | .decorating delegate stages => do
    let delegate ← buildProvider kind delegate
    let stages ← forEach (buildStage kind) stages
    pure (.decorating delegate stages)
  | .scoped scope name delegate => do
    let delegate ← buildProvider kind delegate
    match scope with
    | .noScope => pure delegate
    | .singleton => do
      let (_, provider) ← buildSingleton kind name.key delegate
      pure provider
  | .stored slot => do
    let memory ← memory
    pure ((memory.providers.get? slot).getD (.fixed default))

/-- The provider of a factory that `name` is bound to, which completes what its `Recipe` makes. -/
def buildFactory (name : Name) (recipe : Recipe) : Script (Provider Routine) := do
  let counter ← newCounter
  pure (.completed name.kind.type (.recipe name counter true recipe))

end Script

end Wiring.Session
