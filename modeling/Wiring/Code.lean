import Wiring.Action

/-!
# Code of the host

What factories, stages, hooks and modules do is the host's own business. The container sees it as a
tree of requests: the `Code` either is done, or it makes a `Request` and goes on from the answer. A
request is an `Action`, or one of the operations that run code of the host themselves.
-/

namespace Wiring

/-- What the host's code can ask of the container. `Host.answer` carries it out. -/
inductive Request (ρ σ π : Type) where
  | act (action : Action ρ σ π)
  /-- The value bound under a key. -/
  | resolve (id : InjectorId) (key : Key)
  /-- A value from a provider at hand. -/
  | produce (id : InjectorId) (provider : Provider ρ)
  /-- Runs the hooks of a type on an object. -/
  | injectMembers (id : InjectorId) (type : ValueType) (object : Ref)
  /-- Installs the module that a routine stands for. -/
  | install (id : InjectorId) (module : ρ)
  /-- Resolves a key on a thread of its own. -/
  | resolveApart (id : InjectorId) (key : Key)
  /-- Resolves keys at the same time, each on a thread of its own. -/
  | resolveTogether (id : InjectorId) (keys : List Key)
  /-- Gives way to the threads that started with this one until they have got as far, by
  `Run.pause`. -/
  | pause

namespace Request

variable {ρ σ π : Type}

/-- The type of what a request gives back. -/
def Answer : Request ρ σ π → Type
  | .act action => action.Answer
  | .resolve _ _ => Except Fault Ref
  | .produce _ _ => Except Fault Ref
  | .injectMembers _ _ _ => Except Fault Unit
  | .install _ _ => Except Fault Unit
  | .resolveApart _ _ => Except Fault Ref
  | .resolveTogether _ _ => List (Except Fault Ref)
  | .pause => Unit

end Request

/-- Code of the host that ends with an `α`: it is `done`, or it makes a request and goes on. -/
inductive Code (ρ σ π : Type) (α : Type) where
  | done (result : α)
  | ask (request : Request ρ σ π) (next : request.Answer → Code ρ σ π α)

namespace Code

variable {ρ σ π α β : Type}

/-- Goes on with the result of one code as another, the `bind` of the monad. -/
def andThen : Code ρ σ π α → (α → Code ρ σ π β) → Code ρ σ π β
  | .done result, next => next result
  | .ask request rest, next => .ask request fun answer => (rest answer).andThen next

instance : Monad (Code ρ σ π) where
  pure := .done
  bind := andThen

/-- Makes one request, and is done with its answer. -/
def send (request : Request ρ σ π) : Code ρ σ π request.Answer :=
  .ask request .done

/-- Makes one request for an action, by `send`. -/
def act (action : Action ρ σ π) : Code ρ σ π action.Answer :=
  send (.act action)

end Code

/-- What the routines of a host stand for. The container knows a routine by nothing else. -/
structure Host (ρ σ π : Type) where
  /-- Makes the object of a factory. -/
  make : ρ → InjectorId → Code ρ σ π (Except Fault Ref)
  /-- Completes or replaces a value. -/
  stage : ρ → InjectorId → Ref → Code ρ σ π (Except Fault Ref)
  /-- Completes a value in place. -/
  hook : ρ → InjectorId → Ref → Code ρ σ π (Except Fault Unit)
  /-- The kind of a module. -/
  kind : ρ → ModuleId
  /-- The modules that a module needs. -/
  imports : ρ → List ρ
  /-- Makes the bindings of a module. -/
  configure : ρ → InjectorId → Code ρ σ π (Except Fault Unit)

end Wiring
