import Wiring.Proofs.Contributions
import Wiring.Session.Operations

/-!
# Values that are handed to builders

A builder can be handed a key to look up or a value. Whatever a value is made from, it is added to
the list or the map as an object to complete (`Provider.completing`), whose members are injected
each time that it is produced (`Session.Script.asks_addEntries`, `Session.BuildMapStep.asks_run`).
-/

namespace Wiring

variable {ρ σ π α β : Type}

/-- Whatever the code is answered, it makes no requests but such. -/
inductive Code.Asks (allowed : Request ρ σ π → Prop) : Code ρ σ π α → Prop
  | done (a : α) : Asks allowed (.done a)
  | ask {request : Request ρ σ π} {next : request.Answer → Code ρ σ π α} (hrequest : allowed request)
      (hnext : ∀ reply, Asks allowed (next reply)) : Asks allowed (.ask request next)

namespace Code.Asks

variable {allowed : Request ρ σ π → Prop}

theorem act {action : Action ρ σ π} (h : allowed (.act action)) : (Code.act action).Asks allowed :=
  .ask h fun reply => .done reply

theorem bind {first : Code ρ σ π α} {next : α → Code ρ σ π β} (hfirst : first.Asks allowed)
    (hnext : ∀ a, (next a).Asks allowed) : (first >>= next).Asks allowed := by
  induction hfirst with
  | done a => exact hnext a
  | ask hrequest _ ih => exact .ask hrequest ih

end Code.Asks

/-- The providers that contributions add, requests for an order adding none. -/
def Collection.added : (c : Collection) → List (c.Contribution ρ) → List (Provider ρ)
  | .list, calls => (calls : List (ListCall ρ)).filterMap fun
    | .add _ p => some p
    | _ => none
  | .map, rows => (rows : List (String × Provider ρ)).map (·.2)

/-- What the action adds to a list or a map, it adds through its key, and by `Provider.completing`
as objects to complete by the hooks of its elements. -/
def Action.Completes (action : Action ρ σ π) : Prop :=
  ∀ (c : Collection) (w : World ρ σ π) place, c.target w action = some place →
    ∃ id key, c.through action = some (id, key) ∧
      ∀ number, ∀ p ∈ c.added (c.contributions number w action), ∃ object, p = .completing key.type.element object

def Request.Completes : Request ρ σ π → Prop
  | .act action => action.Completes
  | _ => True

namespace Action.Completes

variable {id : InjectorId} {key entry : Key} {object : Ref}

/-- What contributes nothing, having no `Collection.target`, completes what it adds. -/
theorem of_none {action : Action ρ σ π} (h : ∀ (c : Collection) w, c.target w action = none) :
    action.Completes := by
  intro c w place htarget
  rw [h c w] at htarget
  cases htarget

theorem of_list {action : Action ρ σ π} (hthrough : action.throughList = some (id, key))
    (hmap : ∀ w, action.mapTarget w = none)
    (h : ∀ number w, ∀ call ∈ action.listCalls number w,
      ∃ entry object, call = .add entry (.completing key.type.element object)) :
    action.Completes := by
  intro c w place htarget
  cases c with
  | list =>
    refine ⟨id, key, hthrough, fun number p hp => ?_⟩
    obtain ⟨call, hcall, hadds⟩ := List.mem_filterMap.1 hp
    obtain ⟨_, object, rfl⟩ := h number w call hcall
    cases hadds
    exact ⟨object, rfl⟩
  | map =>
    rw [Collection.target, hmap w] at htarget
    cases htarget

theorem contributeObject : (Action.contributeObject id key object : Action ρ σ π).Completes :=
  of_list rfl (fun _ => rfl) fun _ _ _ hcall => ⟨_, object, List.mem_singleton.1 hcall⟩

theorem contributeAll {contents : List (Content π)} :
    (Action.contributeAll id key contents : Action ρ σ π).Completes := by
  refine of_list rfl (fun _ => rfl) fun number w call hcall => ?_
  obtain ⟨object, _, rfl⟩ := List.mem_map.1 hcall
  exact ⟨_, object, rfl⟩

theorem contribute :
    (Action.contribute id key entry (.completing key.type.element object) : Action ρ σ π).Completes :=
  of_list rfl (fun _ => rfl) fun _ _ _ hcall => ⟨entry, object, List.mem_singleton.1 hcall⟩

theorem contributeNamed {name : String} :
    (Action.contributeNamed id key name (.completing key.type.element object) : Action ρ σ π).Completes := by
  intro c w place htarget
  cases c with
  | list => cases htarget
  | map =>
    refine ⟨id, key, rfl, fun number p hp => ?_⟩
    obtain ⟨row, hrow, rfl⟩ := List.mem_map.1 hp
    obtain rfl := List.mem_singleton.1 hrow
    exact ⟨object, rfl⟩

end Action.Completes

namespace Session

/-- The entries of the collection under a name are of the kind that its elements have, so
`Kind.element` and `ValueType.element` agree. -/
theorem Name.type_element (name : Name) : name.key.type.element = name.kind.element.type := by
  obtain ⟨kind, qualifier⟩ := name
  cases kind <;> rfl

/-- Values are handed over, and not a key to look up. -/
def Addition.isOfValues : Addition → Bool
  | .lookup _ => false
  | _ => true

/-- The step hands values to the builder, and not a key to look up. -/
def BuildMapStep.isOfValues : BuildMapStep → Bool
  | .value _ _ => true
  | .shared _ _ => true
  | .all _ => true
  | _ => false

namespace Script

theorem asks_forEach {α β : Type} {allowed : Request Routine Memory Datum → Prop} {f : α → Script β}
    (h : ∀ a, (f a).Asks allowed) (items : List α) : (forEach f items).Asks allowed := by
  induction items with
  | nil => exact .done _
  | cons a rest ih => exact (h a).bind fun b => ih.bind fun bs => .done _

theorem asks_allocate (content : Content Datum) : (allocate content).Asks Request.Completes := by
  refine .act (.of_none fun c w => ?_)
  cases c <;> rfl

theorem asks_memory : memory.Asks Request.Completes := by
  refine .act (.of_none fun c w => ?_)
  cases c <;> rfl

theorem asks_build (kind : Kind) (literal : Literal) : (build kind literal).Asks Request.Completes := by
  induction kind generalizing literal with
  | list element ih =>
    cases literal
    case stored slot => exact asks_memory.bind fun _ => .done _
    case items items => exact (asks_forEach ih items).bind fun _ => asks_allocate _
    all_goals exact asks_allocate _
  | map element ih =>
    cases literal
    case stored slot => exact asks_memory.bind fun _ => .done _
    case fields fields =>
      exact (asks_forEach (fun field => (ih field.2).bind fun _ => .done _) fields).bind fun _ =>
        asks_allocate _
    all_goals exact asks_allocate _
  | _ =>
    cases literal
    case stored slot => exact asks_memory.bind fun _ => .done _
    all_goals exact asks_allocate _

theorem asks_buildContent (kind : Kind) (literal : Literal) :
    (buildContent kind literal).Asks Request.Completes := by
  have hread (object : Ref) : (Code.act (.read object) : Script _).Asks Request.Completes := by
    refine .act (.of_none fun c w => ?_)
    cases c <;> rfl
  exact (asks_build kind literal).bind fun object => (hread object).bind fun _ => .done _

theorem asks_contributeNamed (id : InjectorId) (name : Name) (entry : String) (object : Ref) :
    (Code.act (.contributeNamed id name.key entry (.completing name.kind.element.type object)) :
      Script _).Asks Request.Completes := by
  rw [← name.type_element]
  exact .act .contributeNamed

theorem asks_putAll (id : InjectorId) (name : Name) (rows : List (String × Content Datum)) :
    (putAll id name.key name.kind.element rows).Asks Request.Completes := by
  induction rows with
  | nil => exact .done _
  | cons row rest ih =>
    refine (asks_allocate row.2).bind fun object => ?_
    refine (asks_contributeNamed id name row.1 object).bind fun reply => ?_
    cases reply with
    | error _ => exact .done _
    | ok _ => exact ih

/-- Whatever values are handed to the builder of a list by `addEntries`, it adds objects to
complete. -/
theorem asks_addEntries (id : InjectorId) (name : Name) {addition : Addition} (h : addition.isOfValues = true) :
    (addEntries id name.key name.kind.element addition).Asks Request.Completes := by
  have hobject (object : Ref) :
      (Code.act (.contributeObject id name.key object) : Script _).Asks Request.Completes :=
    .act .contributeObject
  have hall (contents : List (Content Datum)) :
      (Code.act (.contributeAll id name.key contents) : Script _).Asks Request.Completes :=
    .act .contributeAll
  have hkeyed (entry : Key) (object : Ref) :
      (Code.act (.contribute id name.key entry (.completing name.kind.element.type object)) :
        Script _).Asks Request.Completes := by
    rw [← name.type_element]
    exact .act .contribute
  cases addition with
  | lookup _ => cases h
  | value value =>
    exact (asks_buildContent _ value).bind fun content => (asks_allocate content).bind fun object =>
      (hobject object).bind fun _ => .done _
  | shared value =>
    exact (asks_build _ value).bind fun object => (hobject object).bind fun _ => .done _
  | keyed qualifier value =>
    exact (asks_build _ value).bind fun object => (hkeyed _ object).bind fun _ => .done _
  | all values => exact (asks_forEach (asks_buildContent _) values).bind hall

end Script

/-- Whatever values are handed to the builder of a map by `BuildMapStep.run`, it puts objects to
complete. -/
theorem BuildMapStep.asks_run (id : InjectorId) (name : Name) {step : BuildMapStep}
    (h : step.isOfValues = true) : (step.run id name).Asks Request.Completes := by
  cases step with
  | value entry value =>
    rw [BuildMapStep.run]
    exact (Script.asks_buildContent _ value).bind fun content =>
      (Script.asks_putAll id name [(entry, content)]).bind fun _ => .done _
  | shared entry value =>
    rw [BuildMapStep.run]
    exact (Script.asks_build _ value).bind fun object =>
      (Script.asks_contributeNamed id name entry object).bind fun _ => .done _
  | all rows =>
    rw [BuildMapStep.run]
    have hrow (row : String × Literal) := (Script.asks_buildContent name.kind.element row.2).bind
      fun content => Code.Asks.done (row.1, content)
    exact (Script.asks_forEach hrow rows).bind fun contents =>
      (Script.asks_putAll id name contents).bind fun _ => .done _
  | _ => cases h

end Session

end Wiring
