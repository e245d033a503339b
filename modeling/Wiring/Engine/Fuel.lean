import Wiring.Engine
import Wiring.Threads.Refines

/-!
# Fuel

More fuel never changes an outcome that was reached with less (`Host.answer_of_le`): a request either
runs out of fuel or has one outcome, whatever the fuel. So the outcome belongs to the host, the request
and the world, and what is proved of `Host.answer` with some fuel holds with any fuel above it.

Every part of the engine keeps the order `Run.Refines` on computations: with more fuel it does the same
wherever the fuel sufficed before. `Engine.step_refines` says so of one request, given it of the requests
that it makes, and `Host.answer_refines` of all of them, by induction on the smaller fuel.
-/

namespace Wiring

variable {ρ σ π α β : Type}

open Run

/-- Code refines when the answers to its requests do, for `Code.run` puts together what they come
to. -/
theorem Code.run_refines {f g : (request : Request ρ σ π) → Run ρ σ π request.Answer}
    (h : ∀ request, Refines (f request) (g request)) (code : Code ρ σ π α) :
    Refines (code.run f) (code.run g) := by
  induction code with
  | done result => exact .refl _
  | ask request next ih => exact .bind (h request) fun reply => ih reply

namespace Engine

variable {host : Host ρ σ π}
variable {f g : (request : Request ρ σ π) → Run ρ σ π request.Answer}

theorem resolve_refines (h : ∀ request, Refines (f request) (g request)) (id : InjectorId)
    (key : Key) : Refines (resolve f id key) (resolve g id key) := by
  refine .bind (.refl _) fun pushed => ?_
  cases pushed with
  | error _ => exact .refl _
  | ok _ =>
    refine .bind (.refl _) fun _ => .bind (.refl _) fun found => ?_
    cases found with
    | error _ => exact .refl _
    | ok provider => exact .bind (h (.produce id provider)) fun _ => .refl _

theorem injectMembers_refines (h : ∀ request, Refines (f request) (g request)) (id : InjectorId)
    (type : ValueType) (object : Ref) :
    Refines (injectMembers host f id type object) (injectMembers host g id type object) :=
  .bind (.refl _) fun hooks =>
    through_refines (fun hook _ => Code.run_refines h (host.hook hook id object)) hooks ()

theorem complete_refines (h : ∀ request, Refines (f request) (g request)) (id : InjectorId)
    (stage : Stage ρ) (object : Ref) :
    Refines (complete host f id stage object) (complete host g id stage object) := by
  cases stage with
  | routine routine => exact Code.run_refines h _
  | memberInjection type => exact .bind (h (.injectMembers id type object)) fun _ => .refl _

theorem initialise_refines (h : ∀ request, Refines (f request) (g request)) (id : InjectorId)
    (slot : SlotId) (key : Key) (type : ValueType) (delegate : Provider ρ) :
    Refines (initialise f id slot key type delegate) (initialise g id slot key type delegate) :=
  .bind (.refl _) fun _ => .bind (.refl _) fun _ =>
    .bind (h (.produce id delegate)) fun _ => .refl _

theorem takeOrMake_refines (h : ∀ request, Refines (f request) (g request)) (id : InjectorId)
    (slot : SlotId) (key : Key) (type : ValueType) (delegate : Provider ρ) :
    Refines (takeOrMake f id slot key type delegate) (takeOrMake g id slot key type delegate) := by
  refine .bind (.refl _) fun taken => ?_
  cases taken with
  | some object => exact .refl _
  | none => exact initialise_refines h id slot key type delegate

theorem await_refines (h : ∀ request, Refines (f request) (g request)) (id : InjectorId)
    (slot : SlotId) (key : Key) (type : ValueType) (delegate : Provider ρ) :
    Refines (await f id slot key type delegate) (await g id slot key type delegate) := by
  refine .bind (.refl _) fun granted => ?_
  cases granted with
  | error _ => exact .refl _
  | ok _ => exact .bind (takeOrMake_refines h id slot key type delegate) fun _ => .refl _

theorem single_refines (h : ∀ request, Refines (f request) (g request)) (id : InjectorId)
    (slot : SlotId) (key : Key) (type : ValueType) (delegate : Provider ρ) :
    Refines (single f id slot key type delegate) (single g id slot key type delegate) := by
  refine .bind (.refl _) fun state => ?_
  cases state with
  | filled _ => exact .refl _
  | busy => exact await_refines h id slot key type delegate
  | empty => exact await_refines h id slot key type delegate

theorem assembleList_refines (h : ∀ request, Refines (f request) (g request)) (id : InjectorId)
    (roster : RosterId) : Refines (assembleList f id roster) (assembleList g id roster) := by
  refine .bind (.refl _) fun ordered => ?_
  cases ordered with
  | error _ => exact .refl _
  | ok entries =>
    exact .bind (.refl _) fun _ =>
      .bind (inTurn_refines (fun entry => h (.produce id entry.provider)) entries) fun _ =>
        .refl _

theorem assembleMap_refines (h : ∀ request, Refines (f request) (g request)) (id : InjectorId)
    (catalog : CatalogId) : Refines (assembleMap f id catalog) (assembleMap g id catalog) :=
  .bind (.refl _) fun rows =>
    .bind (inTurn_refines (fun row => h (.produce id row.2)) rows) fun _ => .refl _

theorem produce_refines (h : ∀ request, Refines (f request) (g request)) (id : InjectorId)
    (provider : Provider ρ) : Refines (produce host f id provider) (produce host g id provider) := by
  cases provider with
  | fixed object => exact .refl _
  | factory type routine => exact .bind (.refl _) fun _ => Code.run_refines h _
  | lookup key => exact h (.resolve id key)
  | decorating delegate stages =>
    refine .bind (h (.produce id delegate)) fun outcome => ?_
    cases outcome with
    | error _ => exact .refl _
    | ok object => exact through_refines (complete_refines h id) stages object
  | singleton slot key type delegate => exact single_refines h id slot key type delegate
  | list roster => exact assembleList_refines h id roster
  | map catalog => exact assembleMap_refines h id catalog

theorem install_refines (h : ∀ request, Refines (f request) (g request)) (id : InjectorId)
    (module : ρ) : Refines (install host f id module) (install host g id module) := by
  refine .bind (.refl _) fun known => ?_
  cases known with
  | true => exact .refl _
  | false =>
    refine .bind (.refl _) fun _ => .bind (through_refines (fun needed _ => h (.install id needed))
      (host.imports module) ()) fun outcome => ?_
    cases outcome with
    | error _ => exact .refl _
    | ok _ => exact .bind (.refl _) fun _ => Code.run_refines h _

theorem resolveApart_refines (h : ∀ request, Refines (f request) (g request)) (id : InjectorId)
    (key : Key) : Refines (resolveApart f id key) (resolveApart g id key) :=
  .bind (.refl _) fun _ => .bind (h (.resolve id key)) fun _ => .refl _

theorem step_refines {m n : Nat} (hmn : m ≤ n) (h : ∀ request, Refines (f request) (g request))
    (request : Request ρ σ π) : Refines (step host m f request) (step host n g request) := by
  cases request with
  | act action => exact .refl _
  | resolve id key => exact resolve_refines h id key
  | produce id provider => exact produce_refines h id provider
  | injectMembers id type object => exact injectMembers_refines h id type object
  | install id module => exact install_refines h id module
  | resolveApart id key => exact resolveApart_refines h id key
  | resolveTogether id keys =>
    exact together_refines hmn (.map (fun key => h (.resolve id key)) keys)
  | pause => exact .refl _

end Engine

/-! ### Outcomes without fuel -/

/-- More fuel changes no outcome that was reached with less: by induction on the smaller fuel, each
part of the engine by `Engine.step_refines`. -/
theorem Host.answer_refines (host : Host ρ σ π) {m n : Nat} (h : m ≤ n)
    (request : Request ρ σ π) : Refines (host.answer m request) (host.answer n request) := by
  induction n generalizing m request with
  | zero =>
    cases Nat.le_zero.1 h
    exact .refl _
  | succ n ih =>
    cases m with
    | zero => exact .outOfFuel _
    | succ m =>
      have hmn := Nat.le_of_succ_le_succ h
      exact Engine.step_refines hmn (fun request => ih hmn request) request

/-- An answer reached with some fuel is reached with any fuel above it, as `Host.answer_refines`
says of runs alone. -/
theorem Host.answer_of_le {host : Host ρ σ π} {m n : Nat} (h : m ≤ n) {request : Request ρ σ π}
    {w after : World ρ σ π} {reply : request.Answer}
    (hm : (host.answer m request).run w = .ok (reply, after)) :
    (host.answer n request).run w = .ok (reply, after) := by
  have hw := (host.answer_refines h request).run w
  rw [hm] at hw
  generalize (host.answer n request).run w = outcome at hw
  cases hw with
  | ok e => rw [e]

end Wiring
