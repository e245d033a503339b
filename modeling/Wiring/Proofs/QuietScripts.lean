import Wiring.Proofs.Edits
import Wiring.Proofs.Scripts

/-!
# Parts of the engine that put nothing on record

Of the engine's own parts only the resolution of a key (`Script.resolve`) and the get on a singleton
(`Script.single`) put something on the stack, among the waits or into a slot. All others are made of
requests and small changes, one after the other, as is the host's code. `Script.Quiet` says so of a
script. Whatever holds of requests and small changes, and of one script after another, holds of
these parts by induction on it, and none of them has to be looked at again.
-/

namespace Wiring

variable {ρ σ π : Type}

namespace Script

/-- The script is made of requests and of small changes by `World.Edits` that store no binding in
place of another. -/
inductive Quiet : {α : Type} → Script ρ σ π α → Prop
  | pure {α : Type} (a : α) : Quiet (Pure.pure a : Script ρ σ π α)
  | now {α : Type} {f : World ρ σ π → α × World ρ σ π}
      (h : ∀ w : World ρ σ π, w.Edits (fun _ _ => False) (f w).2) : Quiet (now f)
  | ask (request : Request ρ σ π) : Quiet (ask request)
  | bind {α β : Type} {first : Script ρ σ π β} {next : β → Script ρ σ π α} (hfirst : Quiet first)
      (hnext : ∀ b, Quiet (next b)) : Quiet (first >>= next)

namespace Quiet

variable {α β : Type} {host : Host ρ σ π} {id : InjectorId}

theorem change {f : World ρ σ π → World ρ σ π}
    (h : ∀ w : World ρ σ π, w.Edits (fun _ _ => False) (f w)) : (Script.change f).Quiet :=
  now h

theorem inTurn {f : α → Script ρ σ π (Except Fault β)} (h : ∀ a, (f a).Quiet) (items : List α) :
    (Script.inTurn f items).Quiet := by
  induction items with
  | nil => exact pure _
  | cons a rest ih =>
    refine bind (h a) fun outcome => ?_
    cases outcome with
    | error _ => exact pure _
    | ok b =>
      refine bind ih fun outcomes => ?_
      cases outcomes <;> exact pure _

theorem through {f : α → β → Script ρ σ π (Except Fault β)} (h : ∀ a b, (f a b).Quiet)
    (items : List α) (b : β) : (Script.through f items b).Quiet := by
  induction items generalizing b with
  | nil => exact pure _
  | cons a rest ih =>
    refine bind (h a b) fun outcome => ?_
    cases outcome with
    | error _ => exact pure _
    | ok b => exact ih b

theorem code (code : Code ρ σ π α) : code.script.Quiet := by
  induction code with
  | done _ => exact pure _
  | ask request next ih => exact bind (ask request) ih

theorem injectMembers (type : ValueType) (object : Ref) :
    (Script.injectMembers host id type object).Quiet :=
  bind (now .refl) fun hooks => through (fun _ _ => code _) hooks ()

theorem complete (stage : Stage ρ) (object : Ref) : (Script.complete host id stage object).Quiet := by
  cases stage with
  | routine routine => exact code _
  | memberInjection type =>
    refine bind (ask (.injectMembers id type object)) fun outcome => ?_
    cases outcome <;> exact pure _

theorem assembleList (roster : RosterId) :
    (Script.assembleList id roster : Script ρ σ π (Except Fault Ref)).Quiet := by
  refine bind (now ((World.Edits.rosterFrame _).ordered · roster)) fun ordered => ?_
  cases ordered with
  | error _ => exact pure _
  | ok entries =>
    refine bind (change fun w => .note w _) fun _ => ?_
    refine bind (inTurn (fun entry => ask (.produce id entry.provider)) entries) fun outcome => ?_
    cases outcome with
    | error _ => exact pure _
    | ok objects => exact bind (now fun _ => .aside rfl rfl rfl rfl) fun _ => pure _

theorem assembleMap (catalog : CatalogId) :
    (Script.assembleMap id catalog : Script ρ σ π (Except Fault Ref)).Quiet := by
  refine bind (now .refl) fun rows => ?_
  refine bind (inTurn (fun row => ask (.produce id row.2)) rows) fun outcome => ?_
  cases outcome with
  | error _ => exact pure _
  | ok objects => exact bind (now fun _ => .aside rfl rfl rfl rfl) fun _ => pure _

theorem install (module : ρ) : (Script.install host id module).Quiet := by
  refine bind (now .refl) fun known => ?_
  cases known with
  | true => exact bind (change fun w => .note w _) fun _ => pure _
  | false =>
    refine bind (change fun w => .markInstalled w id _) fun _ => ?_
    refine bind (through (fun needed _ => ask (.install id needed)) (host.imports module) ())
      fun outcome => ?_
    cases outcome with
    | error _ => exact pure _
    | ok _ => exact bind (change fun w => .note w _) fun _ => code _

theorem produce {provider : Provider ρ}
    (hplain : ∀ slot key type delegate, provider ≠ .singleton slot key type delegate) :
    (Script.produce host id provider).Quiet := by
  cases provider with
  | fixed object => exact pure _
  | factory type routine => exact bind (change fun w => .note w _) fun _ => code _
  | lookup key => exact ask (.resolve id key)
  | decorating delegate stages =>
    refine bind (ask (.produce id delegate)) fun outcome => ?_
    cases outcome with
    | error _ => exact pure _
    | ok object => exact through complete stages object
  | singleton slot key type delegate => exact absurd rfl (hplain slot key type delegate)
  | list roster => exact assembleList roster
  | map catalog => exact assembleMap catalog

end Quiet

end Script

end Wiring
