import Wiring.Proofs.KeptBases
import Wiring.Proofs.RunTrails
import Wiring.Proofs.Stepwise
import Wiring.Proofs.ToldCalls
import Wiring.Proofs.WorkingSingletons

/-!
# Decorations, one by one and all at once

Each decoration of a key puts one stage round the provider that the binding has, so a key that is
decorated often has a nest of providers with one stage each, in the wrapper of its scope. What it
produces is what one provider with all the stages would produce (`Host.alike_nest`), step by step:
the original provider first, then each stage on what came of the one before, up to the first fault
(`Host.produces_flat`). The wrapper is made anew with each change, and holds on to what the last
stage gave, or to nothing (`Host.run_fresh`).

`decorations_flatten` says so of every key after every sequence of calls, whatever else has happened
in between.

* **`Host.follows_nest`** — induction on the stages, the last of which is the outermost.
* **`Represents.renewed_of_rewraps`** — a call that stores the binding anew gives it an empty slot,
  so nothing of the stages before is kept.
* **`Represents.accepts`** — decorations and scopes are refused for no key that is bound.
-/

namespace Wiring

variable {ρ σ π : Type}

namespace Host

/-! ### A nest of stages -/

/-- Stages that are put round a provider one by one go the same way as one decoration with all of
them, and the other way round: by induction on the stages, with `Follows.decorating_decorating`. -/
theorem follows_nest (host : Host ρ σ π) (id : InjectorId) (base : Provider ρ) (stages : List (Stage ρ)) :
    let nest : Provider ρ := stages.foldl (fun provider stage => .decorating provider [stage]) base
    host.Follows id nest (.decorating base stages) ∧ host.Follows id (.decorating base stages) nest := by
  induction stages using List.reverseRecOn with
  | nil => exact (Follows.decorating_nil base).symm
  | append_singleton stages stage ih =>
    -- the last stage is the outermost: it is round all the others at once
    have hlast : host.Follows id _ _ ∧ host.Follows id _ _ :=
      Follows.decorating_decorating base stages [stage]
    simp only [List.foldl_append, List.foldl_cons, List.foldl_nil]
    exact ⟨(ih.1.decorating [stage]).trans hlast.1, hlast.2.trans (ih.2.decorating [stage])⟩

/-- What goes the same way, does so in the wrapper of a scope, by `Follows.singleton`. -/
theorem Follows.wrapped {host : Host ρ σ π} {id : InjectorId} {p q : Provider ρ} (h : host.Follows id p q)
    (scope : Scope) (slot : SlotId) (key : Key) :
    host.Follows id (Registration.wrapped scope slot key p) (Registration.wrapped scope slot key q) := by
  cases scope with
  | noScope => exact h
  | singleton => exact h.singleton slot key key.type

/-- In the wrapper of its scope, the nest of a registration (`Registration.provider`) goes the same
way as one provider that has all its stages. -/
theorem alike_nest (host : Host ρ σ π) (id : InjectorId) (key : Key) (slot : SlotId) (r : Registration ρ) :
    host.Alike id (Registration.wrapped r.scope slot key r.provider)
      (Registration.wrapped r.scope slot key (.decorating r.base r.stages)) := by
  obtain ⟨hforth, hback⟩ := host.follows_nest id r.base r.stages
  exact .of_follows (hforth.wrapped r.scope slot key) (hback.wrapped r.scope slot key)

/-- If the original provider has its members injected, by `Provider.completed`, that comes before
all stages. -/
theorem alike_completed (host : Host ρ σ π) (id : InjectorId) (key : Key) (slot : SlotId)
    {r : Registration ρ} {type : ValueType} {routine : ρ} (hbase : r.base = .completed type routine) :
    host.Alike id (Registration.wrapped r.scope slot key r.provider)
      (Registration.wrapped r.scope slot key
        (.decorating (.factory type routine) (.memberInjection type :: r.stages))) := by
  obtain ⟨hforth, hback⟩ := host.follows_nest id r.base r.stages
  have hinner : host.Follows id _ _ ∧ host.Follows id _ _ :=
    Follows.decorating_decorating (.factory type routine) [.memberInjection type] r.stages
  rw [hbase] at hforth hback
  have hprovider : r.provider =
      r.stages.foldl (fun provider stage => .decorating provider [stage]) (.completed type routine) := by
    rw [Registration.provider, hbase]
  rw [hprovider]
  exact .of_follows ((hforth.trans hinner.1).wrapped r.scope slot key)
    ((hinner.2.trans hback).wrapped r.scope slot key)

/-! ### What one provider with all the stages does -/

section

variable (host : Host ρ σ π) (fuel : Nat) (id : InjectorId)

/-- Carries out one stage on an object, by `Engine.complete` with so much fuel. -/
def staged (stage : Stage ρ) (object : Ref) (w : World ρ σ π) :
    Except Halt (Except Fault Ref × World ρ σ π) :=
  (Engine.complete host (host.answer fuel) id stage object).run w

/-- What comes of an object that is led through stages. Each receives what came of the one before,
in the world that it left behind. -/
inductive LeadsThrough : List (Stage ρ) → Ref → World ρ σ π →
    Except Halt (Except Fault Ref × World ρ σ π) → Prop
  | through (object : Ref) (w : World ρ σ π) : LeadsThrough [] object w (.ok (.ok object, w))
  | next {stage : Stage ρ} {later : List (Stage ρ)} {object made : Ref} {w v : World ρ σ π}
      {outcome : Except Halt (Except Fault Ref × World ρ σ π)}
      (hstage : host.staged fuel id stage object w = .ok (.ok made, v))
      (hlater : LeadsThrough later made v outcome) : LeadsThrough (stage :: later) object w outcome
  /-- The first fault is what comes of it, and the later stages have no turn. -/
  | failed {stage : Stage ρ} {later : List (Stage ρ)} {object : Ref} {w v : World ρ σ π} {fault : Fault}
      (hstage : host.staged fuel id stage object w = .ok (.error fault, v)) :
      LeadsThrough (stage :: later) object w (.ok (.error fault, v))
  | halted {stage : Stage ρ} {later : List (Stage ρ)} {object : Ref} {w : World ρ σ π} {reason : Halt}
      (hstage : host.staged fuel id stage object w = .error reason) :
      LeadsThrough (stage :: later) object w (.error reason)

/-- What comes of a provider that produces first, once, and of the stages that its object is led
through, by `LeadsThrough`. -/
inductive ProducesFlat (base : Provider ρ) (stages : List (Stage ρ)) (w : World ρ σ π) :
    Except Halt (Except Fault Ref × World ρ σ π) → Prop
  | led {object : Ref} {v : World ρ σ π} {outcome : Except Halt (Except Fault Ref × World ρ σ π)}
      (hbase : (host.production id base fuel).run w = .ok (.ok object, v))
      (hstages : host.LeadsThrough fuel id stages object v outcome) : ProducesFlat base stages w outcome
  | failed {fault : Fault} {v : World ρ σ π}
      (hbase : (host.production id base fuel).run w = .ok (.error fault, v)) :
      ProducesFlat base stages w (.ok (.error fault, v))
  | halted {reason : Halt} (hbase : (host.production id base fuel).run w = .error reason) :
      ProducesFlat base stages w (.error reason)

variable {host fuel id}

theorem leadsThrough (stages : List (Stage ρ)) (object : Ref) (w : World ρ σ π) :
    host.LeadsThrough fuel id stages object w
      ((Run.through (Engine.complete host (host.answer fuel) id) stages object).run w) := by
  induction stages generalizing object w with
  | nil => exact .through object w
  | cons stage later ih =>
    rw [Run.through, Run.run_bind]
    cases hstage : (Engine.complete host (host.answer fuel) id stage object).run w with
    | error reason => exact .halted hstage
    | ok p =>
      obtain ⟨outcome, v⟩ := p
      cases outcome with
      | error fault => exact .failed hstage
      | ok made => exact .next hstage (ih made v)

theorem produces_flat (base : Provider ρ) (stages : List (Stage ρ)) (w : World ρ σ π) :
    host.ProducesFlat fuel id base stages w
      ((host.production id (.decorating base stages) (fuel + 1)).run w) := by
  rw [Follows.production_decorating]
  show host.ProducesFlat fuel id base stages w ((host.production id base fuel >>= _).run w)
  rw [Run.run_bind]
  cases hbase : (host.production id base fuel).run w with
  | error reason => exact .halted hbase
  | ok p =>
    obtain ⟨outcome, v⟩ := p
    cases outcome with
    | error fault => exact .failed hbase
    | ok object => exact .led hbase (leadsThrough stages object v)

/-! ### What a fresh wrapper does -/

variable {w between : World ρ σ π} {slot : SlotId} {key : Key} {p : Provider ρ}

/-- A wrapper that keeps nothing yet has its provider produce in the world of `World.beginning`, and
keeps what comes of it, by `World.givenBack`. -/
theorem run_fresh (hempty : w.slot slot = .empty) (hawait : w.awaitKey id key = (.ok (), between)) :
    (host.production id (.singleton slot key key.type p) (fuel + 1)).run w =
      ((host.production id p fuel).run (between.beginning id slot key key.type)).bind fun made =>
        .ok (made.1, made.2.givenBack id slot key made.1) := by
  have hbetween : between.slot slot = .empty := by
    have hspared : w.Spares (fun _ _ => False) (w.awaitKey id key).2 := .awaitKey w id key
    rw [hawait] at hspared
    exact (hspared.slot slot).trans hempty
  have htake :
      (Engine.takeOrMake (host.answer fuel) id slot key key.type p).run between =
        ((host.answer fuel (.produce id p)).run (between.beginning id slot key key.type)).bind
          fun made => .ok (made.1, (made.2.stopProducing id key).setSlot slot (.keeping made.1)) := by
    rw [← Script.toRun_takeOrMake]
    exact Script.run_takeOrMake hbetween
  show (Engine.single (host.answer fuel) id slot key key.type p).run w = _
  rw [Engine.single, Run.run_bind, Run.run_now, hempty]
  show (Engine.await (host.answer fuel) id slot key key.type p).run w = _
  rw [Engine.await, Run.run_bind, Run.run_now, hawait]
  show (Run.bind (Engine.takeOrMake (host.answer fuel) id slot key key.type p) _).run between = _
  rw [Run.run, htake]
  show _ = (Except.bind ((host.answer fuel (.produce id p)).run _) _)
  cases (host.answer fuel (.produce id p)).run (between.beginning id slot key key.type) <;> rfl

end

/-- A key that is registered so, in a wrapper with that slot, produces what one provider with all
its stages would produce in the wrapper. -/
structure Flattens (host : Host ρ σ π) (id : InjectorId) (key : Key) (slot : SlotId)
    (r : Registration ρ) : Prop where
  alike : host.Alike id (Registration.wrapped r.scope slot key r.provider)
    (Registration.wrapped r.scope slot key (.decorating r.base r.stages))
  /-- So alone both come to the same, and leave the same world behind. -/
  yields : ∀ (w after : World ρ σ π) (reply : Except Fault Ref),
    host.Yields (fun answer => answer (.produce id (Registration.wrapped r.scope slot key r.provider))) w
        reply after ↔
      host.Yields (fun answer => answer (.produce id
        (Registration.wrapped r.scope slot key (.decorating r.base r.stages)))) w reply after
  flat : ∀ (fuel : Nat) (w : World ρ σ π), host.ProducesFlat fuel id r.base r.stages w
    ((host.production id (.decorating r.base r.stages) (fuel + 1)).run w)
  /-- A wrapper that keeps nothing yet has all of this done, and then keeps the result, or
  nothing. -/
  cached : ∀ (fuel : Nat) (w between : World ρ σ π), w.slot slot = .empty → slot.index < w.slots.size →
    w.awaitKey id key = (.ok (), between) →
    ((host.production id (.singleton slot key key.type (.decorating r.base r.stages)) (fuel + 1)).run w =
      ((host.production id (.decorating r.base r.stages) fuel).run
        (between.beginning id slot key key.type)).bind fun made =>
          .ok (made.1, made.2.givenBack id slot key made.1)) ∧
    ∀ reply after, (host.production id (.singleton slot key key.type (.decorating r.base r.stages))
      (fuel + 1)).run w = .ok (reply, after) → after.slot slot = .keeping reply
  /-- The members of what a factory made are injected before any of the stages. -/
  completed : ∀ (type : ValueType) (routine : ρ), r.base = .completed type routine →
    host.Alike id (Registration.wrapped r.scope slot key r.provider)
        (Registration.wrapped r.scope slot key
          (.decorating (.factory type routine) (.memberInjection type :: r.stages))) ∧
      ∀ (fuel : Nat) (w : World ρ σ π),
        host.ProducesFlat fuel id (.factory type routine) (.memberInjection type :: r.stages) w
          ((host.production id (.decorating (.factory type routine) (.memberInjection type :: r.stages))
            (fuel + 1)).run w)

end Host

namespace World

variable {w v after : World ρ σ π} {id : InjectorId} {key : Key} {slot : SlotId} {r : Registration ρ}
variable {view : RegistryView ρ} {slots : Key → SlotId} {calls : List (Call ρ σ π)}

/-- Slots are only ever added, call by call. -/
theorem Passes.room (h : w.Passes calls after) : w.slots.size ≤ after.slots.size := by
  induction h with
  | refl => exact Nat.le_refl _
  | call _ action ih => exact Nat.le_trans ih (Spares.perform action _).room
  | own _ hsame ih => exact Nat.le_trans ih hsame.slots

theorem slot_of_run_fresh {host : Host ρ σ π} {fuel : Nat} {between : World ρ σ π} {p : Provider ρ}
    {reply : Except Fault Ref} (hempty : w.slot slot = .empty) (hslot : slot.index < w.slots.size)
    (hawait : w.awaitKey id key = (.ok (), between))
    (hrun : (host.production id (.singleton slot key key.type p) (fuel + 1)).run w = .ok (reply, after)) :
    after.slot slot = .keeping reply := by
  rw [Host.run_fresh hempty hawait] at hrun
  cases hmade : (host.production id p fuel).run (between.beginning id slot key key.type) with
  | error reason =>
    rw [hmade] at hrun
    cases hrun
  | ok made =>
    rw [hmade] at hrun
    cases hrun
    -- slots may have been made meanwhile, but none is ever taken away
    obtain ⟨during, hpasses⟩ := (host.accountable_answer fuel (.produce id p)).passes hmade
    have hbetween : w.slots.size ≤ between.slots.size := by
      have hspared : w.Spares (fun _ _ => False) (w.awaitKey id key).2 := .awaitKey w id key
      rw [hawait] at hspared
      exact hspared.room
    have hroom := hpasses.room
    have hbeginning : (between.beginning id slot key key.type).slots.size = between.slots.size :=
      Array.size_setIfInBounds
    have hlast : slot.index < (made.2.stopProducing id key).slots.size := by
      show slot.index < made.2.slots.size
      omega
    exact slot_setSlot_self _ _ hlast

end World

theorem Host.flattens (host : Host ρ σ π) (id : InjectorId) (key : Key) (slot : SlotId)
    (r : Registration ρ) : host.Flattens id key slot r where
  alike := host.alike_nest id key slot r
  yields _ _ _ := (host.alike_nest id key slot r).yields
  flat _ w := host.produces_flat r.base r.stages w
  cached _ _ _ hempty hslot hawait :=
    ⟨host.run_fresh hempty hawait, fun _ _ hrun => World.slot_of_run_fresh hempty hslot hawait hrun⟩
  completed _ _ hbase :=
    ⟨host.alike_completed id key slot hbase, fun _ w => host.produces_flat _ _ w⟩

/-! ### Calls on a key that is bound -/

namespace World

variable {w v : World ρ σ π} {id : InjectorId} {key : Key} {r : Registration ρ}
variable {view : RegistryView ρ} {slots : Key → SlotId} {calls : List (Call ρ σ π)}

/-- A key that is bound can be decorated, and its scope can be changed: `Represents.find` finds its
binding. -/
theorem Represents.accepts (h : w.Represents id view slots) (hview : view key = some r) :
    (∀ stage, (w.decorate id key stage).1 = .ok ()) ∧ ∀ scope, (w.changeScope id key scope).1 = .ok () := by
  have hbound : ¬ view key = none := by simp [hview]
  constructor
  · intro stage
    exact (RegistryCall.effect h (.decorate key stage)).ends.trans (if_neg hbound)
  · intro scope
    exact (RegistryCall.effect h (.changeScope key scope)).ends.trans (if_neg hbound)

/-- A wrapper that keeps values, and that a call has just made by `RegistryCall.Renews`, has a new
slot, which is empty. -/
theorem Represents.renewed {view' : RegistryView ρ} {slots' : Key → SlotId} {s : Registration ρ}
    (h : w.Represents id view slots) (call : RegistryCall ρ π) (hview : view key = some r)
    (hbinds : ¬ call.Binds key)
    (hrenews : ∀ t, call.after w view key = some t → t.scope = .singleton → call.Renews view key)
    (hafter : (w.register id call).2.Represents id view' slots') (hview' : view' key = some s)
    (hscope : s.scope = .singleton) :
    w.slots.size ≤ (slots' key).index ∧ (w.register id call).2.slot (slots' key) = .empty := by
  have heffect := RegistryCall.effect h call
  obtain ⟨t, ht⟩ : ∃ t, call.after w view key = some t := ⟨_, RegistryCall.after_of_not_binds w hview hbinds⟩
  obtain ⟨others, hothers⟩ := heffect.represents
  have hstored := hafter.get?_eq_some hview'
  -- both registrations determine the one binding
  have hsame : t.scope = .singleton := by
    have hbinding := Option.some.inj ((hothers.get?_eq_some ht).symm.trans hstored)
    exact (congrArg Binding.scope hbinding).trans hscope
  obtain ⟨slot, hnew, hempty, hget⟩ := heffect.renewed key (hrenews t ht hsame) t ht hsame
  have hbinding := Option.some.inj (hget.symm.trans hstored)
  have hslot : slot = slots' key := by
    have heffective := congrArg Binding.effective hbinding
    simp only [Registration.binding, Registration.wrapped, hsame, hscope] at heffective
    injection heffective
  rw [← hslot]
  exact ⟨hnew, hempty⟩

/-- What makes the wrapper of a bound key anew, by `Action.Rewraps`, is a call on the registry that
renews it, so the new slot is empty. -/
theorem Represents.renewed_of_rewraps {action : Action ρ σ π} {view' : RegistryView ρ}
    {slots' : Key → SlotId} {s : Registration ρ} (h : w.Represents id view slots)
    (hview : view key = some r) (hrewraps : action.Rewraps id key) (hbinds : ¬ action.Binds id key)
    (hafter : (action.perform w).2.Represents id view' slots') (hview' : view' key = some s)
    (hscope : s.scope = .singleton) :
    w.slots.size ≤ (slots' key).index ∧ (action.perform w).2.slot (slots' key) = .empty := by
  have hbound : view key ≠ none := by simp [hview]
  cases action
  case bind => exact absurd hrewraps hbinds
  case changeScope i own scope =>
    obtain ⟨rfl, rfl⟩ := hrewraps
    exact h.renewed (.changeScope own scope) hview (fun h => h) (fun _ _ _ => ⟨rfl, hbound⟩) hafter
      hview' hscope
  case decorate i own stage =>
    obtain ⟨rfl, rfl⟩ := hrewraps
    exact h.renewed (.decorate own stage) hview (fun h => h) (fun _ _ _ => ⟨rfl, hbound⟩) hafter
      hview' hscope
  case shutDown i =>
    obtain rfl := hrewraps
    exact h.renewed .shutDown hview (fun h => h) (fun t ht hsingle => ⟨t, ht, hsingle⟩) hafter
      hview' hscope
  all_goals cases hrewraps

/-- Whatever happens to a key after it was bound, it is bound to its provider in a nest of the
stages that were added since, in their order, in the wrapper of the scope that it was given last
(`Registration.after`), and that goes the same way as the one provider with all these stages
(`Flattens`). -/
theorem decorations_flatten (host : Host ρ σ π) (hrep : w.Represents id view slots)
    (hview : view key = some r) (hpasses : w.Passes calls v)
    (hbinds : ∀ call ∈ calls, ¬ call.action.Binds id key) :
    (∀ call ∈ calls, (∀ stage, (call.before.decorate id key stage).1 = .ok ()) ∧
      ∀ scope, (call.before.changeScope id key scope).1 = .ok ()) ∧
    ∃ slot, v.providerOf id key = (.ok (Registration.wrapped (r.after id key calls).scope slot key
        (r.after id key calls).provider), v) ∧
      host.Flattens id key slot (r.after id key calls) ∧
      ((r.after id key calls).scope = .singleton → slot.index < v.slots.size ∧
        ∀ earlier last, calls = earlier ++ [last] → last.after = v → last.action.Rewraps id key →
          last.before.slots.size ≤ slot.index ∧ v.slot slot = .empty) := by
  -- the key is bound at every moment since, and so it is when one of the calls is made
  have hbefore {earlier later : List (Call ρ σ π)} {call : Call ρ σ π}
      (hcalls : calls = earlier ++ call :: later) :
      ∃ view' slots' s, call.before.Represents id view' slots' ∧ view' key = some s := by
    subst hcalls
    obtain ⟨view', slots', hrep', hkept⟩ := hpasses.split.1.represents hrep
    exact ⟨view', slots', _, hrep', hkept key r hview fun c hc => hbinds c (List.mem_append_left _ hc)⟩
  obtain ⟨view', slots', hrep', hkept⟩ := hpasses.represents hrep
  have hview' := hkept key r hview hbinds
  refine ⟨fun call hcall => ?_, slots' key, hrep'.providerOf_of_view hview', host.flattens _ _ _ _,
    fun hscope => ⟨hrep'.allotted key _ hview' hscope, ?_⟩⟩
  · obtain ⟨earlier, later, hcalls⟩ := List.append_of_mem hcall
    obtain ⟨_, _, _, hrep'', hview''⟩ := hbefore hcalls
    exact hrep''.accepts hview''
  · intro earlier last hcalls hlast hrewraps
    obtain ⟨_, _, _, hrep'', hview''⟩ := hbefore hcalls
    have hmem : last ∈ calls := hcalls ▸ List.mem_append_right _ (List.mem_singleton_self last)
    subst hlast
    exact hrep''.renewed_of_rewraps hview'' hrewraps (hbinds last hmem) hrep' hview' hscope

/-! ### A key with stages that take notes

The factory, the hook and the stages of `notingHost` write down their numbers, and the fourth stage
fails. -/

/-- Writes down a number. -/
def writeDown (number : Nat) : Code Nat (List Nat) Unit Unit := do
  let seen : List Nat ← Code.act .recall
  Code.act (.remember (seen ++ [number]))

def notingHost : Host Nat (List Nat) Unit where
  make number _ := do
    writeDown number
    let object ← Code.act (.allocate (.plain ()))
    pure (.ok object)
  stage number _ _ := do
    writeDown number
    if number = 4 then pure (.error (.custom .providerFailed "spoilt"))
    else
      let object ← Code.act (.allocate (.plain ()))
      pure (.ok object)
  hook number _ _ := do
    writeDown number
    pure (.ok ())
  kind _ := default
  imports _ := []
  configure _ _ := pure (.ok ())

def noted : Key := ⟨.plain "Note", none⟩

/-- There is a hook for what is to be bound. -/
def unboundNote : World Nat (List Nat) Unit :=
  addHook { injectors := #[{}], memory := [] } ⟨0⟩ (.plain "Note") 9

def boundNote : World Nat (List Nat) Unit :=
  unboundNote.bind ⟨0⟩ noted (.completed (.plain "Note") 0) .singleton

/-- The wrapper is made anew five times, and is no singleton in between. -/
def noteCalls : List (Action Nat (List Nat) Unit) :=
  [.decorate ⟨0⟩ noted (.routine 1), .changeScope ⟨0⟩ noted .noScope, .decorate ⟨0⟩ noted (.routine 2),
    .changeScope ⟨0⟩ noted .singleton, .shutDown ⟨0⟩]

def decoratedNote : World Nat (List Nat) Unit :=
  (boundNote.performAll noteCalls).2

def noteWrapper : Provider Nat :=
  .singleton ⟨3⟩ noted (.plain "Note")
    (.decorating (.decorating (.completed (.plain "Note") 0) [.routine 1]) [.routine 2])

/-- The factory comes first, then the hook, then the stages, and the last one's object is kept. -/
theorem decorations_flatten_of_notes :
    (∃ slots, boundNote.Represents ⟨0⟩ (Function.update (fun _ => none) noted
      (some ⟨.completed (.plain "Note") 0, [], .singleton⟩)) slots) ∧
    decoratedNote.providerOf ⟨0⟩ noted = (.ok noteWrapper, decoratedNote) ∧
    notingHost.Flattens ⟨0⟩ noted ⟨3⟩
      ⟨.completed (.plain "Note") 0, [.routine 1, .routine 2], .singleton⟩ ∧
    ((notingHost.production ⟨0⟩ noteWrapper 9).run decoratedNote).map
        (fun (reply, after) => (reply, after.memory, after.slot ⟨3⟩)) =
      .ok (.ok ⟨2⟩, [0, 9, 1, 2], .filled ⟨2⟩) := by
  have hstart : RegistryHistory ⟨0⟩ unboundNote fun _ => none := .start _ Nat.zero_lt_one rfl
  obtain ⟨_, hunbound⟩ := hstart.represents
  obtain ⟨slots, hrep⟩ := (RegistryCall.effect_bind hunbound noted (.completed (.plain "Note") 0)
    .singleton).represents
  have hview : Function.update (fun _ => none) noted
      (some (⟨.completed (.plain "Note") 0, [], .singleton⟩ : Registration Nat)) noted =
        some ⟨.completed (.plain "Note") 0, [], .singleton⟩ := Function.update_self _ _ _
  have hcalls : ∀ action ∈ noteCalls, ¬ action.Binds ⟨0⟩ noted := by simp [noteCalls, Action.Binds]
  have hbinds : ∀ call ∈ (boundNote.performAll noteCalls).1, ¬ call.action.Binds ⟨0⟩ noted := by
    intro call hcall
    have haction : call.action ∈ noteCalls := by
      rw [← map_action_performAll boundNote noteCalls]
      exact List.mem_map_of_mem hcall
    exact hcalls call.action haction
  obtain ⟨-, slot, hprovider, hflattens, -⟩ :=
    decorations_flatten notingHost hrep hview (passes_performAll boundNote noteCalls) hbinds
  have hslot : slot = ⟨3⟩ := by
    have hwrapper : decoratedNote.providerOf ⟨0⟩ noted = (.ok noteWrapper, decoratedNote) := rfl
    have hsame := Except.ok.inj (congrArg Prod.fst (hprovider.symm.trans hwrapper))
    injection hsame
  subst hslot
  -- nobody works on the key, and nothing is kept for it yet
  have hunproduced : (decoratedNote.injector ⟨0⟩).waits.producing.get? noted = none := rfl
  have hempty : decoratedNote.slot ⟨3⟩ = .empty := rfl
  have hrun : (notingHost.production ⟨0⟩ noteWrapper 9).run decoratedNote = _ :=
    Host.run_fresh hempty (awaitKey_of_unproduced hunproduced)
  refine ⟨⟨slots, hrep⟩, rfl, hflattens, ?_⟩
  rw [hrun]
  rfl

/-- A stage that fails has the last word, and nothing is kept. -/
example :
    let (_, spoilt) := boundNote.performAll
      (noteCalls ++ [.decorate ⟨0⟩ noted (.routine 4), .decorate ⟨0⟩ noted (.routine 5)])
    ((notingHost.run 9 (Code.send (.resolve ⟨0⟩ noted))).run spoilt).map
        (fun (reply, after) => (reply, after.memory, after.slot ⟨5⟩)) =
      .ok (.error (.custom .providerFailed "spoilt"), [0, 9, 1, 2, 4], .empty) := by
  cbv

end World

end Wiring
