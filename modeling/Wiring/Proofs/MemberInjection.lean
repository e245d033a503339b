import Wiring.Proofs.Builders
import Wiring.Proofs.Decorations
import Wiring.Proofs.HandedValues
import Wiring.Proofs.Provenance

/-!
# Member injection

A value whose members are to be injected is given away once the hooks of its type have run on it:
those that the type has when the injection begins, one after the other, and each of them has to
succeed (`Host.Injects`). Nothing else is done for it meanwhile (`Host.InjectionStep`), and what a
hook registers is for later injections. All this comes before the stages of a binding and inside its
wrapper (`Host.ProducesInjected`, `Scope.Gives`), so neither a resolution nor a collection nor a
slot gets a value of which a hook has failed, and a wrapper that is left empty has the value made
anew.

`no_half_injected_value_escapes` says so of every run, on however many threads.

* **`Host.steps_injection`** — between two steps of such a production nothing else is done for the
  value.
* **`Injects.of_injectMembers`** — what comes of an injection is settled by the hooks at its
  beginning.
* **`World.Vacant`** — a wrapper that may be asked at once; by `Vacant.run` it is so again after a
  failure, so the next get makes the value anew.
-/

namespace Wiring

open World

variable {ρ σ π α : Type}

/-! ### One value -/

/-- The hooks run on the object one after the other, each as a computation alongside others, up to
the first that fails. -/
inductive Host.RunsHooks (host : Host ρ σ π) (fuel : Nat) (id : InjectorId) (object : Ref) :
    List ρ → World ρ σ π → List (Event ρ σ π) → Except Fault Unit → World ρ σ π → Prop
  | none {w after : World ρ σ π} {events : List (Event ρ σ π)} (h : w.Unfolds events after) :
      RunsHooks host fuel id object [] w events (.ok ()) after
  | next {hook : ρ} {rest : List ρ} {w v after : World ρ σ π} {events more : List (Event ρ σ π)}
      {reply : Except Fault Unit}
      (h : ((host.hook hook id object).run (host.answer fuel)).ComesToBy Unfolds w events (.ok ()) v)
      (hrest : RunsHooks host fuel id object rest v more reply after) :
      RunsHooks host fuel id object (hook :: rest) w (events ++ more) reply after
  | failed {hook : ρ} {rest : List ρ} {w after : World ρ σ π} {events : List (Event ρ σ π)} {fault : Fault}
      (h : ((host.hook hook id object).run (host.answer fuel)).ComesToBy Unfolds w events (.error fault) after) :
      RunsHooks host fuel id object (hook :: rest) w events (.error fault) after

/-- What a production comes to that has the members of a value injected: the provider has to make
the value, and the hooks that its type has at one moment after that have to succeed on it by
`RunsHooks`, all of them, one after the other. -/
inductive Host.Injects (host : Host ρ σ π) (id : InjectorId) (type : ValueType) (provider : Provider ρ)
    (w : World ρ σ π) : List (Event ρ σ π) → Except Fault Ref → World ρ σ π → Prop
  | unmade {fuel : Nat} {events : List (Event ρ σ π)} {after : World ρ σ π} {fault : Fault}
      (h : (host.answer fuel (.produce id provider)).ComesToBy Unfolds w events (.error fault) after) :
      Injects host id type provider w events (.error fault) after
  | injected {fuel less : Nat} {before during : List (Event ρ σ π)} {u after : World ρ σ π} {object : Ref}
      (hmade : (host.answer fuel (.produce id provider)).ComesToBy Unfolds w before (.ok object) u)
      (hhooks : host.RunsHooks less id object ((u.injector id).hooksOf type) u during (.ok ()) after) :
      Injects host id type provider w (before ++ during) (.ok object) after
  | rejected {fuel less : Nat} {before during : List (Event ρ σ π)} {u after : World ρ σ π} {object : Ref}
      {fault : Fault}
      (hmade : (host.answer fuel (.produce id provider)).ComesToBy Unfolds w before (.ok object) u)
      (hhooks : host.RunsHooks less id object ((u.injector id).hooksOf type) u during (.error fault) after) :
      Injects host id type provider w (before ++ during) (.error fault) after

/-- A step in the world `v` is one of a hook among these that run on the object one after the other,
and all hooks before it have succeeded. -/
inductive Host.HookStep (host : Host ρ σ π) (fuel : Nat) (id : InjectorId) (object : Ref) (hooks : List ρ)
    (w : World ρ σ π) : List (Event ρ σ π) → World ρ σ π → World ρ σ π → Prop
  | running {done left : List ρ} {hook : ρ} {before during : List (Event ρ σ π)} {u v after : World ρ σ π}
      {rest last : Run ρ σ π (Except Fault Unit)} {thread : ThreadId} {stack : ResolveStack}
      (hhooks : hooks = done ++ hook :: left) (hdone : host.RunsHooks fuel id object done w before (.ok ()) u)
      (h : ((host.hook hook id object).run (host.answer fuel)).BecomesBy Unfolds u during rest v)
      (hstep : rest.advance (v.switchTo thread stack) = .stepped last after) :
      HookStep host fuel id object hooks w (before ++ during) v after

/-- A step in the world `v` that a production takes which has the members of a value injected: it is
one of the production of the value, or looks which hooks there are for the type, once there is an
object, or it is one of these hooks, by `HookStep`. -/
inductive Host.InjectionStep (host : Host ρ σ π) (id : InjectorId) (type : ValueType) (provider : Provider ρ)
    (w : World ρ σ π) : List (Event ρ σ π) → World ρ σ π → World ρ σ π → Prop
  | making {fuel : Nat} {events : List (Event ρ σ π)} {v after : World ρ σ π}
      {rest last : Run ρ σ π (Except Fault Ref)} {thread : ThreadId} {stack : ResolveStack}
      (h : (host.answer fuel (.produce id provider)).BecomesBy Unfolds w events rest v)
      (hstep : rest.advance (v.switchTo thread stack) = .stepped last after) :
      InjectionStep host id type provider w events v after
  | looking {fuel : Nat} {events : List (Event ρ σ π)} {v : World ρ σ π} {object : Ref}
      (hmade : (host.answer fuel (.produce id provider)).ComesToBy Unfolds w events (.ok object) v)
      (thread : ThreadId) (stack : ResolveStack) :
      InjectionStep host id type provider w events v (v.switchTo thread stack)
  | running {fuel less : Nat} {before during : List (Event ρ σ π)} {u v after : World ρ σ π} {object : Ref}
      (hmade : (host.answer fuel (.produce id provider)).ComesToBy Unfolds w before (.ok object) u)
      (hhook : host.HookStep less id object ((u.injector id).hooksOf type) u during v after) :
      InjectionStep host id type provider w (before ++ during) v after

section

variable {host : Host ρ σ π} {fuel : Nat} {id : InjectorId} {type : ValueType} {provider : Provider ρ}
variable {w u v after : World ρ σ π} {events more : List (Event ρ σ π)}
variable {object : Ref} {reply : Except Fault Ref}

namespace Host.RunsHooks

theorem afterwards {hooks : List ρ} {done : Except Fault Unit}
    (h : host.RunsHooks fuel id object hooks w events done v) (hafter : v.Unfolds more after) :
    host.RunsHooks fuel id object hooks w (events ++ more) done after := by
  induction h with
  | none h => exact .none (h.trans hafter)
  | next h _ ih =>
    rw [List.append_assoc]
    exact .next h (ih hafter)
  | failed h => exact .failed (h.afterwards hafter)

theorem before {hooks : List ρ} {done : Except Fault Unit} (hbefore : w.Unfolds events v)
    (h : host.RunsHooks fuel id object hooks v more done after) :
    host.RunsHooks fuel id object hooks w (events ++ more) done after := by
  cases h with
  | none h => exact .none (hbefore.trans h)
  | next h hrest =>
    rw [← List.append_assoc]
    exact .next (h.before hbefore) hrest
  | failed h => exact .failed (h.before hbefore)

theorem of_through {hooks : List ρ} {reply : Except Fault Unit}
    (h : (Run.through (fun hook _ => (host.hook hook id object).run (host.answer fuel)) hooks ()).ComesToBy
      Unfolds w events reply after) :
    host.RunsHooks fuel id object hooks w events reply after := by
  induction hooks generalizing w events with
  | nil =>
    cases h.pure
    exact .none h.told
  | cons hook rest ih =>
    obtain ⟨outcome, before, more, u, rfl, hhook, hrest⟩ := h.bind
    cases outcome with
    | error fault =>
      cases hrest.pure
      exact .failed (hhook.afterwards hrest.told)
    | ok _ => exact .next hhook (ih hrest)

end Host.RunsHooks

theorem Host.steps_through (host : Host ρ σ π) (hooks : List ρ) (w : World ρ σ π) :
    (Run.through (fun hook _ => (host.hook hook id object).run (host.answer fuel)) hooks ()).Steps
      (fun events v _ after => host.HookStep fuel id object hooks w events v after) w := by
  induction hooks generalizing w with
  | nil => exact .done _
  | cons hook rest ih =>
    refine .bind ?first fun outcome before u hhook => ?_
    case first =>
      intro events left v thread stack last after hbecomes hstep
      exact ⟨[], .running (List.nil_append _).symm (.none (.refl w)) hbecomes hstep⟩
    cases outcome with
    | error fault => exact .done _
    | ok _ =>
      refine (ih u).mono fun events v _ after hlater => ?_
      obtain ⟨rfl, hdone, h, hstep⟩ := hlater
      rw [← List.append_assoc]
      exact .running rfl (.next hhook hdone) h hstep

namespace Host.Injects

/-- The hooks are those that the type has by `Injector.hooksOf` when the injection begins. -/
theorem of_injectMembers {done : Except Fault Unit}
    (h : (host.answer fuel (.injectMembers id type object)).ComesToBy Unfolds w events done after) :
    ∃ less before during u, events = before ++ during ∧ w.Unfolds before u ∧
      host.RunsHooks less id object ((u.injector id).hooksOf type) u during done after := by
  cases fuel with
  | zero => exact absurd h Run.ComesToBy.not_halt
  | succ less =>
    obtain ⟨hooks, first, more, v, rfl, hread, hrun⟩ := Run.ComesToBy.bind h
    obtain ⟨before, between, u, rfl, hbefore, rfl, hbetween⟩ := hread.now
    exact ⟨less, before, between ++ more, u, List.append_assoc _ _ _, hbefore,
      .of_through (hrun.before hbetween)⟩

theorem of_comesTo
    (h : (host.answer fuel (.produce id (.decorating provider [.memberInjection type]))).ComesToBy
      Unfolds w events reply after) :
    host.Injects id type provider w events reply after := by
  obtain ⟨less, made, first, rest, u, rfl, hmade, hstage⟩ := comesTo_decorating h
  obtain ⟨fault, rfl, rfl, hrest⟩ | ⟨object, rfl, hcomplete⟩ := hstage
  · exact .unmade (hmade.afterwards hrest)
  · obtain ⟨done, second, more, v, rfl, hinject, hlast⟩ := Run.ComesToBy.bind hcomplete
    obtain ⟨_, before, during, t, rfl, hbefore, hhooks⟩ := of_injectMembers hinject
    have hmade := hmade.afterwards hbefore
    rw [List.append_assoc before, ← List.append_assoc]
    cases done with
    | error fault =>
      cases hlast.pure
      exact .rejected hmade (hhooks.afterwards hlast.told)
    | ok _ =>
      cases hlast.pure
      exact .injected hmade (hhooks.afterwards hlast.told)

end Host.Injects

/-- Nothing is done for an injection but to make the value and to run the hooks: each step is an
`InjectionStep`. -/
theorem Host.steps_injection (host : Host ρ σ π) (w : World ρ σ π) :
    (host.answer fuel (.produce id (.decorating provider [.memberInjection type]))).Steps
      (fun events v _ after => host.InjectionStep id type provider w events v after) w := by
  cases fuel with
  | zero => exact .step fun _ _ _ _ _ _ _ htake => nomatch htake
  | succ fuel =>
    refine .bind ?making fun made before u hmade => ?_
    case making =>
      intro events rest v thread stack last after hbecomes hstep
      exact ⟨[], .making hbecomes hstep⟩
    cases made with
    | error fault => exact .done _
    | ok object =>
      -- after the hooks nothing is left but to give the value or their fault
      refine .bind (.bind ?injecting fun done _ _ _ => ?ended) fun reply _ _ _ => ?given
      case ended => cases done <;> exact .done _
      case given => cases reply <;> exact .done _
      cases fuel with
      | zero => exact .step fun _ _ _ _ _ _ _ htake => nomatch htake
      | succ less =>
        -- the hooks are looked up in one step, and those that are found then are run
        refine .bind (.step fun events v thread stack hooks after hseen htake => ?_) fun hooks first v hread => ?_
        · cases htake
          exact ⟨[], .looking (hmade.afterwards hseen) thread stack⟩
        · obtain ⟨earlier, between, x, rfl, hearlier, rfl, hbetween⟩ := hread.now
          refine (host.steps_through _ v).mono fun events y _ after hstep => ?_
          obtain ⟨hhooks, hdone, h, hstep⟩ := hstep
          have hrunning : host.InjectionStep id type provider w _ y after :=
            .running (hmade.afterwards hearlier) (.running hhooks (hdone.before hbetween) h hstep)
          simpa only [List.append_assoc] using hrunning

/-- A given object is what its provider produces, and nothing is done for it. -/
theorem Host.comesTo_fixed (h : (host.answer fuel (.produce id (.fixed object))).ComesToBy Unfolds w events reply after) :
    reply = .ok object := by
  cases fuel with
  | zero => exact absurd h Run.ComesToBy.not_halt
  | succ less => exact h.pure

/-- The value that is given back is the object itself, since a `fixed` provider makes nothing
else. -/
theorem Host.Injects.eq_of_fixed {made : Ref}
    (h : host.Injects id type (.fixed object) w events (.ok made) after) : made = object := by
  cases h with
  | injected hmade _ => exact Except.ok.inj (Host.comesTo_fixed hmade)

end

/-! ### Bound factories -/

/-- What a production comes to of a factory whose values have their members injected, with stages
round it. The injection comes before all stages, and if there is a fault until then, nothing else
comes of it; the stages follow by `Finishes`. -/
inductive Host.ProducesInjected (host : Host ρ σ π) (id : InjectorId) (type : ValueType) (routine : ρ)
    (stages : List (Stage ρ)) (w : World ρ σ π) :
    List (Event ρ σ π) → Except Fault Ref → World ρ σ π → Prop
  | failed {before later : List (Event ρ σ π)} {u after : World ρ σ π} {fault : Fault}
      (hinject : host.Injects id type (.factory type routine) w before (.error fault) u)
      (hlater : u.Unfolds later after) :
      ProducesInjected host id type routine stages w (before ++ later) (.error fault) after
  | injected {before during : List (Event ρ σ π)} {u after : World ρ σ π} {object : Ref}
      {reply : Except Fault Ref}
      (hinject : host.Injects id type (.factory type routine) w before (.ok object) u)
      (hstages : host.Finishes Unfolds id (.ok object) u stages during reply after) :
      ProducesInjected host id type routine stages w (before ++ during) reply after

/-- What comes to those who ask for a value in the scope, of which what is in its wrapper `makes`
one: by `World.Gets` if the scope keeps values. -/
def Scope.Gives (scope : Scope) (id : InjectorId) (slot : SlotId) (key : Key)
    (makes : World ρ σ π → List (Event ρ σ π) → Except Fault Ref → World ρ σ π → Prop) (w : World ρ σ π)
    (events : List (Event ρ σ π)) (reply : Except Fault Ref) (after : World ρ σ π) : Prop :=
  match scope with
  | .noScope => makes w events reply after
  | .singleton => World.Gets Unfolds id slot key makes w events reply after

section

variable {host : Host ρ σ π} {fuel : Nat} {id : InjectorId} {key : Key} {type : ValueType} {routine : ρ}
variable {r : Registration ρ} {w after : World ρ σ π} {events : List (Event ρ σ π)} {reply : Except Fault Ref}

theorem Host.producesInjected (hbase : r.base = .completed type routine)
    (h : (host.answer fuel (.produce id r.provider)).ComesToBy Unfolds w events reply after) :
    host.ProducesInjected id type routine r.stages w events reply after := by
  obtain ⟨base, stages, scope⟩ := r
  cases hbase
  obtain ⟨_, outcome, before, during, u, rfl, hinject, hfinishes⟩ := Registration.comesTo_provider h
  have hinject := Host.Injects.of_comesTo hinject
  cases outcome with
  | error fault =>
    cases hfinishes.eq_of_error
    exact .failed hinject hfinishes.told
  | ok object => exact .injected hinject hfinishes

theorem Host.givesInjected (hbase : r.base = .completed type routine) {slot : SlotId}
    (h : (host.answer fuel (.produce id (Registration.wrapped r.scope slot key r.provider))).ComesToBy
      Unfolds w events reply after) :
    r.scope.Gives id slot key (host.ProducesInjected id type routine r.stages) w events reply after := by
  cases hscope : r.scope with
  | noScope =>
    rw [hscope] at h
    exact host.producesInjected hbase h
  | singleton =>
    rw [hscope] at h
    refine (World.Gets.of_comesTo h).mono fun u during v hmade => ?_
    obtain ⟨_, hmade⟩ := hmade
    exact host.producesInjected hbase hmade

end

/-! ### Resolutions -/

/-- What a resolution comes to, alongside others; the rules are the ways that `Engine.resolve` can
go. -/
inductive Host.Resolves (host : Host ρ σ π) (id : InjectorId) (key : Key) (w : World ρ σ π) :
    List (Event ρ σ π) → Except Fault Ref → World ρ σ π → Prop
  /-- The thread is resolving the key already, and `World.pushKey` refuses. -/
  | refused {before later : List (Event ρ σ π)} {u after : World ρ σ π} {fault : Fault}
      (hbefore : w.Unfolds before u) (hpush : (u.pushKey key).1 = .error fault) (hlater : u.Unfolds later after) :
      Resolves host id key w (before ++ later) (.error fault) after
  /-- The key has no provider, by `World.providerOf`. -/
  | unbound {before later : List (Event ρ σ π)} {u after : World ρ σ π} {fault : Fault}
      (hbefore : w.Unfolds before u) (hfind : (u.providerOf id key).1 = .error fault)
      (hlater : u.Unfolds later after) :
      Resolves host id key w (before ++ later) (.error fault) after
  /-- The provider that the key has at one moment produces. -/
  | produced {fuel : Nat} {provider : Provider ρ} {before during later : List (Event ρ σ π)}
      {u v after : World ρ σ π} {reply : Except Fault Ref} (hbefore : w.Unfolds before u)
      (hfind : (u.providerOf id key).1 = .ok provider)
      (hmade : (host.answer fuel (.produce id provider)).ComesToBy Unfolds u during reply v)
      (hlater : v.Unfolds later after) :
      Resolves host id key w (before ++ (during ++ later)) reply after

theorem Host.Resolves.of_comesTo {host : Host ρ σ π} {fuel : Nat} {id : InjectorId} {key : Key}
    {w after : World ρ σ π} {events : List (Event ρ σ π)} {reply : Except Fault Ref}
    (h : (host.answer fuel (.resolve id key)).ComesToBy Unfolds w events reply after) :
    host.Resolves id key w events reply after := by
  cases fuel with
  | zero => exact absurd h Run.ComesToBy.not_halt
  | succ less =>
    obtain ⟨pushed, first, rest, u, rfl, hpush, hrest⟩ := Run.ComesToBy.bind h
    cases pushed with
    | error fault =>
      obtain ⟨before, later, v, rfl, hbefore, hfault, hlater⟩ := hpush.now
      cases hrest.pure
      rw [List.append_assoc]
      exact .refused hbefore hfault.symm (hlater.trans hrest.told)
    | ok _ =>
      obtain ⟨_, second, _, v, rfl, hnote, hrest⟩ := hrest.bind
      obtain ⟨found, third, last, x, rfl, hfound, hrest⟩ := hrest.bind
      obtain ⟨before, later, y, rfl, hbefore, hfind, hlater⟩ := hfound.now
      have hbegun := (hpush.told.trans hnote.told).trans hbefore
      -- in the end the key is taken off the stack
      have hend {outcome : Except Fault Ref} {events : List (Event ρ σ π)} {z : World ρ σ π}
          (h : (do
            Run.change (·.popKey)
            pure outcome : Run ρ σ π _).ComesToBy Unfolds z events reply after) :
          reply = outcome ∧ z.Unfolds events after := by
        obtain ⟨_, _, _, _, rfl, hpop, h⟩ := h.bind
        exact ⟨h.pure, hpop.told.trans h.told⟩
      cases found with
      | error fault =>
        obtain ⟨_, _, _, z, rfl, hpure, hrest⟩ := hrest.bind
        cases hpure.pure
        obtain ⟨rfl, hpassed⟩ := hend hrest
        have hresolves : host.Resolves id key w _ (.error fault) after :=
          .unbound hbegun hfind.symm (hlater.trans (hpure.told.trans hpassed))
        simpa only [List.append_assoc] using hresolves
      | ok provider =>
        obtain ⟨outcome, during, final, z, rfl, hmade, hrest⟩ := hrest.bind
        obtain ⟨rfl, hpassed⟩ := hend hrest
        have hresolves : host.Resolves id key w _ reply after :=
          .produced hbegun hfind.symm (hmade.before hlater) hpassed
        simpa only [List.append_assoc] using hresolves

/-! ### Keys that are bound to factories -/

namespace World

variable {w after : World ρ σ π} {id : InjectorId} {key : Key} {r : Registration ρ} {slot : SlotId}
variable {calls : List (Call ρ σ π)}

/-- What the key is registered to, and the slot of its wrapper, if that has one, by some view that
`Represents` the registry. -/
def Registers (w : World ρ σ π) (id : InjectorId) (key : Key) (r : Registration ρ) (slot : SlotId) : Prop :=
  ∃ view slots, w.Represents id view slots ∧ view key = some r ∧ slots key = slot

namespace Registers

theorem bind (hw : w.Registered) (hid : id.index < w.injectors.size) (key : Key) (p : Provider ρ)
    (scope : Scope) : ∃ slot, (w.bind id key p scope).Registers id key ⟨p, [], scope⟩ slot := by
  obtain ⟨view, slots, hrep⟩ := hw id hid
  obtain ⟨slots', hafter⟩ := (RegistryCall.effect_bind hrep key p scope).represents
  exact ⟨slots' key, _, slots', hafter, Function.update_self _ _ _, rfl⟩

theorem passes (h : w.Registers id key r slot) (hpasses : w.Passes calls after)
    (hbinds : ∀ call ∈ calls, ¬ call.action.Binds id key) :
    ∃ slot', after.Registers id key (r.after id key calls) slot' := by
  obtain ⟨view, slots, hrep, hview, _⟩ := h
  obtain ⟨view', slots', hafter, hkept⟩ := hpasses.represents hrep
  exact ⟨slots' key, view', slots', hafter, hkept key r hview hbinds, rfl⟩

theorem providerOf (h : w.Registers id key r slot) :
    w.providerOf id key = (.ok (Registration.wrapped r.scope slot key r.provider), w) := by
  obtain ⟨view, slots, hrep, hview, rfl⟩ := h
  exact hrep.providerOf_of_view hview

end Registers

end World

/-- What a resolution of a key comes to that is registered so, and whose factory has the members of
its values injected. The scope and the stages are those that the key has when its provider is looked
up. -/
inductive Host.ResolvesInjected (host : Host ρ σ π) (id : InjectorId) (key : Key) (type : ValueType)
    (routine : ρ) (r : Registration ρ) (w : World ρ σ π) :
    List (Event ρ σ π) → Except Fault Ref → World ρ σ π → Prop
  /-- The thread is resolving the key already. -/
  | refused {before later : List (Event ρ σ π)} {u after : World ρ σ π} {fault : Fault}
      (hbefore : w.Unfolds before u) (hpush : (u.pushKey key).1 = .error fault) (hlater : u.Unfolds later after) :
      ResolvesInjected host id key type routine r w (before ++ later) (.error fault) after
  | given {slot : SlotId} {before during later : List (Event ρ σ π)} {u v after : World ρ σ π}
      {reply : Except Fault Ref} (hbefore : w.Unfolds before u)
      (hregisters : u.Registers id key (r.after id key (Event.calls before)) slot)
      (hgiven : (r.after id key (Event.calls before)).scope.Gives id slot key
        (host.ProducesInjected id type routine (r.after id key (Event.calls before)).stages) u during reply v)
      (hlater : v.Unfolds later after) :
      ResolvesInjected host id key type routine r w (before ++ (during ++ later)) reply after

theorem Host.resolvesInjected {host : Host ρ σ π} {fuel : Nat} {id : InjectorId} {key : Key}
    {type : ValueType} {routine : ρ} {r : Registration ρ} {slot : SlotId} {w after : World ρ σ π}
    {events : List (Event ρ σ π)} {reply : Except Fault Ref} (hregisters : w.Registers id key r slot)
    (hbase : r.base = .completed type routine)
    (hbinds : ∀ call ∈ Event.calls events, ¬ call.action.Binds id key)
    (h : (host.answer fuel (.resolve id key)).ComesToBy Unfolds w events reply after) :
    host.ResolvesInjected id key type routine r w events reply after := by
  -- the key is registered at each moment until then, with what the calls so far have given it
  have hfound {before later : List (Event ρ σ π)} {u : World ρ σ π} (hevents : events = before ++ later)
      (hbefore : w.Unfolds before u) :
      ∃ slot', u.Registers id key (r.after id key (Event.calls before)) slot' := by
    refine hregisters.passes hbefore.passes fun call hcall => hbinds call ?_
    rw [hevents, Event.calls_append]
    exact List.mem_append_left _ hcall
  cases Host.Resolves.of_comesTo h with
  | refused hbefore hpush hlater => exact .refused hbefore hpush hlater
  | unbound hbefore hfind _ =>
    obtain ⟨_, hslot⟩ := hfound rfl hbefore
    rw [hslot.providerOf] at hfind
    cases hfind
  | produced hbefore hfind hmade hlater =>
    obtain ⟨_, hslot⟩ := hfound rfl hbefore
    rw [hslot.providerOf] at hfind
    cases hfind
    exact .given hbefore hslot (Host.givesInjected (r := r.after id key _) hbase hmade) hlater

/-! ### Empty slots -/

namespace World

variable {w after : World ρ σ π} {id : InjectorId} {key : Key} {slot : SlotId}

/-- The slot is empty, and a thread that is alone is let wait for the key by `awaitKey`. -/
structure Vacant (w : World ρ σ π) (id : InjectorId) (key : Key) (slot : SlotId) : Prop where
  room : slot.index < w.slots.size
  empty : w.slot slot = .empty
  granted : (w.awaitKey id key).1 = .ok ()

theorem producing_setWaits {graph : WaitGraph} (h : graph.producing.get? key = none) (w : World ρ σ π)
    (id : InjectorId) : ((w.setWaits id graph).injector id).waits.producing.get? key = none := by
  by_cases hid : id.index < w.injectors.size
  · rw [World.setWaits, w.injector_modifyInjector_self _ hid]
    exact h
  · simp [World.setWaits, World.modifyInjector, World.injector, hid]

/-- A production that is over stands in the way of no wait, as nobody is recorded under the key
then. -/
theorem awaitKey_finished (w : World ρ σ π) (id : InjectorId) (key : Key) (slot : SlotId) (kept : Slot) :
    ((((w.stopProducing id key).setSlot slot kept).stopAwaiting id key).awaitKey id key).1 = .ok () := by
  have hstopped : (((w.stopProducing id key).setSlot slot kept).injector id).waits.producing.get? key = none := by
    refine producing_setWaits ?_ w id
    simp [WaitGraph.stopProducing, Table.get?_erase]
  have hfinished : ((((w.stopProducing id key).setSlot slot kept).stopAwaiting id key).injector
      id).waits.producing.get? key = none := by
    refine producing_setWaits ?_ _ id
    unfold WaitGraph.stopAwaiting
    split <;> exact hstopped
  rw [awaitKey_of_unproduced hfinished]

/-- A wrapper whose slot is empty has its delegate produce, by `Host.run_fresh`, and keeps no fault:
then the slot is `Vacant` again. -/
theorem Vacant.run {host : Host ρ σ π} {fuel : Nat} {p : Provider ρ} {reply : Except Fault Ref}
    (h : w.Vacant id key slot)
    (hrun : (host.answer (fuel + 1) (.produce id (.singleton slot key key.type p))).run w = .ok (reply, after)) :
    ∃ made, (host.answer fuel (.produce id p)).run
        ((w.awaitKey id key).2.beginning id slot key key.type) = .ok (reply, made) ∧
      after = made.givenBack id slot key reply ∧
      after.slot slot = .keeping reply ∧ ∀ fault, reply = .error fault → after.Vacant id key slot := by
  have hawait : w.awaitKey id key = (.ok (), (w.awaitKey id key).2) := by
    rw [← h.granted]
  have hslot := slot_of_run_fresh h.empty h.room hawait hrun
  obtain ⟨_, hpasses⟩ := (host.accountable_answer _ _).passes hrun
  have hfresh := hrun
  change (host.production id (.singleton slot key key.type p) (fuel + 1)).run w = _ at hfresh
  rw [Host.run_fresh h.empty hawait] at hfresh
  cases hmade : (host.production id p fuel).run
      ((w.awaitKey id key).2.beginning id slot key key.type) with
  | error reason =>
    rw [hmade] at hfresh
    cases hfresh
  | ok made =>
    rw [hmade] at hfresh
    cases hfresh
    refine ⟨made.2, hmade, rfl, hslot, fun fault hfault => ?_⟩
    -- a fault is not kept, so there is room for the next attempt
    have hempty : Slot.keeping made.1 = .empty := by
      rw [hfault]
      rfl
    exact ⟨Nat.lt_of_lt_of_le h.room hpasses.room, hslot.trans hempty, awaitKey_finished _ _ _ _ _⟩

end World

/-! ### No value escapes half injected -/

/-- Wherever the members of a value are injected, that comes first: whatever the hooks do, and
whatever others do meanwhile. -/
structure Host.InjectsFirst (host : Host ρ σ π) : Prop where
  /-- What is answered to a request alone, it comes to alongside nobody. -/
  alone : ∀ fuel (request : Request ρ σ π) w reply after,
    (host.answer fuel request).run w = .ok (reply, after) →
      ∃ events, (host.answer fuel request).ComesToBy Unfolds w events reply after
  /-- An injection makes the value and runs the hooks that there are then, and does nothing else. -/
  steps : ∀ id type provider fuel w events rest v thread stack last after,
    (host.answer fuel (.produce id (.decorating provider [.memberInjection type]))).BecomesBy Unfolds
        w events rest v →
      rest.advance (v.switchTo thread stack) = .stepped last after →
        host.InjectionStep id type provider w events v after
  /-- A value of a factory is given away, or kept for later, once its members are injected. -/
  given : ∀ (r : Registration ρ) type routine id slot key fuel w events reply after,
    r.base = .completed type routine →
    (host.answer fuel (.produce id (Registration.wrapped r.scope slot key r.provider))).ComesToBy Unfolds
        w events reply after →
      r.scope.Gives id slot key (host.ProducesInjected id type routine r.stages) w events reply after
  /-- What such a provider has come to for a slot, it has come to by an injection that succeeded. -/
  kept : ∀ (r : Registration ρ) type routine id w events object,
    r.base = .completed type routine → host.CameTo id r.provider w events object →
      ∃ before during later u v, events = before ++ (during ++ later) ∧ w.Unfolds before u ∧
        host.ProducesInjected id type routine r.stages u during (.ok object) v
  /-- Alone, a singleton that keeps nothing runs its factory and then the hooks, and if these fail
  it keeps nothing, so that it does so again when it is asked next. -/
  retried : ∀ (r : Registration ρ) type routine id slot key fuel w reply after,
    r.base = .completed type routine → r.scope = .singleton → w.Vacant id key slot →
    (host.answer (fuel + 1) (.produce id (Registration.wrapped r.scope slot key r.provider))).run w =
        .ok (reply, after) →
      ∃ events made, host.ProducesInjected id type routine r.stages
          ((w.awaitKey id key).2.beginning id slot key key.type) events reply made ∧
        after = made.givenBack id slot key reply ∧
        after.slot slot = .keeping reply ∧ ∀ fault, reply = .error fault → after.Vacant id key slot
  /-- A value that was handed to a builder is given back once its members are injected. -/
  completing : ∀ id type object fuel w events reply after,
    (host.answer fuel (.produce id (.completing type object))).ComesToBy Unfolds w events reply after →
      host.Injects id type (.fixed object) w events reply after ∧ ∀ made, reply = .ok made → made = object
  /-- An entry that looks up a key resolves it. -/
  lookedUp : ∀ id key fuel w events reply after,
    (host.answer fuel (.produce id (.lookup key))).ComesToBy Unfolds w events reply after →
      ∃ less, (host.answer less (.resolve id key)).ComesToBy Unfolds w events reply after
  /-- Lists and maps take what is contributed to them, by `Collection.Follows`, objects that are
  added without a key under those of their numbers. -/
  taken : ∀ (c : Collection) (w : World ρ σ π) action,
    c.Follows w (action.perform w).2 (c.effect (action.perform w).2.numbering w action)
  /-- A list or a map is made, and holds an object, once all the entries have produced, by
  `Collection.Places`. -/
  placed : ∀ (c : Collection) place id fuel w events reply after,
    (host.answer fuel (.produce id (c.provider place))).ComesToBy Unfolds w events reply after →
      c.Places Unfolds host id place w events reply after

theorem Host.injectsFirst (host : Host ρ σ π) : host.InjectsFirst where
  alone _ _ _ _ _ hrun := Host.comesTo_of_run hrun
  steps _ _ _ _ w _ _ _ _ _ _ _ hbecomes hstep := by
    obtain ⟨_, hinjection⟩ := host.steps_injection w _ _ _ _ _ _ _ hbecomes hstep
    exact hinjection
  given _ _ _ _ _ _ _ _ _ _ _ hbase h := Host.givesInjected hbase h
  kept _ _ _ _ _ _ _ hbase h := by
    obtain ⟨_, before, during, later, u, v, hevents, hbefore, hmade⟩ := h
    exact ⟨before, during, later, u, v, hevents, hbefore, Host.producesInjected hbase hmade⟩
  retried r type routine id slot key fuel w reply after hbase hscope hvacant hrun := by
    rw [hscope] at hrun
    obtain ⟨made, hmade, hafter⟩ := hvacant.run hrun
    obtain ⟨events, hcomes⟩ := Host.comesTo_of_run hmade
    exact ⟨events, made, Host.producesInjected hbase hcomes, hafter⟩
  completing _ _ _ _ _ _ _ _ h := by
    have hinjects := Host.Injects.of_comesTo h
    refine ⟨hinjects, ?_⟩
    rintro made rfl
    exact hinjects.eq_of_fixed
  lookedUp id key fuel _ _ _ _ h := by
    cases fuel with
    | zero => exact absurd h Run.ComesToBy.not_halt
    | succ less => exact ⟨less, h⟩
  taken c w action := c.follows w action (World.numberedBy_numbering _)
  placed _ _ _ _ _ _ _ _ h := Collection.Places.of_comesTo h

/-- What an account of a run says of hooks and of slots. -/
structure World.Told (w : World ρ σ π) (events : List (Event ρ σ π)) (after : World ρ σ π) : Prop where
  /-- A hook is registered for later, after those that there are. -/
  hooks : ∀ id type, (after.injector id).hooksOf type =
    (w.injector id).hooksOf type ++ (Event.calls events).filterMap (·.hook? id type)
  /-- What is in a slot was there before, or has been kept there since. -/
  kept : ∀ slot object, after.slot slot = .filled object →
    w.slot slot = .filled object ∨ .kept slot object ∈ events

/-- No value escapes half injected. Every state of every run has an account by `World.Unfolds`,
alongside the events in it each thread is a computation, productions among them, and what is kept in
a slot was made for it in the run (`MadeFor`). Once a key is bound to a factory whose values have
their members injected, its resolutions give such values injected (`ResolvesInjected`), until it is
bound anew. -/
theorem no_half_injected_value_escapes (host : Host ρ σ π) {w : World ρ σ π} (hw : w.Registered)
    (fuel : Nat) (codes : List (Code ρ σ π α)) :
    let start := Threads.start w (codes.map (host.run fuel))
    (∀ t : Threads ρ σ π α, start.Reaches t → ∃ events, start.AccountedBy Unfolds events t ∧
      start.world.Vouches (host.MadeFor start.world) [] events t.world ∧
      ∀ (index : Nat) (thread : Thread ρ σ π α), start.threads[index]? = some thread → ∃ later,
        t.threads[index]? = some later ∧ thread.rest.BecomesBy Unfolds start.world events later.rest t.world) ∧
    (∀ (v : World ρ σ π) events after, v.Unfolds events after → v.Told events after) ∧
    (∀ t earlier v id key type routine scope later,
      start.AccountedBy Unfolds (earlier ++ .call ⟨.bind id key (.completed type routine) scope, v⟩ :: later) t →
      id.index < v.injectors.size → (∀ call ∈ Event.calls later, ¬ call.action.Binds id key) →
      ∀ less during reply after, (∀ call ∈ Event.calls during, ¬ call.action.Binds id key) →
        (host.answer less (.resolve id key)).ComesToBy Unfolds t.world during reply after →
          host.ResolvesInjected id key type routine
            (Registration.after ⟨.completed type routine, [], scope⟩ id key (Event.calls later))
            t.world during reply after) ∧
    host.InjectsFirst ∧
    ∀ id (name : Session.Name),
      (∀ addition : Session.Addition, addition.isOfValues = true →
        (Session.Script.addEntries id name.key name.kind.element addition).Asks Request.Completes) ∧
      ∀ step : Session.BuildMapStep, step.isOfValues = true → (step.run id name).Asks Request.Completes := by
  intro start
  refine ⟨fun t ht => ?_, fun v events after h => ⟨h.hooksOf, fun _ _ => h.kept⟩, ?_, host.injectsFirst,
    fun id name => ⟨fun _ => Session.Script.asks_addEntries id name, fun _ => Session.BuildMapStep.asks_run id name⟩⟩
  · obtain ⟨events, haccounted, hvouches⟩ := host.exists_vouched fuel w codes ht
    exact ⟨events, haccounted, hvouches, fun index thread => haccounted.becomes⟩
  · intro t earlier v id key type routine scope later haccounted hid hbinds less during reply after hspared h
    have hstart : start.world.Registered :=
      (World.Passes.of_sameStock (Threads.sameStock_start w _)).registered hw
    -- the run up to the binding of the key, and what has passed since
    have hpasses := haccounted.told.passes
    rw [Event.calls_append, Event.calls_call] at hpasses
    obtain ⟨hearlier, hlater⟩ := hpasses.split
    obtain ⟨_, hbound⟩ := World.Registers.bind (hearlier.registered hstart) hid key
      (.completed type routine) scope
    obtain ⟨_, hregisters⟩ := hbound.passes hlater hbinds
    exact Host.resolvesInjected hregisters rfl hspared h

/-- A turn in which an action is performed puts its call at the end of the account. -/
theorem Threads.AccountedBy.act {s t : Threads ρ σ π α} {events : List (Event ρ σ π)}
    (h : s.AccountedBy Unfolds events t) (index : Nat) (action : Action ρ σ π)
    (hstep : t.step index = .ok (t.turn index))
    (hworld : (t.turn index).world = (action.perform (t.seen index)).2) :
    s.AccountedBy Unfolds (events ++ [.call ⟨action, t.seen index⟩]) (t.turn index) := by
  have hseen : t.world.Quiet (t.seen index) := by
    unfold Threads.seen
    split
    · exact .switchTo _ _ _
    · exact .refl _
  refine h.step hstep ?_
  rw [hworld]
  exact (Unfolds.of_quiet hseen).call action

/-! ### Hooks that register others, and one that fails at first

The factory and the hooks of `gadgetHost` write down their numbers. The first hook registers the
third, each time that it runs, and the second fails the first time. -/

def gadgetType : ValueType := .plain "Gadget"

def gadget : Key := ⟨gadgetType, none⟩

def gadgetHost : Host Nat (List Nat) Unit where
  make number _ := do
    World.writeDown number
    let object ← Code.act (.allocate (.plain ()))
    pure (.ok object)
  stage _ _ object := pure (.ok object)
  hook number id _ := do
    let seen : List Nat ← Code.act .recall
    World.writeDown number
    match number with
    | 1 =>
      Code.act (.addHook id gadgetType 3)
      pure (.ok ())
    | 2 => if 2 ∈ seen then pure (.ok ()) else pure (.error (.custom .providerFailed "not yet"))
    | _ => pure (.ok ())
  kind _ := default
  imports _ := []
  configure _ _ := pure (.ok ())

def noGadget : World Nat (List Nat) Unit where
  injectors := #[{}]
  memory := []

theorem noGadget_registered : noGadget.Registered :=
  .of_empty (by simp [noGadget])

/-- The fourth hook is one of another type. -/
def gadgetCodes : List (Code Nat (List Nat) Unit Unit) :=
  [ do
      Code.act (.addHook ⟨0⟩ gadgetType 1)
      Code.act (.addHook ⟨0⟩ gadgetType 2)
      Code.act (.addHook ⟨0⟩ (.plain "Gear") 4)
      Code.act (.bind ⟨0⟩ gadget (.completed gadgetType 0) .singleton) ]

/-- The states from the start on, after so many turns. -/
def gadgetAfter (turns : Nat) : Threads Nat (List Nat) Unit Unit :=
  (List.replicate turns 0).foldl .turn (.start noGadget (gadgetCodes.map (gadgetHost.run 1)))

def gadgetEvents : List (Event Nat (List Nat) Unit) :=
  [.call ⟨.addHook ⟨0⟩ gadgetType 1, (gadgetAfter 0).seen 0⟩,
    .call ⟨.addHook ⟨0⟩ gadgetType 2, (gadgetAfter 1).seen 0⟩,
    .call ⟨.addHook ⟨0⟩ (.plain "Gear") 4, (gadgetAfter 2).seen 0⟩]

theorem gadget_accounted : (gadgetAfter 0).AccountedBy Unfolds
    (gadgetEvents ++
      .call ⟨.bind ⟨0⟩ gadget (.completed gadgetType 0) .singleton, (gadgetAfter 3).seen 0⟩ :: [])
    (gadgetAfter 4) := by
  have hstart : (gadgetAfter 0).AccountedBy Unfolds [] (gadgetAfter 0) := .refl
  have hfirst := hstart.act 0 (.addHook ⟨0⟩ gadgetType 1) rfl rfl
  have hsecond := hfirst.act 0 (.addHook ⟨0⟩ gadgetType 2) rfl rfl
  have hother := hsecond.act 0 (.addHook ⟨0⟩ (.plain "Gear") 4) rfl rfl
  exact hother.act 0 (.bind ⟨0⟩ gadget (.completed gadgetType 0) .singleton) rfl rfl

def boundGadget : Registration Nat := ⟨.completed gadgetType 0, [], .singleton⟩

/-- The wrapper of the key is asked alone. -/
def askGadget (w : World Nat (List Nat) Unit) :
    Except Halt (Except Fault Ref × World Nat (List Nat) Unit) :=
  (gadgetHost.answer 9 (.produce ⟨0⟩ (Registration.wrapped .singleton ⟨0⟩ gadget boundGadget.provider))).run w

/-- The world once it has been asked. -/
def askedGadget (w : World Nat (List Nat) Unit) : World Nat (List Nat) Unit :=
  match askGadget w with
  | .ok (_, after) => after
  | .error _ => w

theorem askGadget_eq {w : World Nat (List Nat) Unit} {reply : Except Fault Ref}
    (h : (askGadget w).map (·.1) = .ok reply) : askGadget w = .ok (reply, askedGadget w) := by
  unfold askedGadget
  cases hrun : askGadget w with
  | error reason =>
    rw [hrun] at h
    cases h
  | ok made =>
    rw [hrun] at h
    cases h
    rfl

def notYet : Fault := .custom .providerFailed "not yet"

def triedGadget : World Nat (List Nat) Unit := askedGadget (gadgetAfter 4).world

/-- The first resolution ends with the hook that fails, and nothing is kept. The next one runs the factory and
all hooks that there are by then, but for the one of the other type and the one that it registers itself. -/
theorem no_half_injected_value_escapes_of_gadget :
    noGadget.Registered ∧
      (∀ less during reply after, (∀ call ∈ Event.calls during, ¬ call.action.Binds ⟨0⟩ gadget) →
        (gadgetHost.answer less (.resolve ⟨0⟩ gadget)).ComesToBy Unfolds (gadgetAfter 4).world during reply after →
          gadgetHost.ResolvesInjected ⟨0⟩ gadget gadgetType 0 boundGadget (gadgetAfter 4).world during
            reply after) ∧
      (∃ events, World.Gets Unfolds ⟨0⟩ ⟨0⟩ gadget (gadgetHost.ProducesInjected ⟨0⟩ gadgetType 0 [])
        (gadgetAfter 4).world events (.error notYet) triedGadget) ∧
      triedGadget.memory = [0, 1, 2] ∧ triedGadget.slot ⟨0⟩ = .empty ∧
      (∃ events, World.Gets Unfolds ⟨0⟩ ⟨0⟩ gadget (gadgetHost.ProducesInjected ⟨0⟩ gadgetType 0 [])
        triedGadget events (.ok ⟨1⟩) (askedGadget triedGadget)) ∧
      (askedGadget triedGadget).memory = [0, 1, 2, 0, 1, 2, 3] ∧
      (askedGadget triedGadget).slot ⟨0⟩ = .filled ⟨1⟩ := by
  obtain ⟨-, -, hresolves, hfirst, -⟩ :=
    no_half_injected_value_escapes gadgetHost noGadget_registered 1 gadgetCodes
  have hresolves := hresolves _ _ _ _ _ _ _ _ _ gadget_accounted Nat.zero_lt_one (by simp)
  have hgets {w : World Nat (List Nat) Unit} {reply : Except Fault Ref}
      (h : (askGadget w).map (·.1) = .ok reply) :
      ∃ events, World.Gets Unfolds ⟨0⟩ ⟨0⟩ gadget (gadgetHost.ProducesInjected ⟨0⟩ gadgetType 0 []) w events reply
        (askedGadget w) := by
    obtain ⟨events, hcomes⟩ := hfirst.alone _ _ _ _ _ (askGadget_eq h)
    exact ⟨events, hfirst.given boundGadget gadgetType 0 _ _ _ _ _ _ _ _ rfl hcomes⟩
  exact ⟨noGadget_registered, hresolves, hgets (by decide +kernel), by decide +kernel, by decide +kernel,
    hgets (by decide +kernel), by decide +kernel, by decide +kernel⟩

end Wiring
