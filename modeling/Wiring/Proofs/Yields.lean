import Wiring.Engine.Fuel

/-!
# What a part of the engine comes to

`Host.Yields` says what a part of the engine comes to when it runs alone and has enough fuel,
whatever that is. Its rules follow the shape of the parts, so what a resolution comes to is put
together from what its steps and the requests on the way come to, and no fuel is counted
(`Yields.resolve_of_bound`, `Yields.single_of_empty`).

`World.beginning` and `World.givenBack` are the worlds before and after the work of the delegate of
a singleton, which all accounts of singletons refer to.

* **`Code.Performs`** — code that only acts, and what it comes to without any engine.
* **`Yields.of_answer`** — a run with some fuel is enough to know what comes of a request with more.
-/

namespace Wiring

variable {ρ σ π α β : Type}

namespace Code

/-- Resolves keys one after the other, by `Request.resolve`, and gives what each came to. -/
def resolveEach (id : InjectorId) : List Key → Code ρ σ π (List (Except Fault Ref))
  | [] => pure []
  | key :: rest => do
    let outcome ← Code.send (.resolve id key)
    let outcomes ← resolveEach id rest
    pure (outcome :: outcomes)

/-- Code that goes on with the result of other code by `Code.andThen` does the one and then the
other. -/
theorem run_andThen (answer : (request : Request ρ σ π) → Run ρ σ π request.Answer)
    (code : Code ρ σ π β) (f : β → Code ρ σ π α) (w : World ρ σ π) :
    ((code.andThen f).run answer).run w =
      (code.run answer >>= fun b => (f b).run answer).run w := by
  induction code generalizing w with
  | done result => rfl
  | ask request next ih =>
    show (answer request >>= fun reply => ((next reply).andThen f).run answer).run w =
      (answer request >>= (fun reply => (next reply).run answer) >>=
        fun b => (f b).run answer).run w
    rw [Run.run_assoc, Run.run_bind, Run.run_bind]
    cases (answer request).run w with
    | error reason => rfl
    | ok p => exact ih p.1 p.2

end Code

/-- With enough fuel the part, run alone in `w`, comes to `a`, and the world is `after` then, by
`Run.run`. -/
def Host.Yields (host : Host ρ σ π)
    (part : ((request : Request ρ σ π) → Run ρ σ π request.Answer) → Run ρ σ π α)
    (w : World ρ σ π) (a : α) (after : World ρ σ π) : Prop :=
  ∃ enough, ∀ fuel, enough ≤ fuel → (part (host.answer fuel)).run w = .ok (a, after)

/-- The code makes no request but for actions, each done by `Action.perform`, and comes to `a`
so. -/
inductive Code.Performs : Code ρ σ π α → World ρ σ π → α → World ρ σ π → Prop
  | done (a : α) (w : World ρ σ π) : Performs (.done a) w a w
  | act {action : Action ρ σ π} {next : action.Answer → Code ρ σ π α} {w after : World ρ σ π} {a : α}
      (h : Performs (next (action.perform w).1) (action.perform w).2 a after) :
      Performs (.ask (.act action) next) w a after

theorem Engine.run_takeSlot_of_empty {w : World ρ σ π} {slot : SlotId} (h : w.slot slot = .empty) :
    (Engine.takeSlot slot).run w = .ok (none, w.setSlot slot .busy) := by
  simp only [Engine.takeSlot, Run.run, h]

/-- What a slot is given back with: the object that the production came to, or `Slot.empty` after a
fault. -/
def Slot.keeping : Except Fault Ref → Slot
  | .ok object => .filled object
  | .error _ => .empty

namespace World

/-- The world in which `Engine.initialise` asks the delegate of a singleton to produce: the slot has been
taken by `Engine.takeSlot`, and `startProducing` has recorded the running thread under the key. -/
def beginning (w : World ρ σ π) (id : InjectorId) (slot : SlotId) (key : Key) (type : ValueType) :
    World ρ σ π :=
  ((w.setSlot slot .busy).startProducing id key).note (.creatingSingleton slot type)

/-- The world in which `Engine.await` is over, if the delegate has left `made` and come to the outcome:
the slot has been given back with `Slot.keeping`, and the thread neither produces nor waits. -/
def givenBack (made : World ρ σ π) (id : InjectorId) (slot : SlotId) (key : Key)
    (outcome : Except Fault Ref) : World ρ σ π :=
  ((made.stopProducing id key).setSlot slot (.keeping outcome)).stopAwaiting id key

end World

namespace Host.Yields

variable {host : Host ρ σ π} {w between after : World ρ σ π} {a : α} {b : β}
variable {id : InjectorId} {key : Key}

theorem pure (a : α) (w : World ρ σ π) :
    host.Yields (fun _ => (Pure.pure a : Run ρ σ π α)) w a w :=
  ⟨0, fun _ _ => rfl⟩

theorem now {f : World ρ σ π → α × World ρ σ π} (h : f w = (a, after)) :
    host.Yields (fun _ => Run.now f) w a after :=
  ⟨0, fun _ _ => congrArg Except.ok h⟩

theorem change (f : World ρ σ π → World ρ σ π) (w : World ρ σ π) :
    host.Yields (fun _ => Run.change f) w () (f w) :=
  ⟨0, fun _ _ => rfl⟩

theorem step {take : World ρ σ π → Except Halt (α × World ρ σ π)} (h : take w = .ok (a, after)) :
    host.Yields (fun _ => .step take) w a after :=
  ⟨0, fun _ _ => h⟩

theorem bind {first : ((request : Request ρ σ π) → Run ρ σ π request.Answer) → Run ρ σ π β}
    {rest : ((request : Request ρ σ π) → Run ρ σ π request.Answer) → β → Run ρ σ π α}
    (hfirst : host.Yields first w b between)
    (hrest : host.Yields (fun answer => rest answer b) between a after) :
    host.Yields (fun answer => first answer >>= rest answer) w a after := by
  obtain ⟨m, hm⟩ := hfirst
  obtain ⟨n, hn⟩ := hrest
  refine ⟨max m n, fun fuel hfuel => ?_⟩
  rw [Run.run_bind, hm fuel (by omega)]
  exact hn fuel (by omega)

/-- A request is carried out with one unit of fuel less, as `Engine.step` has it. -/
theorem of_step {request : Request ρ σ π} {a : request.Answer}
    {part : ((request : Request ρ σ π) → Run ρ σ π request.Answer) → Run ρ σ π request.Answer}
    (hpart : ∀ fuel answer, Engine.step host fuel answer request = part answer)
    (h : host.Yields part w a after) :
    host.Yields (fun answer => answer request) w a after := by
  obtain ⟨enough, h⟩ := h
  refine ⟨enough + 1, fun fuel hfuel => ?_⟩
  obtain ⟨less, rfl⟩ : ∃ less, fuel = less + 1 := ⟨fuel - 1, by omega⟩
  show (Engine.step host less (host.answer less) request).run w = .ok (a, after)
  rw [hpart]
  exact h less (by omega)

theorem act (action : Action ρ σ π) (w : World ρ σ π) :
    host.Yields (fun answer => answer (.act action)) w (action.perform w).1 (action.perform w).2 :=
  of_step (fun _ _ => rfl) (now rfl)

theorem resolve {outcome : Except Fault Ref}
    (h : host.Yields (fun answer => Engine.resolve answer id key) w outcome after) :
    host.Yields (fun answer => answer (.resolve id key)) w outcome after :=
  of_step (fun _ _ => rfl) h

theorem produce {provider : Provider ρ} {outcome : Except Fault Ref}
    (h : host.Yields (fun answer => Engine.produce host answer id provider) w outcome after) :
    host.Yields (fun answer => answer (.produce id provider)) w outcome after :=
  of_step (fun _ _ => rfl) h

theorem injectMembers {type : ValueType} {object : Ref} {outcome : Except Fault Unit}
    (h : host.Yields (fun answer => Engine.injectMembers host answer id type object) w outcome
      after) :
    host.Yields (fun answer => answer (.injectMembers id type object)) w outcome after :=
  of_step (fun _ _ => rfl) h

theorem install {module : ρ} {outcome : Except Fault Unit}
    (h : host.Yields (fun answer => Engine.install host answer id module) w outcome after) :
    host.Yields (fun answer => answer (.install id module)) w outcome after :=
  of_step (fun _ _ => rfl) h

/-- What a request comes to with some fuel, by `Host.answer`, it comes to. -/
theorem of_answer {request : Request ρ σ π} {reply : request.Answer} (fuel : Nat)
    (h : (host.answer fuel request).run w = .ok (reply, after)) :
    host.Yields (fun answer => answer request) w reply after :=
  ⟨fuel, fun _ hfuel => Host.answer_of_le hfuel h⟩

theorem unique
    {part : ((request : Request ρ σ π) → Run ρ σ π request.Answer) → Run ρ σ π α}
    {other : α} {last : World ρ σ π} (h : host.Yields part w a after)
    (hother : host.Yields part w other last) : a = other ∧ after = last := by
  obtain ⟨m, hm⟩ := h
  obtain ⟨n, hn⟩ := hother
  have hboth := (hm (max m n) (by omega)).symm.trans (hn (max m n) (by omega))
  exact Prod.mk.inj (Except.ok.inj hboth)

theorem of_performs {code : Code ρ σ π α} (h : code.Performs w a after) :
    host.Yields (fun answer => code.run answer) w a after := by
  induction h with
  | done a w => exact pure a w
  | act _ ih => exact bind (act _ _) ih

theorem andThen {code : Code ρ σ π β} {f : β → Code ρ σ π α}
    (hcode : host.Yields (fun answer => code.run answer) w b between)
    (hf : host.Yields (fun answer => (f b).run answer) between a after) :
    host.Yields (fun answer => (code.andThen f).run answer) w a after := by
  have hboth : host.Yields (fun answer => code.run answer >>= fun b => (f b).run answer) w a after :=
    bind hcode hf
  obtain ⟨enough, h⟩ := hboth
  refine ⟨enough, fun fuel hfuel => ?_⟩
  rw [Code.run_andThen]
  exact h fuel hfuel

/-! ### Keys -/

variable {pushed made : World ρ σ π} {fault : Fault} {provider : Provider ρ}
variable {outcome : Except Fault Ref}

/-- A key that is on the stack is refused by `World.pushKey`. -/
theorem resolve_of_refused (hpush : w.pushKey key = (.error fault, after)) :
    host.Yields (fun answer => answer (.resolve id key)) w (.error fault) after :=
  .resolve (.bind (.now hpush) (.pure _ _))

theorem resolve_of_unbound (hpush : w.pushKey key = (.ok (), pushed))
    (hprovider : (pushed.note (.resolving key)).providerOf id key = (.error fault, after)) :
    host.Yields (fun answer => answer (.resolve id key)) w (.error fault) after.popKey :=
  .resolve (.bind (.now hpush) (.bind (.change _ _) (.bind (.now hprovider)
    (.bind (.pure _ _) (.bind (.change _ _) (.pure _ _))))))

/-- Otherwise the provider that `World.providerOf` finds produces, with the key on the stack. -/
theorem resolve_of_bound (hpush : w.pushKey key = (.ok (), pushed))
    (hprovider : (pushed.note (.resolving key)).providerOf id key =
      (.ok provider, pushed.note (.resolving key)))
    (hproduce : host.Yields (fun answer => answer (.produce id provider))
      (pushed.note (.resolving key)) outcome made) :
    host.Yields (fun answer => answer (.resolve id key)) w outcome made.popKey :=
  .resolve (.bind (.now hpush) (.bind (.change _ _) (.bind (.now hprovider)
    (.bind hproduce (.bind (.change _ _) (.pure _ _))))))

/-! ### Singletons -/

variable {slot : SlotId} {type : ValueType} {object : Ref}

theorem single_of_filled (hslot : w.slot slot = .filled object) :
    host.Yields (fun answer => Engine.single answer id slot key type provider) w (.ok object) w := by
  have hread : (w.slot slot, w) = (.filled object, w) := by rw [hslot]
  exact .bind (.now hread) (.pure _ w)

/-- A singleton whose slot is empty takes it, its delegate produces in `World.beginning`, and the
slot is given back by `World.givenBack`. -/
theorem single_of_empty (hslot : w.slot slot = .empty) (hawait : w.awaitKey id key = (.ok (), between))
    (hkept : between.slot slot = .empty)
    (hproduce : host.Yields (fun answer => answer (.produce id provider))
      (between.beginning id slot key type) outcome made) :
    host.Yields (fun answer => Engine.single answer id slot key type provider) w outcome
      (made.givenBack id slot key outcome) := by
  have hread : (w.slot slot, w) = (.empty, w) := by rw [hslot]
  have htake : host.Yields (fun _ => Engine.takeSlot slot) between none
      (between.setSlot slot .busy) := .step (Engine.run_takeSlot_of_empty hkept)
  have hinitialise : host.Yields (fun answer => Engine.initialise answer id slot key type provider)
      (between.setSlot slot .busy) outcome ((made.stopProducing id key).setSlot slot (.keeping outcome)) := by
    refine .bind (.change _ _) (.bind (.change _ _) (.bind hproduce (.bind (.change _ _) ?_)))
    cases outcome with
    | ok _ => exact .bind (.change _ _) (.pure _ _)
    | error _ => exact .bind (.change _ _) (.pure _ _)
  exact .bind (.now hread) (.bind (.now hawait)
    (.bind (.bind htake hinitialise) (.bind (.change _ _) (.pure _ _))))

end Host.Yields

end Wiring
