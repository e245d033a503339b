import Wiring.Proofs.Balance

/-!
# A wrapper that is asked while its delegate is at work

The delegate of a singleton never begins a second time before it has come to an end, whatever the
host's code does on the way (`reentry_outcomes`). But whether a get on a wrapper is refused while
the delegate is at work depends on the injector that it is given. The waits are looked up in that
injector, under the key of the wrapper: if the key is in production there, in particular if the
delegate was given the same injector, the get is refused as a cycle. With any other injector there
is no sign of the production; the get waits for a slot that the waiting thread itself has taken, and
nothing follows (`not_refusesReentry`).

* **`ReentryOutcomes`** — no delegate begins while it is at work; a get on its wrapper is refused,
  or waits for ever.
* **`Host.Tells.get_of_refused`** and **`Host.Tells.get_of_blocked`** — what follows such a get in
  the moments of a run.
-/

namespace Wiring

variable {ρ σ π α : Type}

/-- The delegates at work by `Frame.making`, each with its injector, the slot of the singleton, and
the key under which the production is recorded. -/
def Frame.makings (F : List (Frame ρ)) : List (InjectorId × SlotId × Key) :=
  F.filterMap fun
    | .making id slot key => some (id, slot, key)
    | _ => none

theorem Frame.mem_makings {F : List (Frame ρ)} {id : InjectorId} {slot : SlotId} {key : Key} :
    (id, slot, key) ∈ Frame.makings F ↔ .making id slot key ∈ F := by
  rw [Frame.makings, List.mem_filterMap]
  constructor
  · rintro ⟨f, hf, heq⟩
    cases f with
    | making other place name =>
      cases heq
      exact hf
    | _ => cases heq
  · exact fun hf => ⟨_, hf, rfl⟩

/-! ### What follows a get on a wrapper whose slot is taken -/

namespace Script

variable {answer : (request : Request ρ σ π) → Run ρ σ π request.Answer}
variable {within : Request ρ σ π → World ρ σ π → List (Moment ρ σ π)}
variable {id : InjectorId} {slot : SlotId} {key : Key} {type : ValueType} {delegate : Provider ρ}
variable {v u : World ρ σ π} {fault : Fault}

theorem moments_single_of_refused (hslot : v.slot slot = .busy)
    (hawait : v.awaitKey id key = (.error fault, u)) :
    (single id slot key type delegate).moments answer within v = [] := by
  rw [single, moments_now_bind, hslot]
  show (await id slot key type delegate).moments answer within v = []
  rw [await, moments_now_bind, hawait]
  rfl

theorem run_single_of_refused (hslot : v.slot slot = .busy)
    (hawait : v.awaitKey id key = (.error fault, u)) :
    ((single id slot key type delegate).toRun answer).run v = .ok (.error fault, u) := by
  rw [toRun_single]
  simp only [Engine.single, Engine.await, Run.run_bind, Run.run_now, Except.bind, hslot, hawait]
  rfl

theorem moments_single_of_blocked (hslot : v.slot slot = .busy)
    (hawait : v.awaitKey id key = (.ok (), u)) :
    (single id slot key type delegate).moments answer within v = [] := by
  have hkept : u.slot slot = .busy := (World.slot_of_awaitKey hawait slot).trans hslot
  rw [single, moments_now_bind, hslot]
  show (await id slot key type delegate).moments answer within v = []
  rw [await, moments_now_bind, hawait]
  show (takeOrMake id slot key type delegate).moments answer within u ++
    Moment.following (((takeOrMake id slot key type delegate).toRun answer).run u) _ = []
  rw [moments_takeOrMake_of_busy hkept, run_takeOrMake_of_busy hkept]
  rfl

theorem run_single_of_blocked (hslot : v.slot slot = .busy)
    (hawait : v.awaitKey id key = (.ok (), u)) :
    ((single id slot key type delegate).toRun answer).run v = .error .blocked := by
  have hkept : u.slot slot = .busy := (World.slot_of_awaitKey hawait slot).trans hslot
  have htake : (Engine.takeOrMake answer id slot key type delegate).run u = .error .blocked := by
    rw [← toRun_takeOrMake]
    exact run_takeOrMake_of_busy hkept
  rw [toRun_single]
  simp only [Engine.single, Engine.await, Run.run_bind, Run.run_now, Except.bind, hslot, hawait, htake]

end Script

namespace Host.Tells

variable {host : Host ρ σ π} {moments earlier later : List (Moment ρ σ π)} {ended : Prop}
variable {id : InjectorId} {slot : SlotId} {key : Key} {type : ValueType} {delegate : Provider ρ}
variable {v u : World ρ σ π} {fault : Fault}

theorem after_get (h : host.Tells moments ended)
    (hmoments : moments = earlier ++ .asked (.get id slot key type delegate) v :: later) :
    ∃ fuel rest, later =
      (Script.single id slot key type delegate).moments (host.answer fuel) (host.moments fuel) v ++
        Moment.following (((Script.single id slot key type delegate).toRun (host.answer fuel)).run v)
          (fun reply after => [.answered (.get id slot key type delegate) v reply after]) ++ rest ∧
      ∀ reason, ((Script.single id slot key type delegate).toRun (host.answer fuel)).run v =
        .error reason → rest = [] :=
  h.after_asked hmoments

theorem get_of_refused (h : host.Tells moments ended)
    (hmoments : moments = earlier ++ .asked (.get id slot key type delegate) v :: later)
    (hslot : v.slot slot = .busy) (hawait : v.awaitKey id key = (.error fault, u)) :
    ∃ after rest,
      later = .answered (.get id slot key type delegate) v (.error fault) after :: rest := by
  obtain ⟨fuel, rest, hlater, -⟩ := h.after_get hmoments
  rw [Script.moments_single_of_refused hslot hawait, Script.run_single_of_refused hslot hawait]
    at hlater
  exact ⟨u, rest, hlater⟩

theorem get_of_blocked (h : host.Tells moments ended)
    (hmoments : moments = earlier ++ .asked (.get id slot key type delegate) v :: later)
    (hslot : v.slot slot = .busy) (hawait : v.awaitKey id key = (.ok (), u)) : later = [] := by
  obtain ⟨fuel, rest, hlater, hhalts⟩ := h.after_get hmoments
  rw [Script.moments_single_of_blocked hslot hawait,
    Script.run_single_of_blocked hslot hawait] at hlater
  rw [hlater, hhalts .blocked (Script.run_single_of_blocked hslot hawait)]
  rfl

end Host.Tells

/-! ### What becomes of such a get -/

/-- What the moments of a run tell of singletons whose delegates are at work, by `Frame.makings` of
`Moment.inProgress`. -/
structure ReentryOutcomes (host : Host ρ σ π) (moments : List (Moment ρ σ π)) : Prop where
  /-- A delegate that is at work does not begin again, in a moment `Moment.begun` with its slot. -/
  apart : ∀ {earlier slot later}, moments = earlier ++ .begun slot :: later →
    ∀ id key, (id, slot, key) ∉ Frame.makings (Moment.inProgress [] earlier)
  /-- A get on the wrapper is refused as a cycle by `World.awaitKey` if its key is in production
  with the injector that the get is given. -/
  refused : ∀ {earlier id slot key type delegate v later other name place},
    moments = earlier ++ .asked (.get id slot key type delegate) v :: later →
    (other, slot, name) ∈ Frame.makings (Moment.inProgress [] earlier) →
    (id, place, key) ∈ Frame.makings (Moment.inProgress [] earlier) →
    ∃ after rest, later =
      .answered (.get id slot key type delegate) v (.error (.cyclicBinding [key, key])) after :: rest
  /-- Otherwise it waits for ever, whatever the fuel of `Host.answer`, and the run does not go
  on. -/
  blocked : ∀ {earlier id slot key type delegate v later other name},
    moments = earlier ++ .asked (.get id slot key type delegate) v :: later →
    (other, slot, name) ∈ Frame.makings (Moment.inProgress [] earlier) →
    (∀ place, (id, place, key) ∉ Frame.makings (Moment.inProgress [] earlier)) →
    later = [] ∧ ∀ fuel, (host.answer (fuel + 1) (.get id slot key type delegate)).run v = .error .blocked

/-- In every run on one thread no delegate is entered again while it is at work: a get on its
wrapper is refused, or waits for ever. What is in progress is on record by `Host.course_fits`. -/
theorem reentry_outcomes (host : Host ρ σ π) (fuel : Nat) (code : Code ρ σ π α) (w : World ρ σ π)
    (hidle : w.Idle) (hsound : ∀ m ∈ host.course fuel code w, m.Sound) :
    ReentryOutcomes host (host.course fuel code w) := by
  have horderly : Moment.Along (Moment.Orderly False) [] (host.course fuel code w) :=
    Moment.along_of_forall fun _ m hm => ⟨hsound m hm, False.elim⟩
  have hfits := host.course_fits fuel code hidle horderly
  have htells := host.course_tells fuel code w
  generalize host.course fuel code w = moments at hfits htells
  refine ⟨?apart, ?refused, ?blocked⟩
  case apart =>
    intro earlier slot later hmoments id key hmem
    exact hfits.at hmoments id key (Frame.mem_makings.1 hmem)
  case refused =>
    intro earlier id slot key type delegate v later other name place hmoments hmaking hmade
    have hrecords : w.Records False (Moment.inProgress [] earlier) v := hfits.at hmoments
    have hbusy := hrecords.busy other slot name (Frame.mem_makings.1 hmaking)
    have hkey : key ∈ Frame.made id (Moment.inProgress [] earlier) :=
      Frame.mem_made.2 ⟨place, Frame.mem_makings.1 hmade⟩
    exact htells.get_of_refused hmoments hbusy (hrecords.awaitKey_of_made hkey)
  case blocked =>
    intro earlier id slot key type delegate v later other name hmoments hmaking hnone
    have hrecords : w.Records False (Moment.inProgress [] earlier) v := hfits.at hmoments
    have hbusy := hrecords.busy other slot name (Frame.mem_makings.1 hmaking)
    -- nothing of this key is being made, so there is nothing to refuse
    have hkey : key ∉ Frame.made id (Moment.inProgress [] earlier) := by
      intro hmade
      obtain ⟨place, hplace⟩ := Frame.mem_made.1 hmade
      exact hnone place (Frame.mem_makings.2 hplace)
    have hawait := hrecords.awaitKey_of_not_made hkey
    refine ⟨htells.get_of_blocked hmoments hbusy hawait, fun fuel => ?_⟩
    show (Engine.single (host.answer fuel) id slot key type delegate).run v = _
    rw [← Script.toRun_single]
    exact Script.run_single_of_blocked hbusy hawait

/-! ### A wrapper that another injector has under a key of its own -/

/-- A get on a wrapper whose delegate is at work, by `Frame.makings`, is refused as a cycle. -/
def RefusesReentry (moments : List (Moment ρ σ π)) : Prop :=
  ∀ {earlier id slot key type delegate v later other name},
    moments = earlier ++ .asked (.get id slot key type delegate) v :: later →
    (other, slot, name) ∈ Frame.makings (Moment.inProgress [] earlier) →
    ∃ chain after rest, later =
      .answered (.get id slot key type delegate) v (.error (.cyclicBinding chain)) after :: rest

def inner : Key := ⟨.plain "Crossed", some (.text "inner")⟩

def outer : Key := ⟨.plain "Crossed", some (.text "outer")⟩

/-- The factory asks its own injector for the key that it is run for, takes no notice of the fault,
and asks the injector that was made second for a key that leads back to it. -/
def crossedHost : Host Unit Unit Unit where
  make _ id := do
    match ← Code.act (.provider id inner) with
    | .error _ => pure ()
    | .ok wrapper => let _ ← Code.send (.produce id wrapper)
    Code.send (.resolve ⟨1⟩ outer)
  stage _ _ object := pure (.ok object)
  hook _ _ _ := pure (.ok ())
  kind _ := default
  imports _ := []
  configure _ _ := pure (.ok ())

/-- The wrapper that the first injector of `crossedHost` has for the one key is bound in the second
to the other. -/
def crossedCode : Code Unit Unit Unit Unit := do
  let first ← Code.act .newInjector
  let second ← Code.act .newInjector
  let _ ← Code.act (.bind first inner (.factory (.plain "Crossed") ()) .singleton)
  match ← Code.act (.provider first inner) with
  | .error _ => pure ()
  | .ok wrapper => Code.act (.bind second outer wrapper .noScope)
  let _ ← Code.send (.resolve first inner)

def crossedCourse : List (Moment Unit Unit Unit) :=
  crossedHost.course 12 crossedCode { memory := () }

/-- The computation is left waiting for somebody else, with `Halt.blocked`. -/
def Halt.leftWaiting : Except Halt α → Bool
  | .error .blocked => true
  | _ => false

/-- The injector, the slot and the key of a get on a wrapper, a `Provider.singleton`. -/
def Moment.get? : Moment ρ σ π → Option (InjectorId × SlotId × Key)
  | .asked (.produce id (.singleton slot key _ _)) _ => some (id, slot, key)
  | _ => none

theorem Moment.eq_of_get? {m : Moment ρ σ π} {id : InjectorId} {slot : SlotId} {key : Key}
    (h : m.get? = some (id, slot, key)) :
    ∃ type delegate v, m = .asked (.get id slot key type delegate) v := by
  cases m with
  | asked request v =>
    cases request with
    | produce other provider =>
      cases provider with
      | singleton place name type delegate =>
        cases h
        exact ⟨type, delegate, v, rfl⟩
      | _ => cases h
    | _ => cases h
  | _ => cases h

/-- The get with the delegate's own injector is refused; the last one of `crossedCode`, with the
second injector, is not answered, and the run is left waiting; so `RefusesReentry` fails. -/
theorem not_refusesReentry :
    ({ memory := () } : World Unit Unit Unit).Idle ∧ (∀ m ∈ crossedCourse, m.Sound) ∧
      Halt.leftWaiting ((crossedHost.run 12 crossedCode).run { memory := () }) = true ∧
      ¬ RefusesReentry crossedCourse := by
  refine ⟨fun _ => rfl, by decide +kernel, by decide +kernel, fun hrefuses => ?_⟩
  have hlast : crossedCourse.getLast?.bind Moment.get? = some (⟨1⟩, ⟨0⟩, inner) := by decide +kernel
  have hmaking : (⟨0⟩, ⟨0⟩, inner) ∈ Frame.makings (Moment.inProgress [] crossedCourse.dropLast) := by
    decide +kernel
  obtain ⟨m, hm, hget⟩ := Option.bind_eq_some_iff.1 hlast
  obtain ⟨type, delegate, v, rfl⟩ := Moment.eq_of_get? hget
  obtain ⟨earlier, hcourse⟩ := List.getLast?_eq_some_iff.1 hm
  rw [hcourse, List.dropLast_concat] at hmaking
  obtain ⟨chain, after, rest, hnone⟩ := hrefuses hcourse hmaking
  cases hnone

theorem reentry_outcomes_of_crossed :
    ({ memory := () } : World Unit Unit Unit).Idle ∧ (∀ m ∈ crossedCourse, m.Sound) ∧
      crossedCourse.filterMap Moment.get? = [(⟨0⟩, ⟨0⟩, inner), (⟨0⟩, ⟨0⟩, inner), (⟨1⟩, ⟨0⟩, inner)] ∧
      ReentryOutcomes crossedHost crossedCourse := by
  have hidle : ({ memory := () } : World Unit Unit Unit).Idle := fun _ => rfl
  have hsound : ∀ m ∈ crossedCourse, m.Sound := by decide +kernel
  exact ⟨hidle, hsound, by decide +kernel, reentry_outcomes _ _ _ _ hidle hsound⟩

end Wiring
