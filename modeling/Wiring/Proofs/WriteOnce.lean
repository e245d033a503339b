import Wiring.Proofs.RunTrails
import Wiring.Proofs.WorkingSingletons

/-!
# Singletons are written once

In every run on one thread the delegate of a singleton succeeds once at most, and from then on its
wrapper gives the object that came of it, whatever has become of the binding that the wrapper was
made for. A delegate that fails leaves its slot empty, and then the next get runs it again unless
the key is in production. So between two operations that rewrap a key (`Request.Rewraps`), all
resolutions of it that succeed come to one object (`singleton_write_once`).

Nothing is supposed of what factories, stages and hooks do, and it does not matter with which
injectors a wrapper is used: where a get would wait for a delegate that waits for it, the run halts,
and the moments up to there are judged.

* **`WritesOnce`** — the five things that are said of the moments of a run.
* **`Trail.eq_of_answered`** — two values of one slot are one object; `Trail.binding_between` is for
  the binding of a key.
* **`World.Wrapped.providerOf`** — the wrapper that a key resolves to is that of its binding.
-/

namespace Wiring

variable {ρ σ π α : Type}

/-- A get on the wrapper of a singleton: `Request.produce` of a `Provider.singleton`. -/
abbrev Request.get (id : InjectorId) (slot : SlotId) (key : Key) (type : ValueType)
    (delegate : Provider ρ) : Request ρ σ π :=
  .produce id (.singleton slot key type delegate)

/-- What the moments of a run tell of singletons, each a `Moment` of `Host.course`. -/
structure WritesOnce (moments : List (Moment ρ σ π)) : Prop where
  /-- After a run of a delegate has succeeded, no other begins or ends: there is no `Moment.begun`
  or `Moment.ended` of its slot. -/
  once : ∀ {slot object earlier later}, moments = earlier ++ .ended slot (.ok object) :: later →
    .begun slot ∉ later ∧ ∀ outcome, .ended slot outcome ∉ later
  /-- After it each `Request.get` on the wrapper is answered at once, with the object that came of
  it. -/
  kept : ∀ {slot object earlier between id key type delegate v later},
    moments = earlier ++ .ended slot (.ok object) ::
      (between ++ .asked (.get id slot key type delegate) v :: later) →
    ∃ rest, later = .answered (.get id slot key type delegate) v (.ok object) v :: rest
  /-- After a run of a delegate has failed, the slot is `Slot.empty` until another begins. -/
  released : ∀ {slot fault earlier between request v later},
    moments = earlier ++ .ended slot (.error fault) :: (between ++ .asked request v :: later) →
    .begun slot ∉ between → v.slot slot = .empty
  /-- After it the next `Request.get` while nothing is in production under the key runs the
  delegate. -/
  retried : ∀ {slot fault earlier between id key type delegate v later},
    moments = earlier ++ .ended slot (.error fault) ::
      (between ++ .asked (.get id slot key type delegate) v :: later) →
    .begun slot ∉ between → (v.injector id).waits.producing.get? key = none →
    ∃ rest, later = .begun slot :: rest
  /-- While no request `Rewraps` a singleton's key, all that it resolves to is one object. -/
  shared : ∀ {id key earlier v between u later b a c v' u'},
    moments = earlier ++ .asked (.resolve id key) v ::
      (between ++ .asked (.resolve id key) u :: later) →
    (v.injector id).bindings.get? key = some b → b.scope = .singleton →
    (∀ request x, .asked request x ∈ between → ¬ request.Rewraps id key) →
    .answered (.resolve id key) v (.ok a) v' ∈ moments →
    .answered (.resolve id key) u (.ok c) u' ∈ moments → a = c

/-! ### What follows a get -/

section

variable {host : Host ρ σ π} {answer : (request : Request ρ σ π) → Run ρ σ π request.Answer}
variable {within : Request ρ σ π → World ρ σ π → List (Moment ρ σ π)}
variable {id : InjectorId} {slot : SlotId} {key : Key} {type : ValueType} {delegate : Provider ρ}
variable {v : World ρ σ π}

theorem run_single_of_filled {object : Ref} (h : v.slot slot = .filled object) :
    ((Script.single id slot key type delegate).toRun answer).run v = .ok (.ok object, v) := by
  rw [Script.toRun_single, Engine.single, Run.run_bind, Run.run_now, h]
  rfl

theorem moments_single_of_filled {object : Ref} (h : v.slot slot = .filled object) :
    (Script.single id slot key type delegate).moments answer within v = [] := by
  rw [Script.single, Script.moments_now_bind, h]
  rfl

theorem moments_single_of_empty (h : v.slot slot = .empty)
    (hproducing : (v.injector id).waits.producing.get? key = none) :
    ∃ rest, (Script.single id slot key type delegate).moments answer within v =
      .begun slot :: rest := by
  have hawait := World.awaitKey_of_unproduced hproducing
  rw [Script.single, Script.moments_now_bind, h]
  show ∃ rest, (Script.await id slot key type delegate).moments answer within v = _
  rw [Script.await, Script.moments_now_bind, hawait]
  refine ⟨_, congrArg (· ++ _) (Script.moments_takeOrMake ?_)⟩
  exact h

/-- What is said of `Script.single` of the wrapper is said of what follows the get. -/
theorem Host.Told.after_get {moments earlier later : List (Moment ρ σ π)} (h : host.Told moments)
    (hmoments : moments = earlier ++ .asked (.get id slot key type delegate) v :: later) :
    ∃ fuel rest, later =
      (Script.single id slot key type delegate).moments (host.answer fuel) (host.moments fuel) v ++
        Moment.following (((Script.single id slot key type delegate).toRun (host.answer fuel)).run v)
          (fun reply after => [.answered (.get id slot key type delegate) v reply after]) ++ rest := by
  obtain ⟨fuel, rest, hblock⟩ := h _ v earlier later hmoments
  refine ⟨fuel, rest, ?_⟩
  rw [Script.toRun_single]
  exact (List.cons.inj hblock).2

end

/-! ### What a trail tells -/

namespace Trail

variable {w after : World ρ σ π} {moments earlier later : List (Moment ρ σ π)}
variable {slot : SlotId} {id : InjectorId} {key : Key}

theorem after_ended {outcome : Except Fault Ref} (trail : Trail w moments after)
    (hmoments : moments = earlier ++ .ended slot outcome :: later) :
    ∃ next : World ρ σ π, next.slot slot = .keeping outcome ∧ Trail next later after := by
  subst hmoments
  obtain ⟨_, -, hrest⟩ := trail.of_append
  exact hrest.of_ended

theorem after_answered {request : Request ρ σ π} {before here : World ρ σ π}
    {reply : request.Answer} (trail : Trail w moments after)
    (hmoments : moments = earlier ++ .answered request before reply here :: later) :
    request.Settled before reply here ∧ Trail here later after := by
  subst hmoments
  obtain ⟨_, -, hrest⟩ := trail.of_append
  exact hrest.of_answered

theorem empty_after_failure {fault : Fault} {request : Request ρ σ π} {v : World ρ σ π}
    {between : List (Moment ρ σ π)} (trail : Trail w moments after)
    (hmoments : moments =
      earlier ++ .ended slot (.error fault) :: (between ++ .asked request v :: later))
    (hbegun : .begun slot ∉ between) : v.slot slot = .empty := by
  obtain ⟨next, hempty, hlater⟩ := trail.after_ended hmoments
  obtain ⟨x, hbetween, hlast⟩ := hlater.of_append
  have hx := (hbetween.empty hempty hbegun).2
  cases hlast with
  | move hcalm hmove _ =>
    cases hmove with
    | asked _ => exact (hcalm.slot slot).trans hx

theorem settled_of_mem {request : Request ρ σ π} {before here : World ρ σ π}
    {reply : request.Answer} (trail : Trail w moments after)
    (hmem : .answered request before reply here ∈ moments) : request.Settled before reply here := by
  obtain ⟨earlier, later, hmoments⟩ := List.append_of_mem hmem
  exact (trail.after_answered hmoments).1

/-- Values that a slot held at two moments of a `Trail` are one. -/
theorem eq_of_answered {first second : Request ρ σ π} {x y u v : World ρ σ π}
    {p : first.Answer} {q : second.Answer} {a b : Ref} (trail : Trail w moments after)
    (hu : .answered first x p u ∈ moments) (hv : .answered second y q v ∈ moments)
    (ha : u.slot slot = .filled a) (hb : v.slot slot = .filled b) : a = b := by
  obtain ⟨earlier, later, hmoments⟩ := List.append_of_mem hu
  obtain ⟨-, hlater⟩ := trail.after_answered hmoments
  rw [hmoments, List.mem_append, List.mem_cons] at hv
  rcases hv with hv | hv | hv
  · -- the second came first
    obtain ⟨start, between, rfl⟩ := List.append_of_mem hv
    rw [List.append_assoc, List.cons_append] at hmoments
    obtain ⟨-, hbetween⟩ := trail.after_answered hmoments
    have hfound := (hbetween.filled hb).1 (.answered first x p u) (by simp)
    exact Slot.filled.inj (ha.symm.trans hfound)
  · obtain ⟨rfl, rfl⟩ : first = second ∧ u = v := by
      injection hv with h1 h2 h3 h4
      exact ⟨h1.symm, h4.symm⟩
    exact Slot.filled.inj (ha.symm.trans hb)
  · have hfound := (hlater.filled ha).1 _ hv
    exact Slot.filled.inj (hfound.symm.trans hb)

/-- From one request to another the binding stays if nothing `Rewraps` the key in between. -/
theorem binding_between {request other : Request ρ σ π} {u v : World ρ σ π} {b : Binding ρ}
    {between : List (Moment ρ σ π)} (trail : Trail w moments after) (hwrapped : w.Wrapped)
    (hmoments : moments = earlier ++ .asked request u :: (between ++ .asked other v :: later))
    (hrequest : ¬ request.Rewraps id key)
    (hspared : ∀ request x, .asked request x ∈ between → ¬ request.Rewraps id key)
    (hget : (u.injector id).bindings.get? key = some b) :
    u.Wrapped ∧ v.Wrapped ∧ (v.injector id).bindings.get? key = some b := by
  subst hmoments
  obtain ⟨_, hfirst, hsecond⟩ := trail.of_append
  cases hsecond with
  | move hcalm hmove hrest =>
    cases hmove with
    | asked hspares =>
      have hu : u.Wrapped := hcalm.wrapped (hfirst.wrapped hwrapped)
      obtain ⟨x, hbetween, hlast⟩ := hrest.of_append
      have hnext := hspares.binding hu id key b hrequest hget
      have hx := hbetween.binding (hspares.wrapped hu) hnext hspared
      cases hlast with
      | move hcalm' hmove' _ =>
        cases hmove' with
        | asked _ =>
          have hxw := hbetween.wrapped (hspares.wrapped hu)
          exact ⟨hu, hcalm'.wrapped hxw, hcalm'.binding hxw id key b (fun hlost => hlost) hx⟩

end Trail

/-- A key that is bound as a singleton is resolved by the singleton's wrapper, which
`World.providerOf` gives. -/
theorem World.Wrapped.providerOf {w : World ρ σ π} {id : InjectorId} {key : Key} {b : Binding ρ}
    (h : w.Wrapped) (hget : (w.injector id).bindings.get? key = some b)
    (hscope : b.scope = .singleton) :
    ∃ slot, b.effective = .singleton slot key key.type b.decorated ∧
      (w.providerOf id key).1 = .ok b.effective := by
  obtain ⟨hkey, hwrapper⟩ := h id key b hget
  obtain ⟨slot, heffective⟩ := hwrapper hscope
  have hfind : (w.injector id).find key = .ok (some b) := by
    rw [Injector.find, hget]
    simp [hkey]
  refine ⟨slot, heffective, ?_⟩
  rw [World.providerOf, hfind]

/-- In every run on one thread each singleton is written once, and its wrapper gives what was
written from then on, as `WritesOnce` spells out. The world follows the moments by
`Host.trail_course`. -/
theorem singleton_write_once (host : Host ρ σ π) (fuel : Nat) (code : Code ρ σ π α)
    (w : World ρ σ π) (hwrapped : w.Wrapped)
    (hproper : ∀ m ∈ host.course fuel code w, m.Proper) :
    WritesOnce (host.course fuel code w) := by
  obtain ⟨after, htrail⟩ := host.trail_course fuel code w hproper
  have htold : host.Told (host.course fuel code w) := host.course_told fuel code w
  generalize host.course fuel code w = moments at htrail htold
  refine ⟨?once, ?kept, ?released, ?retried, ?shared⟩
  case once =>
    intro slot object earlier later hmoments
    obtain ⟨next, hfilled, hlater⟩ := htrail.after_ended hmoments
    have hfound := (hlater.filled hfilled).1
    exact ⟨fun hmem => hfound _ hmem rfl, fun outcome hmem => hfound _ hmem rfl⟩
  case kept =>
    intro slot object earlier between id key type delegate v later hmoments
    obtain ⟨next, hfilled, hlater⟩ := htrail.after_ended hmoments
    have hv : v.slot slot = .filled object :=
      (hlater.filled hfilled).1 (.asked (.get id slot key type delegate) v) (by simp)
    rw [← List.cons_append, ← List.append_assoc] at hmoments
    obtain ⟨fuel, rest, rfl⟩ := htold.after_get hmoments
    rw [moments_single_of_filled hv, run_single_of_filled hv]
    exact ⟨rest, rfl⟩
  case released =>
    intro slot fault earlier between request v later hmoments hbegun
    exact htrail.empty_after_failure hmoments hbegun
  case retried =>
    intro slot fault earlier between id key type delegate v later hmoments hbegun hproducing
    have hempty := htrail.empty_after_failure hmoments hbegun
    rw [← List.cons_append, ← List.append_assoc] at hmoments
    obtain ⟨fuel, rest, rfl⟩ := htold.after_get hmoments
    obtain ⟨more, hmore⟩ := moments_single_of_empty hempty hproducing
    rw [hmore]
    exact ⟨_, rfl⟩
  case shared =>
    intro id key earlier v between u later b a c v' u' hmoments hget hscope hspared hv hu
    obtain ⟨hvw, huw, hget'⟩ :=
      htrail.binding_between hwrapped hmoments (fun hrewraps => hrewraps) hspared hget
    obtain ⟨slot, heffective, hfound⟩ := hvw.providerOf hget hscope
    obtain ⟨_, _, hfound'⟩ := huw.providerOf hget' hscope
    rw [heffective] at hfound hfound'
    -- both values are in the slot of the one wrapper when they are answered
    have ha := htrail.settled_of_mem hv slot key key.type b.decorated a hfound rfl
    have hc := htrail.settled_of_mem hu slot key key.type b.decorated c hfound' rfl
    exact htrail.eq_of_answered hv hu ha hc

/-! ### A delegate that fails at first -/

def fickle : Key := .ofObject (.plain "Fickle") 0

/-- On its first run the factory asks for its own singleton, takes no notice of the fault and fails.
On later runs it shuts the injector down in the middle of its own production and succeeds. -/
def fickleHost : Host Unit Nat Unit where
  make _ id := do
    let attempts : Nat ← Code.act .recall
    let _ ← Code.act (.remember (attempts + 1 : Nat))
    match attempts with
    | 0 =>
      match ← Code.act (.provider id fickle) with
      | .error _ => pure ()
      | .ok wrapper => let _ ← Code.send (.produce id wrapper)
      pure (.error (.providerFailed fickle "first attempt"))
    | _ =>
      let _ ← Code.act (.shutDown id)
      let object ← Code.act (.allocate (.plain ()))
      pure (.ok object)
  stage _ _ object := pure (.ok object)
  hook _ _ _ := pure (.ok ())
  kind _ := default
  imports _ := []
  configure _ _ := pure (.ok ())

/-- Resolves the key of `fickleHost` twice, then asks the wrapper that it had at first, and resolves
the key again. -/
def fickleCode : Code Unit Nat Unit Unit := do
  let id ← Code.act .newInjector
  let _ ← Code.act (.bind id fickle (.factory (.plain "Fickle") ()) .singleton)
  let found ← Code.act (.provider id fickle)
  let _ ← Code.send (.resolve id fickle)
  let _ ← Code.send (.resolve id fickle)
  match found with
  | .error _ => pure ()
  | .ok wrapper => let _ ← Code.send (.produce id wrapper)
  let _ ← Code.send (.resolve id fickle)

def fickleCourse : List (Moment Unit Nat Unit) :=
  fickleHost.course 8 fickleCode { memory := 0 }

/-- The slot that changes at a moment, and what is in it then, by `Slot.keeping` at the end of a
delegate. -/
def Moment.change? : Moment ρ σ π → Option (SlotId × Slot)
  | .begun slot => some (slot, .busy)
  | .ended slot outcome => some (slot, .keeping outcome)
  | _ => none

/-- The first wrapper fails and then succeeds; the shutdown in `fickleCode` makes way for the
second. -/
theorem singleton_write_once_of_fickle :
    ({ memory := 0 } : World Unit Nat Unit).Wrapped ∧ (∀ m ∈ fickleCourse, m.Proper) ∧
      fickleCourse.filterMap Moment.change? =
        [(⟨0⟩, .busy), (⟨0⟩, .empty), (⟨0⟩, .busy), (⟨0⟩, .filled ⟨0⟩),
          (⟨1⟩, .busy), (⟨1⟩, .filled ⟨1⟩)] ∧
      WritesOnce fickleCourse := by
  have hwrapped : ({ memory := 0 } : World Unit Nat Unit).Wrapped := nofun
  have hproper : ∀ m ∈ fickleCourse, m.Proper := by decide +kernel
  exact ⟨hwrapped, hproper, by decide +kernel, singleton_write_once _ _ _ _ hwrapped hproper⟩

end Wiring
