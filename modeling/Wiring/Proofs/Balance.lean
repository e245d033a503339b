import Wiring.Proofs.FrameWalks
import Wiring.Proofs.WriteOnce

/-!
# Resolutions leave nothing behind

Whatever a resolution or a get comes to, and whatever factories, stages and hooks do on the way, the
resolve stack is afterwards what it was before, and so are the waits of every injector
(`resolutions_balanced`). So a cycle is reported only where one is: a key is refused on the stack or
as a wait only while something of that key is in progress.

The host's code may resolve, rebind, decorate, shut down, fail and recover from faults, with as many
injectors as it likes, and it may put keys on the stack itself, as long as it takes them off again
before the get that it runs for is over, and takes off no others (`Moment.Orderly`).

* **`Balanced`** — the four things that are said of the moments of a run: what is restored, what is
  settled at the end, and why a key or a wait is refused.
* **`resolutions_balanced`** — they hold in every orderly run, for any host; the factory of
  `spoiltHost` fails in the middle of all it does.
-/

namespace Wiring

variable {ρ σ π α : Type}

/-- What the moments of a run that begins in `start` tell of the stack and of the waits; each is a
`Moment` of `Host.course`. -/
structure Balanced (start : World ρ σ π) (moments : List (Moment ρ σ π)) : Prop where
  /-- A resolution or a get leaves the stack and the waits of each injector as they were `before`,
  whatever it is answered. -/
  restored : ∀ {request before reply after}, .answered request before reply after ∈ moments →
    request.isForValue = true →
    after.stack = before.stack ∧ ∀ id, (after.injector id).waits = (before.injector id).waits
  /-- With the answer after which nothing is in progress any more, by `Moment.inProgress`, all is as
  it was at the start, and nothing waits. -/
  settled : ∀ {earlier request before reply after later},
    moments = earlier ++ .answered request before reply after :: later →
    Moment.inProgress [] (earlier ++ [.answered request before reply after]) = [] →
    after.stack = start.stack ∧ after.Idle
  /-- A key that is refused by `World.pushKey` was on the stack at the start, or is being resolved,
  or the host's code has put it there. -/
  refused : ∀ {earlier id key v fault later},
    moments = earlier ++ .asked (.resolve id key) v :: later → (v.pushKey key).1 = .error fault →
    key ∈ start.stack ∨ (∃ other, .resolving other key ∈ Moment.inProgress [] earlier) ∨
      .guarding key ∈ Moment.inProgress [] earlier
  /-- A wait that is refused by `World.awaitKey` is for a key of which a delegate is at work with
  the same injector. -/
  unawaited : ∀ {earlier id slot key type delegate v fault later},
    moments = earlier ++ .asked (.get id slot key type delegate) v :: later →
    (v.awaitKey id key).1 = .error fault →
    ∃ other, .making id other key ∈ Moment.inProgress [] earlier

namespace World.Records

variable {start w : World ρ σ π} {guards : Prop} {F : List (Frame ρ)} {id : InjectorId} {key : Key}
variable {fault : Fault}

theorem mem_of_pushKey (h : start.Records True F w) (hpush : (w.pushKey key).1 = .error fault) :
    key ∈ start.stack ∨ (∃ id, .resolving id key ∈ F) ∨ .guarding key ∈ F := by
  have hmem : key ∈ w.stack := (World.pushKey_eq_error_iff.1 hpush).1
  rw [h.stack trivial, List.mem_append, Frame.mem_keys] at hmem
  exact hmem

theorem mem_of_awaitKey (h : start.Records guards F w) (hawait : (w.awaitKey id key).1 = .error fault) :
    ∃ slot, .making id slot key ∈ F := by
  by_contra hfree
  rw [h.awaitKey_of_not_made fun hmade => hfree (Frame.mem_made.1 hmade)] at hawait
  cases hawait

end World.Records

/-- In every run on one thread from a world where nothing waits (`World.Idle`), in which the host's
code keeps its guards (`Moment.Orderly`), resolutions and gets leave the stack and all waits as they
were. -/
theorem resolutions_balanced (host : Host ρ σ π) (fuel : Nat) (code : Code ρ σ π α)
    (w : World ρ σ π) (hidle : w.Idle)
    (horderly : Moment.Along (Moment.Orderly True) [] (host.course fuel code w)) :
    Balanced w (host.course fuel code w) := by
  have hfits := host.course_fits fuel code hidle horderly
  generalize host.course fuel code w = moments at hfits
  refine ⟨?restored, ?settled, ?refused, ?unawaited⟩
  case restored =>
    intro request before reply after hmem hvalue
    obtain ⟨earlier, later, hmoments⟩ := List.append_of_mem hmem
    -- the same resolutions and gets are in progress before the request and after its answer
    obtain ⟨hafter, hbefore⟩ := hfits.at hmoments
    have hbefore := hbefore hvalue
    refine ⟨?_, fun id => ?_⟩
    · rw [hafter.stack trivial, hbefore.stack trivial]
    · rw [hafter.waits id, hbefore.waits id]
  case settled =>
    intro earlier request before reply after later hmoments hnone
    obtain ⟨hafter, -⟩ := hfits.at hmoments
    rw [Moment.inProgress_append] at hnone
    have hrecords : w.Records True [] after := hnone ▸ hafter
    exact ⟨(hrecords.stack trivial).trans (List.append_nil _), hrecords.waits⟩
  case refused =>
    intro earlier id key v fault later hmoments hpush
    have hrecords : w.Records True (Moment.inProgress [] earlier) v := hfits.at hmoments
    exact hrecords.mem_of_pushKey hpush
  case unawaited =>
    intro earlier id slot key type delegate v fault later hmoments hawait
    have hrecords : w.Records True (Moment.inProgress [] earlier) v := hfits.at hmoments
    exact hrecords.mem_of_awaitKey hawait

/-! ### A factory that fails in the middle of what it does -/

def spoilt : Key := ⟨.plain "Spoilt", none⟩

def missing : Key := ⟨.plain "Missing", none⟩

def hand : Key := ⟨.plain "Hand", none⟩

/-- The factory puts a key on the stack, asks for a key that is not bound and for its own, takes the
key off again, shuts the injector down and fails; in all that its code is `Orderly`. -/
def spoiltHost : Host Unit Unit Unit where
  make _ id := do
    let _ ← Code.act (.pushKey hand)
    let _ ← Code.send (.resolve id missing)
    let _ ← Code.send (.resolve id spoilt)
    let _ ← Code.act .popKey
    let _ ← Code.act (.shutDown id)
    pure (.error (.providerFailed spoilt "spoilt"))
  stage _ _ object := pure (.ok object)
  hook _ _ _ := pure (.ok ())
  kind _ := default
  imports _ := []
  configure _ _ := pure (.ok ())

/-- Resolves the key of `spoiltHost`, and then asks its wrapper with another injector. -/
def spoiltCode : Code Unit Unit Unit Unit := do
  let first ← Code.act .newInjector
  let second ← Code.act .newInjector
  let _ ← Code.act (.bind first spoilt (.factory (.plain "Spoilt") ()) .singleton)
  let _ ← Code.send (.resolve first spoilt)
  match ← Code.act (.provider first spoilt) with
  | .error _ => pure ()
  | .ok wrapper => let _ ← Code.send (.produce second wrapper)

def spoiltCourse : List (Moment Unit Unit Unit) :=
  spoiltHost.course 8 spoiltCode { memory := () }

/-- The fault that a resolution is answered, if the `Moment` is that answer. -/
def Moment.fault? : Moment ρ σ π → Option Fault
  | .answered (.resolve _ _) _ (reply : Except Fault Ref) _ =>
    match reply with
    | .error fault => some fault
    | .ok _ => none
  | _ => none

/-- Of the faults of `spoiltCode` only the one of the key that asks for itself is a cycle; the
second get does not find one. -/
theorem resolutions_balanced_of_spoilt :
    ({ memory := () } : World Unit Unit Unit).Idle ∧
      Moment.Along (Moment.Orderly True) [] spoiltCourse ∧
      spoiltCourse.filterMap Moment.fault? =
        [.unboundKey missing, .cyclicBinding [spoilt, hand, spoilt], .providerFailed spoilt "spoilt",
          .unboundKey missing, .unboundKey spoilt] ∧
      Balanced { memory := () } spoiltCourse := by
  have hidle : ({ memory := () } : World Unit Unit Unit).Idle := fun _ => rfl
  have horderly : Moment.Along (Moment.Orderly True) [] spoiltCourse := by decide +kernel
  exact ⟨hidle, horderly, by decide +kernel, resolutions_balanced _ _ _ _ hidle horderly⟩

end Wiring
