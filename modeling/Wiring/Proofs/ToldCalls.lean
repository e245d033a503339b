import Wiring.Proofs.Accounts
import Wiring.Proofs.Moments

/-!
# The calls that the moments tell

The moments of a run tell each action that its own thread asks for, with the world in which it is
performed (`Moment.call?`). A run that comes to an end has an account with all of these calls in it,
in their order (`Host.covers_moments`). Whatever else is in the account was done by other threads
that the run started.

* **`World.Covers`** — a run that has come to an end has an account with the calls of the moments
  among its calls.
* **`Accountable.covers`** — what goes on without moments has an account too, which the moments tell
  nothing of.
-/

namespace Wiring

variable {ρ σ π α β : Type}

namespace Moment

/-- The call that is made at this moment, if one is: an `asked` action is. -/
def call? : Moment ρ σ π → Option (Call ρ σ π)
  | .asked (.act action) w => some ⟨action, w⟩
  | _ => none

/-- The calls that moments tell, in their order, by `call?`. -/
def calls (moments : List (Moment ρ σ π)) : List (Call ρ σ π) :=
  moments.filterMap call?

theorem calls_append (moments more : List (Moment ρ σ π)) :
    calls (moments ++ more) = calls moments ++ calls more :=
  List.filterMap_append

/-- What follows an outcome tells no calls, if none of it does. -/
theorem calls_following {outcome : Except Halt (α × World ρ σ π)}
    {rest : α → World ρ σ π → List (Moment ρ σ π)} (h : ∀ a w, calls (rest a w) = []) :
    calls (following outcome rest) = [] := by
  cases outcome with
  | error _ => rfl
  | ok p => exact h p.1 p.2

end Moment

/-- If the outcome is a result, some account of what led to it, by `World.Passes`, has the calls in
it that the moments tell. -/
def World.Covers (w : World ρ σ π) (outcome : Except Halt (α × World ρ σ π))
    (moments : List (Moment ρ σ π)) : Prop :=
  ∀ a after, outcome = .ok (a, after) →
    ∃ calls, w.Passes calls after ∧ (Moment.calls moments).Sublist calls

namespace World.Covers

variable {w : World ρ σ π} {moments more : List (Moment ρ σ π)}

/-- Only the calls in the moments matter, as `Moment.calls` reads them. -/
theorem of_calls {outcome : Except Halt (α × World ρ σ π)} (h : w.Covers outcome moments)
    (hcalls : Moment.calls more = Moment.calls moments) : w.Covers outcome more := by
  intro a after houtcome
  rw [hcalls]
  exact h a after houtcome

theorem bind {x : Run ρ σ π β} {next : β → Run ρ σ π α} {rest : β → World ρ σ π → List (Moment ρ σ π)}
    (h : w.Covers (x.run w) moments)
    (hnext : ∀ b v, x.run w = .ok (b, v) → v.Covers ((next b).run v) (rest b v)) :
    w.Covers ((x >>= next).run w) (moments ++ Moment.following (x.run w) rest) := by
  intro a after hrun
  rw [Run.run_bind] at hrun
  cases hx : x.run w with
  | error reason =>
    rw [hx] at hrun
    cases hrun
  | ok p =>
    obtain ⟨b, v⟩ := p
    rw [hx] at hrun
    obtain ⟨calls, hcalls, htold⟩ := h b v hx
    obtain ⟨later, hlater, htoldLater⟩ := hnext b v hx a after hrun
    refine ⟨calls ++ later, hcalls.trans hlater, ?_⟩
    show (Moment.calls (moments ++ rest b v)).Sublist (calls ++ later)
    rw [Moment.calls_append]
    exact htold.append htoldLater

end World.Covers

/-- A computation that can be accounted for is, once it has come to an end by `Run.run`. -/
theorem Run.Accountable.passes {x : Run ρ σ π α} (h : x.Accountable) {w after : World ρ σ π} {a : α}
    (hrun : x.run w = .ok (a, after)) : ∃ calls, w.Passes calls after := by
  induction x generalizing w after with
  | done _ =>
    cases hrun
    exact ⟨[], .refl w⟩
  | pause _ =>
    cases hrun
    exact ⟨[], .refl w⟩
  | step take => exact h w a after hrun
  | bind first next ihf ihn =>
    rw [Run.run] at hrun
    split at hrun
    case h_1 => cases hrun
    case h_2 b v hfirst =>
      obtain ⟨calls, hcalls⟩ := ihf h.1 hfirst
      obtain ⟨more, hmore⟩ := ihn b (h.2 b) hrun
      exact ⟨_, hcalls.trans hmore⟩

/-- What goes on without moments is accounted for too, and tells no calls. -/
theorem Run.Accountable.covers {x : Run ρ σ π α} (h : x.Accountable) (w : World ρ σ π) :
    w.Covers (x.run w) [] := by
  intro a after hrun
  obtain ⟨calls, hcalls⟩ := h.passes hrun
  exact ⟨calls, hcalls, List.nil_sublist calls⟩

theorem Script.covers_moments {answer : (request : Request ρ σ π) → Run ρ σ π request.Answer}
    {within : Request ρ σ π → World ρ σ π → List (Moment ρ σ π)}
    (hwithin : ∀ request (w : World ρ σ π), w.Covers ((answer request).run w) (within request w))
    {x : Script ρ σ π α} (hx : (x.toRun answer).Accountable) (w : World ρ σ π) :
    w.Covers ((x.toRun answer).run w) (x.moments answer within w) := by
  induction x generalizing w with
  | done result =>
    have hdone : (Run.done result : Run ρ σ π _).Accountable := trivial
    exact hdone.covers w
  | step _ => exact Run.Accountable.covers hx w
  | ask request => exact hwithin request w
  | making slot work ih =>
    refine (ih hx w).of_calls ?_
    show Moment.calls (work.moments answer within w ++ _) = _
    rw [Moment.calls_append, Moment.calls_following fun _ _ => rfl, List.append_nil]
  | apart part => exact Run.Accountable.covers hx w
  | bind first next ihf ihn =>
    show w.Covers (((first.toRun answer) >>= fun b => (next b).toRun answer).run w) _
    exact (ihf hx.1 w).bind fun b v _ => ihn b (hx.2 b) v

/-- What a request comes to is accounted for, with all calls that its `Host.moments` tell. By
induction on the fuel, along the scripts of the engine. -/
theorem Host.covers_moments (host : Host ρ σ π) (fuel : Nat) (request : Request ρ σ π) (w : World ρ σ π) :
    w.Covers ((host.answer fuel request).run w) (host.moments fuel request w) := by
  induction fuel generalizing request w with
  | zero => exact (host.accountable_answer 0 request).covers w
  | succ fuel ih =>
    by_cases haction : ∃ action, request = .act action
    · obtain ⟨action, rfl⟩ := haction
      intro reply after hrun
      have hafter : (action.perform w).2 = after := congrArg Prod.snd (Except.ok.inj hrun)
      rw [← hafter]
      exact ⟨_, (World.Passes.refl w).call action, List.Sublist.refl _⟩
    · -- a request that is no action tells the calls of its script
      have hrun : (Script.request host fuel request).toRun (host.answer fuel) =
          host.answer (fuel + 1) request := Script.toRun_request host (host.answer fuel) fuel request
      have hscript := Script.covers_moments ih (hrun ▸ host.accountable_answer (fuel + 1) request) w
      have hasked : (Moment.asked request w).call? = none := by
        cases request with
        | act action => exact absurd ⟨action, rfl⟩ haction
        | _ => rfl
      rw [hrun] at hscript
      refine hscript.of_calls ?_
      unfold Host.moments
      rw [Moment.calls_append, Moment.calls_following fun _ _ => rfl, List.append_nil]
      exact List.filterMap_cons_none hasked

end Wiring
