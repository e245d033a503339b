import Wiring.Proofs.Scripts

/-!
# The moments of a run

What happens in the course of a run, in order: a request is asked in some world and is answered with
a reply and a world, and the delegate of a slot begins its work and ends it with an outcome
(`Moment`). A request that comes up while there is no fuel left is not begun, and a run that halts
has the moments up to there.

A request that is asked goes through its own moments before anything else happens
(`Host.course_told`), so what follows it in the course of a run can be read off its script
(`Tells.after_asked`).

* **`Moment`** and **`Script.moments`** — the four kinds of moments, and those of a script.
* **`Host.course`** — the moments of a run of the host's code, with so much fuel.
* **`Tells.append`** and **`Tells.following`** — how `Host.Tells` is put together along a run.
-/

namespace Wiring

variable {ρ σ π α β : Type}

/-- Something that happens in the course of a run, on one thread. -/
inductive Moment (ρ σ π : Type) where
  | asked (request : Request ρ σ π) (w : World ρ σ π)
  | answered (request : Request ρ σ π) (before : World ρ σ π) (reply : request.Answer)
      (after : World ρ σ π)
  /-- The delegate of the singleton with this slot begins its work, as `Script.making` tells it. -/
  | begun (slot : SlotId)
  /-- The delegate of the singleton with this slot has come to an end, and the outcome is what it
  came to. -/
  | ended (slot : SlotId) (outcome : Except Fault Ref)

/-- The moments that follow an outcome; none do if the run has come to a `Halt`. -/
def Moment.following (outcome : Except Halt (α × World ρ σ π))
    (rest : α → World ρ σ π → List (Moment ρ σ π)) : List (Moment ρ σ π) :=
  match outcome with
  | .error _ => []
  | .ok (a, w) => rest a w

/-- The moments of a `Script`, where `within` are those of the requests that it makes. -/
def Script.moments (answer : (request : Request ρ σ π) → Run ρ σ π request.Answer)
    (within : Request ρ σ π → World ρ σ π → List (Moment ρ σ π)) {α : Type} :
    Script ρ σ π α → World ρ σ π → List (Moment ρ σ π)
  | .done _, _ => []
  | .step _, _ => []
  | .ask request, w => within request w
  | .making slot work, w =>
    .begun slot :: work.moments answer within w ++
      Moment.following ((work.toRun answer).run w) fun outcome _ => [.ended slot outcome]
  | .apart _, _ => []
  | .bind first next, w =>
    first.moments answer within w ++
      Moment.following ((first.toRun answer).run w) fun b w => (next b).moments answer within w

namespace Script

variable {answer : (request : Request ρ σ π) → Run ρ σ π request.Answer}
variable {within : Request ρ σ π → World ρ σ π → List (Moment ρ σ π)}

theorem run_bind (first : Script ρ σ π β) (next : β → Script ρ σ π α) (w : World ρ σ π) :
    ((first >>= next).toRun answer).run w =
      ((first.toRun answer).run w).bind fun p => ((next p.1).toRun answer).run p.2 :=
  Run.run_bind (first.toRun answer) (fun b => (next b).toRun answer) w

theorem moments_bind (first : Script ρ σ π β) (next : β → Script ρ σ π α) (w : World ρ σ π) :
    (first >>= next).moments answer within w = first.moments answer within w ++
      Moment.following ((first.toRun answer).run w) fun b v => (next b).moments answer within v := rfl

theorem run_now_bind (f : World ρ σ π → β × World ρ σ π) (next : β → Script ρ σ π α)
    (w : World ρ σ π) :
    ((now f >>= next).toRun answer).run w = ((next (f w).1).toRun answer).run (f w).2 := rfl

/-- A step that is always possible, by `Script.now`, tells nothing of itself. -/
theorem moments_now_bind (f : World ρ σ π → β × World ρ σ π) (next : β → Script ρ σ π α)
    (w : World ρ σ π) :
    (now f >>= next).moments answer within w = (next (f w).1).moments answer within (f w).2 := rfl

end Script

namespace Host

/-- The moments of a request, with so much fuel: those of `Script.request` between the question and
the answer. -/
def moments (host : Host ρ σ π) : Nat → Request ρ σ π → World ρ σ π → List (Moment ρ σ π)
  | 0, _, _ => []
  | fuel + 1, request, w =>
    .asked request w ::
      (Script.request host fuel request).moments (host.answer fuel) (host.moments fuel) w ++
      Moment.following ((host.answer (fuel + 1) request).run w)
        fun reply after => [.answered request w reply after]

/-- The moments of running code of the host, by `Script.moments` and with so much fuel. -/
def course (host : Host ρ σ π) (fuel : Nat) (code : Code ρ σ π α) (w : World ρ σ π) :
    List (Moment ρ σ π) :=
  code.script.moments (host.answer fuel) (host.moments fuel) w

/-- Each request that is asked goes through its own moments, by `Host.moments`, before anything else
happens. -/
def Told (host : Host ρ σ π) (moments : List (Moment ρ σ π)) : Prop :=
  ∀ request w earlier later, moments = earlier ++ .asked request w :: later →
    ∃ fuel rest, .asked request w :: later = host.moments (fuel + 1) request w ++ rest

/-- Each request that is asked goes through its own moments first, as in `Told`. If it is never
answered, nothing follows, and what the moments are of has not `ended`. -/
def Tells (host : Host ρ σ π) (moments : List (Moment ρ σ π)) (ended : Prop) : Prop :=
  ∀ request w earlier later, moments = earlier ++ .asked request w :: later →
    ∃ fuel rest, .asked request w :: later = host.moments (fuel + 1) request w ++ rest ∧
      ∀ reason, (host.answer (fuel + 1) request).run w = .error reason → rest = [] ∧ ¬ ended

variable {host : Host ρ σ π} {moments more : List (Moment ρ σ π)} {m : Moment ρ σ π}
variable {first ended : Prop}

namespace Tells

theorem nil : host.Tells [] ended := by
  intro request w earlier later heq
  simp at heq

theorem cons (h : host.Tells moments ended) (hm : ∀ request w, m ≠ .asked request w) :
    host.Tells (m :: moments) ended := by
  intro request w earlier later heq
  cases earlier with
  | nil => exact absurd (List.cons.inj heq).1 (hm request w)
  | cons _ earlier => exact h request w earlier later (List.cons.inj heq).2

/-- There is more only after what has ended, so `Tells` of two parts comes together. -/
theorem append (h : host.Tells moments first) (hmore : first → host.Tells more ended)
    (hnone : ¬ first → more = []) (hended : ended → first) : host.Tells (moments ++ more) ended := by
  intro request w earlier later heq
  rcases List.append_eq_append_iff.1 heq with ⟨between, _, hlater⟩ | ⟨between, hmoments, hlater⟩
  · by_cases hfirst : first
    · exact hmore hfirst request w between later hlater
    · rw [hnone hfirst] at hlater
      simp at hlater
  · cases between with
    | nil =>
      by_cases hfirst : first
      · exact hmore hfirst request w [] later hlater.symm
      · rw [hnone hfirst] at hlater
        cases hlater
    | cons _ between =>
      obtain ⟨rfl, rfl⟩ := List.cons.inj hlater
      obtain ⟨fuel, rest, hrest, hhalts⟩ := h request w earlier between hmoments
      refine ⟨fuel, rest ++ more, ?_, fun reason hreason => ?_⟩
      · rw [← List.append_assoc, ← hrest]
        rfl
      · obtain ⟨hnil, hfirst⟩ := hhalts reason hreason
        exact ⟨by rw [hnil, hnone hfirst, List.append_nil], fun h => hfirst (hended h)⟩

/-- What follows an outcome by `Moment.following`, follows it only if there is one. -/
theorem following {outcome : Except Halt (α × World ρ σ π)}
    {rest : α → World ρ σ π → List (Moment ρ σ π)}
    (h : host.Tells moments (∃ p, outcome = .ok p))
    (hrest : ∀ a w, outcome = .ok (a, w) → host.Tells (rest a w) ended)
    (hended : ended → ∃ p, outcome = .ok p) :
    host.Tells (moments ++ Moment.following outcome rest) ended := by
  refine h.append ?_ ?_ hended
  · rintro ⟨p, rfl⟩
    exact hrest p.1 p.2 rfl
  · intro hnone
    cases outcome with
    | error _ => rfl
    | ok p => exact absurd ⟨p, rfl⟩ hnone

end Tells

theorem tells_script {answer : (request : Request ρ σ π) → Run ρ σ π request.Answer}
    {within : Request ρ σ π → World ρ σ π → List (Moment ρ σ π)}
    (h : ∀ request w, host.Tells (within request w) (∃ p, (answer request).run w = .ok p))
    (x : Script ρ σ π α) (w : World ρ σ π) :
    host.Tells (x.moments answer within w) (∃ p, (x.toRun answer).run w = .ok p) := by
  induction x generalizing w with
  | done _ => exact .nil
  | step _ => exact .nil
  | ask request => exact h request w
  | making slot work ih =>
    refine .following (.cons (ih w) fun _ _ heq => nomatch heq) (fun outcome v _ => ?_) fun h => h
    exact .cons .nil fun _ _ heq => nomatch heq
  | apart _ => exact .nil
  | bind first next ihf ihn =>
    show host.Tells _ (∃ p, ((first >>= next).toRun answer).run w = .ok p)
    rw [Script.run_bind]
    refine .following (ihf w) (fun b v hfirst => ?_) ?_
    · rw [hfirst]
      exact ihn b v
    -- the whole has not come to an end unless the first has
    · rintro ⟨p, hp⟩
      cases hfirst : (first.toRun answer).run w with
      | error _ =>
        rw [hfirst] at hp
        cases hp
      | ok q => exact ⟨q, rfl⟩

theorem tells_moments (fuel : Nat) (request : Request ρ σ π) (w : World ρ σ π) :
    host.Tells (host.moments fuel request w) (∃ p, (host.answer fuel request).run w = .ok p) := by
  induction fuel generalizing request w with
  | zero => exact .nil
  | succ fuel ih =>
    have hrun : (host.answer (fuel + 1) request).run w =
        ((Script.request host fuel request).toRun (host.answer fuel)).run w :=
      congrArg (Run.run · w) (Script.toRun_request host (host.answer fuel) fuel request).symm
    have hinner : host.Tells
        ((Script.request host fuel request).moments (host.answer fuel) (host.moments fuel) w ++
          Moment.following ((host.answer (fuel + 1) request).run w)
            fun reply after => [.answered request w reply after])
        (∃ p, (host.answer (fuel + 1) request).run w = .ok p) := by
      rw [hrun]
      exact .following (tells_script ih _ w)
        (fun _ _ _ => .cons .nil fun _ _ heq => nomatch heq) fun h => h
    intro other v earlier later heq
    cases earlier with
    | nil =>
      -- the request itself
      obtain ⟨⟨⟩, rfl⟩ := List.cons.inj heq
      refine ⟨fuel, [], (List.append_nil _).symm, fun reason hreason => ⟨rfl, ?_⟩⟩
      rintro ⟨p, hp⟩
      rw [hreason] at hp
      cases hp
    | cons _ earlier => exact hinner other v earlier later (List.cons.inj heq).2

theorem course_tells (fuel : Nat) (code : Code ρ σ π α) (w : World ρ σ π) :
    host.Tells (host.course fuel code w) (∃ p, (host.run fuel code).run w = .ok p) := by
  have hrun : code.script.toRun (host.answer fuel) = host.run fuel code :=
    Script.toRun_code (host.answer fuel) code
  rw [← hrun]
  exact tells_script (tells_moments fuel) code.script w

/-- What follows a request that is asked: the moments of `Script.request`, the answer if there is
one, and nothing more if there is none. -/
theorem Tells.after_asked {request : Request ρ σ π} {v : World ρ σ π}
    {earlier later : List (Moment ρ σ π)} (h : host.Tells moments ended)
    (hmoments : moments = earlier ++ .asked request v :: later) :
    ∃ fuel rest, later =
      (Script.request host fuel request).moments (host.answer fuel) (host.moments fuel) v ++
        Moment.following (((Script.request host fuel request).toRun (host.answer fuel)).run v)
          (fun reply after => [.answered request v reply after]) ++ rest ∧
      ∀ reason, ((Script.request host fuel request).toRun (host.answer fuel)).run v = .error reason →
        rest = [] := by
  obtain ⟨fuel, rest, hblock, hhalts⟩ := h request v earlier later hmoments
  have hrun : (host.answer (fuel + 1) request).run v =
      ((Script.request host fuel request).toRun (host.answer fuel)).run v :=
    congrArg (Run.run · v) (Script.toRun_request host (host.answer fuel) fuel request).symm
  refine ⟨fuel, rest, ?_, fun reason hreason => (hhalts reason (hrun.trans hreason)).1⟩
  rw [← hrun]
  exact (List.cons.inj hblock).2

theorem course_told (fuel : Nat) (code : Code ρ σ π α) (w : World ρ σ π) :
    host.Told (host.course fuel code w) := by
  intro request v earlier later heq
  obtain ⟨less, rest, hrest, -⟩ := course_tells fuel code w request v earlier later heq
  exact ⟨less, rest, hrest⟩

end Host

end Wiring
