import Wiring.Proofs.Accounts

/-!
# Computations alongside others

Between the steps of a computation on one thread, the others take theirs. `Run.BecomesBy` says what
is left of it then, where some account tells of all that happens meanwhile, on whatever thread. Each
thread of each run is such a computation (`Threads.AccountedBy.becomes`), and so are the parts that
it is put together of: one comes to its end, and the next begins with what it came to
(`Run.ComesToBy.bind`).

How much the account tells is left open, as in `World.IsAccount`: it is the relation `R` of
everything here. The account of the calls, `World.Passes`, is the one that most results are about,
and has the names `Run.Becomes` and `Run.ComesTo`.

* **`BecomesBy.of_bind`** and **`BecomesBy.of_step`** — what is left of two computations and of one
  step; all later results take computations apart by these.
* **`ComesToBy.taken`** — a step is taken at one moment of the account, others before it and after
  it.
-/

namespace Wiring

variable {ρ σ π ε α β : Type}

namespace World

/-- The world is changed by `f` at the moment, and the account tells by `R` what others do after
that. -/
def Changes (R : World ρ σ π → List ε → World ρ σ π → Prop) (w : World ρ σ π)
    (f : World ρ σ π → World ρ σ π) (events : List ε) (after : World ρ σ π) : Prop :=
  ∃ own later, events = own ++ later ∧ R w own (f w) ∧ R (f w) later after

namespace Changes

variable {R : World ρ σ π → List ε → World ρ σ π → Prop} [IsAccount R]
variable {w v after : World ρ σ π} {f : World ρ σ π → World ρ σ π} {events more : List ε}

theorem told (h : w.Changes R f events after) : R w events after := by
  obtain ⟨own, later, rfl, hown, hlater⟩ := h
  exact IsAccount.trans hown hlater

theorem afterwards (h : w.Changes R f events v) (hmore : R v more after) :
    w.Changes R f (events ++ more) after := by
  obtain ⟨own, later, rfl, hown, hlater⟩ := h
  exact ⟨own, later ++ more, List.append_assoc _ _ _, hown, IsAccount.trans hlater hmore⟩

end Changes

end World

namespace Run

open World

/-- The computation `x`, begun in `w`, has a rest left to do in another world. Its own steps are
taken by `Run.advance`, with the number and the stack of its thread, and between them others may do
whatever `R` tells. -/
inductive BecomesBy (R : World ρ σ π → List ε → World ρ σ π → Prop) {α : Type} (x : Run ρ σ π α)
    (w : World ρ σ π) : List ε → Run ρ σ π α → World ρ σ π → Prop
  | refl : BecomesBy R x w [] x w
  | others {rest : Run ρ σ π α} {v u : World ρ σ π} {events more : List ε}
      (h : BecomesBy R x w events rest v) (hmore : R v more u) : BecomesBy R x w (events ++ more) rest u
  | gaveWay {rest last : Run ρ σ π α} {v : World ρ σ π} {events : List ε}
      {thread : ThreadId} {stack : ResolveStack} (h : BecomesBy R x w events rest v)
      (hstep : rest.advance (v.switchTo thread stack) = .gaveWay last) : BecomesBy R x w events last v
  | stepped {rest last : Run ρ σ π α} {v u : World ρ σ π} {events more : List ε}
      {thread : ThreadId} {stack : ResolveStack} (h : BecomesBy R x w events rest v)
      (hstep : rest.advance (v.switchTo thread stack) = .stepped last u) (hmore : R v more u) :
      BecomesBy R x w (events ++ more) last u

/-- Alongside others, the computation comes to `a`: what is left of it, by `BecomesBy`, is `Run.done
a`. -/
def ComesToBy (R : World ρ σ π → List ε → World ρ σ π → Prop) (x : Run ρ σ π α) (w : World ρ σ π)
    (events : List ε) (a : α) (after : World ρ σ π) : Prop :=
  ∃ rest, x.BecomesBy R w events rest after ∧ rest.result? = some a

section

variable {R : World ρ σ π → List ε → World ρ σ π → Prop}
variable {x rest : Run ρ σ π α} {w v after : World ρ σ π} {events more : List ε} {a : α}

namespace BecomesBy

/-- What the others do before the computation begins counts as done alongside it, by the rule
`others` of `BecomesBy` at the start. -/
theorem before (hbefore : R w more v) (h : x.BecomesBy R v events rest after) :
    x.BecomesBy R w (more ++ events) rest after := by
  induction h with
  | refl =>
    rw [List.append_nil]
    exact refl.others hbefore
  | others _ hmore ih =>
    rw [← List.append_assoc]
    exact ih.others hmore
  | gaveWay _ hstep ih => exact ih.gaveWay hstep
  | stepped _ hstep hmore ih =>
    rw [← List.append_assoc]
    exact ih.stepped hstep hmore

/-- As long as the first is at work, so are the two: what `first` becomes stands before `next` in
the `Run.bind`. -/
theorem bind {first left : Run ρ σ π β} (h : first.BecomesBy R w events left after)
    (next : β → Run ρ σ π α) : (Run.bind first next).BecomesBy R w events (.bind left next) after := by
  induction h with
  | refl => exact .refl
  | others _ hmore ih => exact ih.others hmore
  | gaveWay _ hstep ih => exact ih.gaveWay (by rw [advance, hstep])
  | stepped _ hstep hmore ih => exact ih.stepped (by rw [advance, hstep]) hmore

theorem of_done {b : α} (h : (Run.done b : Run ρ σ π α).BecomesBy R w events rest after) :
    rest = .done b := by
  induction h with
  | refl => rfl
  | others _ _ ih => exact ih
  | gaveWay _ hstep ih =>
    rw [ih] at hstep
    cases hstep
  | stepped _ hstep _ ih =>
    rw [ih] at hstep
    cases hstep

/-- What two computations one after the other become, read backwards through `Run.bind`: it is what
the first becomes, or what the second does once the first has come to its end by `ComesToBy`. -/
theorem of_bind {first : Run ρ σ π β} {next : β → Run ρ σ π α}
    (h : (Run.bind first next).BecomesBy R w events rest after) :
    (∃ left, rest = .bind left next ∧ first.BecomesBy R w events left after) ∨
      ∃ b before more u, events = before ++ more ∧ first.ComesToBy R w before b u ∧
        (next b).BecomesBy R u more rest after := by
  -- at each event either the first is not through, or the second has taken over in a world on the way
  induction h with
  | refl => exact .inl ⟨first, rfl, .refl⟩
  | others _ hmore ih =>
    obtain ⟨left, rfl, hleft⟩ | ⟨b, before, after, u, rfl, hfirst, hnext⟩ := ih
    · exact .inl ⟨left, rfl, hleft.others hmore⟩
    · exact .inr ⟨b, before, _, u, List.append_assoc _ _ _, hfirst, hnext.others hmore⟩
  | gaveWay _ hstep ih =>
    obtain ⟨left, rfl, hleft⟩ | ⟨b, before, after, u, rfl, hfirst, hnext⟩ := ih
    · simp only [advance] at hstep
      split at hstep
      case h_1 b hended =>
        exact .inr ⟨b, _, [], _, (List.append_nil _).symm, ⟨left, hleft, advance_eq_ended_iff.1 hended⟩,
          .gaveWay .refl hstep⟩
      case h_2 => cases hstep
      case h_3 hfirst =>
        cases hstep
        exact .inl ⟨_, rfl, hleft.gaveWay hfirst⟩
      case h_4 => cases hstep
    · exact .inr ⟨b, before, _, u, rfl, hfirst, hnext.gaveWay hstep⟩
  | stepped _ hstep hmore ih =>
    obtain ⟨left, rfl, hleft⟩ | ⟨b, before, after, u, rfl, hfirst, hnext⟩ := ih
    · simp only [advance] at hstep
      split at hstep
      case h_1 b hended =>
        exact .inr ⟨b, _, _, _, rfl, ⟨left, hleft, advance_eq_ended_iff.1 hended⟩,
          .stepped .refl hstep hmore⟩
      case h_2 => cases hstep
      case h_3 => cases hstep
      case h_4 hfirst =>
        cases hstep
        exact .inl ⟨_, rfl, hleft.stepped hfirst hmore⟩
    · exact .inr ⟨b, before, _, u, List.append_assoc _ _ _, hfirst, hnext.stepped hstep hmore⟩

variable [IsAccount R]

theorem told (h : x.BecomesBy R w events rest after) : R w events after := by
  induction h with
  | refl => exact IsAccount.refl w
  | others _ hmore ih => exact IsAccount.trans ih hmore
  | gaveWay _ _ ih => exact ih
  | stepped _ _ hmore ih => exact IsAccount.trans ih hmore

/-- A computation of one `Run.step` has its step still to take, or has taken it at one moment, which
splits the account into what came before, its own part and what came later. -/
theorem of_step {take : World ρ σ π → Except Halt (α × World ρ σ π)}
    (h : (Run.step take).BecomesBy R w events rest after) :
    rest = .step take ∨ ∃ b before own later u v, rest = .done b ∧ events = before ++ (own ++ later) ∧
      R w before u ∧ take u = .ok (b, v) ∧ R u own v ∧ R v later after := by
  induction h with
  | refl => exact .inl rfl
  | others _ hmore ih =>
    obtain rfl | ⟨b, before, own, later, u, v, rfl, rfl, hbefore, htake, hown, hlater⟩ := ih
    · exact .inl rfl
    · exact .inr ⟨b, before, own, later ++ _, u, v, rfl, by simp only [List.append_assoc], hbefore, htake,
        hown, IsAccount.trans hlater hmore⟩
  | gaveWay _ hstep ih =>
    obtain rfl | ⟨b, _, _, _, _, _, rfl, _⟩ := ih
    · simp only [advance] at hstep
      split at hstep <;> cases hstep
    · cases hstep
  | @stepped _ _ v after events more thread stack hleft hstep hmore ih =>
    obtain rfl | ⟨b, _, _, _, _, _, rfl, _⟩ := ih
    · simp only [advance] at hstep
      split at hstep
      case h_1 => cases hstep
      case h_2 htake =>
        cases hstep
        -- the step is taken in the world of the thread, and neither way of switching is an event
        have hseen : R w (events ++ []) (v.switchTo thread stack) :=
          IsAccount.trans hleft.told (IsAccount.switchTo v thread stack)
        have hown : R (v.switchTo thread stack) ([] ++ more) after :=
          IsAccount.trans (IsAccount.switchTo _ v.thread v.stack) hmore
        rw [List.append_nil] at hseen
        exact .inr ⟨_, _, more, [], v.switchTo thread stack, after, rfl, by rw [List.append_nil], hseen, htake,
          hown, IsAccount.refl after⟩
    · cases hstep

end BecomesBy

namespace ComesToBy

theorem before (hbefore : R w more v) (h : x.ComesToBy R v events a after) :
    x.ComesToBy R w (more ++ events) a after := by
  obtain ⟨rest, hbecomes, hresult⟩ := h
  exact ⟨rest, hbecomes.before hbefore, hresult⟩

/-- What the others do after the end counts as done alongside, as in `BecomesBy.before` it does at
the start. -/
theorem afterwards {u : World ρ σ π} (h : x.ComesToBy R w events a v) (hafter : R v more u) :
    x.ComesToBy R w (events ++ more) a u := by
  obtain ⟨rest, hbecomes, hresult⟩ := h
  exact ⟨rest, hbecomes.others hafter, hresult⟩

theorem of_pure (a : α) (h : R w events after) : (pure a : Run ρ σ π α).ComesToBy R w events a after := by
  have hbecomes : (pure a : Run ρ σ π α).BecomesBy R w ([] ++ events) (pure a) after := .others .refl h
  exact ⟨_, hbecomes, rfl⟩

theorem pure {b : α} (h : (Pure.pure b : Run ρ σ π α).ComesToBy R w events a after) : a = b := by
  obtain ⟨rest, hbecomes, hresult⟩ := h
  rw [hbecomes.of_done] at hresult
  exact (Option.some.inj hresult).symm

/-- What the second becomes, once the first has come to its end, the two become together. Until the
second takes its first step, what is left of the first still stands before it, so the two agree by
`Run.advance` only. -/
theorem becomes {first : Run ρ σ π β} {next : β → Run ρ σ π α} {b : β} (hfirst : first.ComesToBy R w events b v)
    (h : (next b).BecomesBy R v more rest after) :
    ∃ whole, (Run.bind first next).BecomesBy R w (events ++ more) whole after ∧
      ∀ u, whole.advance u = rest.advance u := by
  obtain ⟨left, hleft, hb⟩ := hfirst
  induction h with
  | refl =>
    rw [List.append_nil]
    exact ⟨_, hleft.bind next, fun u => by rw [advance, advance_eq_ended_iff.2 hb]⟩
  | others _ hmore ih =>
    obtain ⟨whole, hwhole, hadvance⟩ := ih
    rw [← List.append_assoc]
    exact ⟨whole, hwhole.others hmore, hadvance⟩
  | gaveWay _ hstep ih =>
    obtain ⟨_, hwhole, hadvance⟩ := ih
    exact ⟨_, hwhole.gaveWay ((hadvance _).trans hstep), fun _ => rfl⟩
  | stepped _ hstep hmore ih =>
    obtain ⟨_, hwhole, hadvance⟩ := ih
    rw [← List.append_assoc]
    exact ⟨_, hwhole.stepped ((hadvance _).trans hstep) hmore, fun _ => rfl⟩

theorem followed {first : Run ρ σ π β} {next : β → Run ρ σ π α} {b : β} (hfirst : first.ComesToBy R w events b v)
    (hnext : (next b).ComesToBy R v more a after) :
    (first >>= next).ComesToBy R w (events ++ more) a after := by
  obtain ⟨rest, hrest, ha⟩ := hnext
  obtain ⟨whole, hwhole, hadvance⟩ := hfirst.becomes hrest
  exact ⟨whole, hwhole, advance_eq_ended_iff.1 ((hadvance after).trans (advance_eq_ended_iff.2 ha))⟩

/-- The one after the other come to their ends: `ComesToBy` of a `bind` is `ComesToBy` of the first
and then of the second, by `BecomesBy.of_bind`. -/
theorem bind {first : Run ρ σ π β} {next : β → Run ρ σ π α}
    (h : (first >>= next).ComesToBy R w events a after) :
    ∃ b before more u, events = before ++ more ∧ first.ComesToBy R w before b u ∧
      (next b).ComesToBy R u more a after := by
  obtain ⟨rest, hbecomes, hresult⟩ := h
  obtain ⟨left, rfl, hleft⟩ | ⟨b, before, more, u, rfl, hfirst, hnext⟩ := hbecomes.of_bind
  · rw [result?] at hresult
    split at hresult
    case h_1 => cases hresult
    case h_2 b hb =>
      exact ⟨b, events, [], after, (List.append_nil _).symm, ⟨left, hleft, hb⟩, _, .refl, hresult⟩
  · exact ⟨b, before, more, u, rfl, hfirst, rest, hnext, hresult⟩

variable [IsAccount R]

theorem told (h : x.ComesToBy R w events a after) : R w events after := by
  obtain ⟨_, hbecomes, _⟩ := h
  exact hbecomes.told

/-- A `Run.step` is taken at one moment, and has its own account `own`; before and after it others
come in. -/
theorem taken {take : World ρ σ π → Except Halt (α × World ρ σ π)}
    (h : (Run.step take).ComesToBy R w events a after) :
    ∃ before own later u v, events = before ++ (own ++ later) ∧ R w before u ∧
      take u = .ok (a, v) ∧ R u own v ∧ R v later after := by
  obtain ⟨rest, hbecomes, hresult⟩ := h
  obtain rfl | ⟨b, before, own, later, u, v, rfl, rfl, hbefore, htake, hown, hlater⟩ := hbecomes.of_step
  · cases hresult
  · cases hresult
    exact ⟨before, own, later, u, v, rfl, hbefore, htake, hown, hlater⟩

theorem now {f : World ρ σ π → α × World ρ σ π} (h : (Run.now f).ComesToBy R w events a after) :
    ∃ before more u, events = before ++ more ∧ R w before u ∧ a = (f u).1 ∧ R u more after := by
  obtain ⟨before, own, later, u, v, rfl, hbefore, htake, hown, hlater⟩ := taken h
  exact ⟨before, own ++ later, u, rfl, hbefore, (congrArg Prod.fst (Except.ok.inj htake)).symm,
    IsAccount.trans hown hlater⟩

theorem change {f : World ρ σ π → World ρ σ π} (h : (Run.change f).ComesToBy R w events () after) :
    ∃ before later u, events = before ++ later ∧ R w before u ∧ u.Changes R f later after := by
  obtain ⟨before, own, later, u, _, rfl, hbefore, htake, hown, hlater⟩ := taken h
  cases htake
  exact ⟨before, own ++ later, u, rfl, hbefore, own, later, rfl, hown, hlater⟩

theorem not_halt {reason : Halt} : ¬ (Run.halt reason : Run ρ σ π α).ComesToBy R w events a after := by
  intro h
  obtain ⟨_, _, _, _, _, _, _, htake, _⟩ := h.taken
  cases htake

end ComesToBy

end

end Run

/-! ### Threads -/

namespace Threads

namespace AccountedBy

variable {R : World ρ σ π → List ε → World ρ σ π → Prop} {s t : Threads ρ σ π α} {events : List ε}

/-- In every run, each thread is a computation alongside the others: by `Threads.AccountedBy`, what
is left of it is what it becomes by `Run.BecomesBy`. -/
theorem becomes (h : s.AccountedBy R events t) {index : Nat} {thread : Thread ρ σ π α}
    (hthread : s.threads[index]? = some thread) :
    ∃ later, t.threads[index]? = some later ∧
      thread.rest.BecomesBy R s.world events later.rest t.world := by
  induction h with
  | refl => exact ⟨thread, hthread, .refl⟩
  | @step t u other _ _ _ hstep hmore ih =>
    -- the turn of another thread is one more thing that happens beside this one
    obtain ⟨later, hlater, hbecomes⟩ := ih
    obtain ⟨mover, hmover, ⟨rest, hadvance, rfl⟩ | ⟨rest, v, hadvance, rfl⟩⟩ := Threads.step_cases hstep
    · by_cases heq : other = index
      · subst heq
        cases hmover.symm.trans hlater
        refine ⟨{ later with rest }, ?_, (hbecomes.others hmore).gaveWay hadvance⟩
        simp [leavePause, hlater]
      · refine ⟨later, ?_, hbecomes.others hmore⟩
        simp [leavePause, hlater, heq]
    · by_cases heq : other = index
      · subst heq
        cases hmover.symm.trans hlater
        refine ⟨{ id := v.thread, stack := v.stack, rest }, ?_, hbecomes.stepped hadvance hmore⟩
        have hlength : other < t.threads.length := (List.getElem?_eq_some_iff.1 hlater).1
        simp [moveOn, hlength]
      · refine ⟨later, ?_, hbecomes.others hmore⟩
        simp [moveOn, heq, hlater]

end AccountedBy

end Threads

/-! ### The account of the calls -/

namespace Run

/-- What the computation has left to do, by the account of the calls: `BecomesBy` for
`World.Passes`. -/
abbrev Becomes (x : Run ρ σ π α) (w : World ρ σ π) (calls : List (Call ρ σ π)) (rest : Run ρ σ π α)
    (after : World ρ σ π) : Prop :=
  x.BecomesBy World.Passes w calls rest after

/-- What the computation has come to, by the account of the calls: `ComesToBy` for
`World.Passes`. -/
abbrev ComesTo (x : Run ρ σ π α) (w : World ρ σ π) (calls : List (Call ρ σ π)) (a : α)
    (after : World ρ σ π) : Prop :=
  x.ComesToBy World.Passes w calls a after

end Run

end Wiring
