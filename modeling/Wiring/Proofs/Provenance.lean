import Wiring.Proofs.Unfolding
import Wiring.Proofs.Yields

/-!
# Where kept values come from

A value is kept in one place of the engine alone: where the production of its wrapper gives the slot
back, with what the delegate of the wrapper has come to. To see that, it takes the steps of a
computation together with what it has done before (`Run.Steps`), and the engine is gone through once
more (`Host.vouched`). So every run on however many threads, with however many of them started on
the way, has an account that tells of the values that are kept, and each of them was made for its
slot in that run (`Threads.vouched_of_reaches`).

* **`Host.MadeFor`** — the wrapper of a slot has been asked, and its delegate has come to the object
  since.
* **`World.Vouches`** — an account in which each value that is kept has such an origin;
  `Vouches.between` puts two together.
* **`Host.vouched_single`** — the one place where a value is kept; all other parts keep none.
-/

namespace Wiring

variable {ρ σ π α β : Type}

namespace World

variable {made made' : List (Event ρ σ π) → SlotId → Ref → Prop} {earlier events more : List (Event ρ σ π)}
variable {w v after : World ρ σ π}

/-- By the events, the one world comes of the other by `Unfolds`. What is kept in a slot was `made`
by then, counting the `earlier` events. -/
structure Vouches (made : List (Event ρ σ π) → SlotId → Ref → Prop) (earlier : List (Event ρ σ π))
    (w : World ρ σ π) (events : List (Event ρ σ π)) (after : World ρ σ π) : Prop where
  unfolds : w.Unfolds events after
  made : ∀ before slot object later, events = before ++ .kept slot object :: later →
    made (earlier ++ before) slot object

namespace Vouches

theorem quiet (h : w.Quiet after) : w.Vouches made earlier [] after where
  unfolds := .of_quiet h
  made before slot object later hevents := by simp at hevents

theorem call (action : Action ρ σ π) (w : World ρ σ π) :
    w.Vouches made earlier [.call ⟨action, w⟩] (action.perform w).2 where
  unfolds := (Unfolds.refl w).call action
  made before slot object later hevents := by
    cases before with
    | nil => cases hevents
    | cons first rest => simp at hevents

theorem keep {slot : SlotId} {object : Ref} (h : made earlier slot object) :
    w.Vouches made earlier [.kept slot object] (w.setSlot slot (.filled object)) where
  unfolds := (Unfolds.refl w).keep slot object
  made before slot object later hevents := by
    cases before with
    | nil =>
      cases hevents
      rwa [List.append_nil]
    | cons first rest => simp at hevents

theorem trans (h : w.Vouches made earlier events v) (h' : v.Vouches made (earlier ++ events) more after) :
    w.Vouches made earlier (events ++ more) after where
  unfolds := h.unfolds.trans h'.unfolds
  made before slot object later hevents := by
    obtain ⟨middle, rfl, hmore⟩ | ⟨middle, rfl, hlater⟩ := List.append_eq_append_iff.1 hevents
    · rw [← List.append_assoc]
      exact h'.made middle slot object later hmore
    · cases middle with
      | nil =>
        have hmade := h'.made [] slot object later hlater.symm
        rwa [List.append_nil, List.append_nil] at hmade
      | cons first rest =>
        obtain ⟨rfl, rfl⟩ := List.cons_eq_cons.1 hlater
        exact h.made before slot object rest rfl

/-- Nothing of note comes before or after: `Quiet` changes keep no value. -/
theorem between {u : World ρ σ π} (hbefore : w.Quiet u) (h : u.Vouches made earlier events v)
    (hafter : v.Quiet after) : w.Vouches made earlier events after where
  unfolds := ((Unfolds.of_quiet hbefore).trans h.unfolds).own hafter
  made := h.made

theorem mono {earlier' : List (Event ρ σ π)} (h : w.Vouches made earlier events after)
    (hmade : ∀ before slot object u, w.Unfolds before u → made (earlier ++ before) slot object →
      made' (earlier' ++ before) slot object) :
    w.Vouches made' earlier' events after where
  unfolds := h.unfolds
  made before slot object later hevents := by
    obtain ⟨u, hbefore, _⟩ := (hevents ▸ h.unfolds).split
    exact hmade before slot object u hbefore (h.made before slot object later hevents)

end Vouches

end World

/-! ### Steps after others -/

namespace Run

open World

/-- Each step that the computation takes, begun in `w`, obeys the law, which may look at what has
happened since: the events, the world before the step, more events with it, and the world after
it. -/
def Steps (law : List (Event ρ σ π) → World ρ σ π → List (Event ρ σ π) → World ρ σ π → Prop)
    {α : Type} (x : Run ρ σ π α) (w : World ρ σ π) : Prop :=
  ∀ events rest v thread stack last after, x.BecomesBy Unfolds w events rest v →
    rest.advance (v.switchTo thread stack) = .stepped last after → ∃ more, law events v more after

namespace Steps

variable {law : List (Event ρ σ π) → World ρ σ π → List (Event ρ σ π) → World ρ σ π → Prop}
variable {w : World ρ σ π}

theorem done (a : α) : (Run.done a).Steps law w := by
  intro events rest v thread stack last after hbecomes hstep
  rw [hbecomes.of_done] at hstep
  cases hstep

theorem pause (a : α) : (Run.pause a).Steps law w := by
  intro events rest v thread stack last after hbecomes hstep
  have hrest : rest = .pause a ∨ rest = .done a := by
    clear hstep
    induction hbecomes with
    | refl => exact .inl rfl
    | others _ _ ih => exact ih
    | gaveWay _ hgave ih =>
      rcases ih with rfl | rfl
      · cases hgave
        exact .inr rfl
      · cases hgave
    | stepped _ htaken _ ih => rcases ih with rfl | rfl <;> cases htaken
  rcases hrest with rfl | rfl <;> cases hstep

theorem step {take : World ρ σ π → Except Halt (α × World ρ σ π)}
    (h : ∀ events v thread stack a after, w.Unfolds events v →
      take (v.switchTo thread stack) = .ok (a, after) → ∃ more, law events v more after) :
    (Run.step take).Steps law w := by
  intro events rest v thread stack last after hbecomes hstep
  obtain rfl | ⟨_, _, _, _, _, _, rfl, _⟩ := hbecomes.of_step
  · simp only [advance] at hstep
    split at hstep
    case h_1 => cases hstep
    case h_2 htake =>
      cases hstep
      exact h events v thread stack _ _ hbecomes.told htake
  · cases hstep

/-- The steps of the second come after what the first has come to, by `ComesToBy`. -/
theorem bind {first : Run ρ σ π β} {next : β → Run ρ σ π α} (hfirst : first.Steps law w)
    (hnext : ∀ b before u, first.ComesToBy Unfolds w before b u →
      (next b).Steps (fun events => law (before ++ events)) u) : (first >>= next).Steps law w := by
  intro events rest v thread stack last after hbecomes hstep
  obtain ⟨left, rfl, hleft⟩ | ⟨b, before, more, u, rfl, hcomes, hrest⟩ := hbecomes.of_bind
  · simp only [advance] at hstep
    split at hstep
    case h_1 b hended =>
      have hcomes : first.ComesToBy Unfolds w events b v := ⟨left, hleft, advance_eq_ended_iff.1 hended⟩
      have hlaw : ∃ more, law (events ++ []) v more after := hnext b events v hcomes _ _ _ _ _ _ _ .refl hstep
      rwa [List.append_nil] at hlaw
    case h_2 => cases hstep
    case h_3 => cases hstep
    case h_4 hadvance =>
      cases hstep
      exact hfirst _ _ _ _ _ _ _ hleft hadvance
  · exact hnext b before u hcomes _ _ _ _ _ _ _ hrest hstep

theorem mono {law' : List (Event ρ σ π) → World ρ σ π → List (Event ρ σ π) → World ρ σ π → Prop}
    {x : Run ρ σ π α} (h : x.Steps law w)
    (hlaw : ∀ events v more after, law events v more after → law' events v more after) :
    x.Steps law' w := by
  intro events rest v thread stack last after hbecomes hstep
  obtain ⟨more, hmore⟩ := h _ _ _ _ _ _ _ hbecomes hstep
  exact ⟨more, hlaw events v more after hmore⟩

/-- The second takes its steps once the first has come to its end, which is the other way round from
`bind`. -/
theorem second {first : Run ρ σ π β} {next : β → Run ρ σ π α} (h : (Run.bind first next).Steps law w) {b : β}
    {before : List (Event ρ σ π)} {u : World ρ σ π} (hcomes : first.ComesToBy Unfolds w before b u) :
    (next b).Steps (fun events => law (before ++ events)) u := by
  intro events rest v thread stack last after hbecomes hstep
  obtain ⟨whole, hwhole, hadvance⟩ := hcomes.becomes hbecomes
  exact h _ _ _ _ _ _ _ hwhole ((hadvance _).trans hstep)

/-- Steps that the law accounts for, taken with nobody else at work, lead to what the computation
comes to by `Run.run`. -/
theorem comesTo {x : Run ρ σ π α} (h : x.Steps law w)
    (hlaw : ∀ events v more after, law events v more after → v.Unfolds more after) {a : α}
    {after : World ρ σ π} (hrun : x.run w = .ok (a, after)) :
    ∃ events, x.ComesToBy Unfolds w events a after := by
  induction x generalizing w after law with
  | done b =>
    cases hrun
    exact ⟨[], _, .refl, rfl⟩
  | pause b =>
    cases hrun
    have hstep : (Run.pause b).advance (w.switchTo w.thread w.stack) = .gaveWay (.done b) := rfl
    exact ⟨[], _, .gaveWay .refl hstep, rfl⟩
  | step take =>
    -- the world is its own with the number and the stack of its thread
    have htake : take (w.switchTo w.thread w.stack) = .ok (a, after) := hrun
    have hstep : (Run.step take).advance (w.switchTo w.thread w.stack) = .stepped (.done a) after := by
      rw [advance, htake]
    obtain ⟨more, hmore⟩ := h _ _ _ _ _ _ _ .refl hstep
    exact ⟨_, _, .stepped .refl hstep (hlaw _ _ _ _ hmore), rfl⟩
  | bind first next ihFirst ihNext =>
    rw [run] at hrun
    cases hfirst : first.run w with
    | error reason =>
      rw [hfirst] at hrun
      cases hrun
    | ok made =>
      obtain ⟨b, v⟩ := made
      simp only [hfirst] at hrun
      have hsteps : first.Steps law w := fun _ _ _ _ _ _ _ hbecomes hstep =>
        h _ _ _ _ _ _ _ (hbecomes.bind next) (by rw [advance, hstep])
      obtain ⟨before, hbefore⟩ := ihFirst hsteps hlaw hfirst
      obtain ⟨more, hmore⟩ := ihNext b (h.second hbefore) (fun _ => hlaw _) hrun
      exact ⟨before ++ more, hbefore.followed hmore⟩

variable {made : List (Event ρ σ π) → SlotId → Ref → Prop}
variable {earlier : List (Event ρ σ π) → List (Event ρ σ π)}

theorem vouches_step {take : World ρ σ π → Except Halt (α × World ρ σ π)}
    (h : ∀ v a after, take v = .ok (a, after) → v.Quiet after) :
    (Run.step take).Steps (fun events v => v.Vouches made (earlier events)) w := by
  refine step fun events v thread stack a after _ htake => ⟨[], ?_⟩
  exact .quiet ((Quiet.switchTo v thread stack).trans (h _ _ _ htake))

theorem vouches_now {f : World ρ σ π → α × World ρ σ π} (h : ∀ v, Quiet v (f v).2) :
    (Run.now f).Steps (fun events v => v.Vouches made (earlier events)) w := by
  refine vouches_step fun v a after htake => ?_
  have hquiet := h v
  rwa [Except.ok.inj htake] at hquiet

/-- What has been made for it may be kept in a slot, by `Slot.keeping`. -/
theorem vouches_keeping {slot : SlotId} {outcome : Except Fault Ref}
    (hmade : ∀ object events, outcome = .ok object → made (earlier events) slot object) :
    (Run.change (·.setSlot slot (.keeping outcome))).Steps (fun events v => v.Vouches made (earlier events)) w := by
  refine step fun events v thread stack a after _ htake => ?_
  cases htake
  have hseen := Quiet.switchTo v thread stack
  cases outcome with
  | error fault => exact ⟨[], .quiet (hseen.trans (.setSlot _ slot nofun))⟩
  | ok object => exact ⟨_, .between hseen (.keep (hmade object events rfl)) (.refl _)⟩

end Steps

end Run

/-! ### Singletons -/

namespace Host

open World

variable {host : Host ρ σ π} {origin w : World ρ σ π} {earlier events more : List (Event ρ σ π)}
variable {id : InjectorId} {slot : SlotId} {key : Key} {type : ValueType} {delegate : Provider ρ}
variable {object : Ref} {fuel : Nat}

/-- In the course of the events, a production of the provider has come to the object. -/
def CameTo (host : Host ρ σ π) (id : InjectorId) (provider : Provider ρ) (w : World ρ σ π)
    (events : List (Event ρ σ π)) (object : Ref) : Prop :=
  ∃ fuel before during later u v, events = before ++ (during ++ later) ∧ w.Unfolds before u ∧
    (host.answer fuel (.produce id provider)).ComesToBy Unfolds u during (.ok object) v

/-- By the events, a wrapper that keeps its value in the slot has been asked for it, and its
delegate has come to the object since, by `CameTo`. -/
inductive MadeFor (host : Host ρ σ π) (origin : World ρ σ π) : List (Event ρ σ π) → SlotId → Ref → Prop
  | asked {id : InjectorId} {slot : SlotId} {key : Key} {type : ValueType} {delegate : Provider ρ} {fuel : Nat}
      {object : Ref} {before during : List (Event ρ σ π)} {w after : World ρ σ π}
      {rest : Run ρ σ π (Except Fault Ref)} (hbefore : origin.Unfolds before w)
      (hget : (host.answer fuel (.produce id (.singleton slot key type delegate))).BecomesBy Unfolds
        w during rest after)
      (hmade : host.CameTo id delegate w during object) : MadeFor host origin (before ++ during) slot object

/-- Whatever the computation does, in whatever run, there is an account of it, and what it keeps in
a slot was made for it in the course of the run: its `Steps` obey `Vouches` for `MadeFor`. -/
def Vouched (host : Host ρ σ π) (α : Type) (x : Run ρ σ π α) : Prop :=
  ∀ origin earlier w, origin.Unfolds earlier w →
    x.Steps (fun events v => v.Vouches (host.MadeFor origin) (earlier ++ events)) w

theorem vouched_composes (host : Host ρ σ π) : Run.Composes host.Vouched where
  done a _ _ _ _ := .done a
  pause a _ _ _ _ := .pause a
  bind {α β first next} hfirst hnext := by
    intro origin earlier w horigin
    refine .bind (hfirst origin earlier w horigin) fun b before u hcomes => ?_
    refine (hnext b origin (earlier ++ before) u (horigin.trans hcomes.told)).mono ?_
    intro events v more after h
    rwa [List.append_assoc] at h

theorem vouched_now {f : World ρ σ π → α × World ρ σ π} (h : ∀ v, Quiet v (f v).2) :
    host.Vouched α (Run.now f) :=
  fun _ _ _ _ => .vouches_now h

/-! What a singleton does is followed from where it is asked for its value, in `w`. By the time that a
value is kept in its slot, its delegate has come to it since (`MadeSince`). -/

/-- What was made for a slot in the run by `MadeFor`, or for this one since `w`. -/
def MadeSince (host : Host ρ σ π) (origin : World ρ σ π) (earlier : List (Event ρ σ π)) (id : InjectorId)
    (slot : SlotId) (delegate : Provider ρ) (w : World ρ σ π) (events : List (Event ρ σ π)) (other : SlotId)
    (object : Ref) : Prop :=
  host.MadeFor origin (earlier ++ events) other object ∨ other = slot ∧ host.CameTo id delegate w events object

theorem vouches_initialise (h : ∀ request, host.Vouched _ (host.answer fuel request))
    (horigin : origin.Unfolds earlier w) {before : List (Event ρ σ π)} {u : World ρ σ π}
    (hbefore : w.Unfolds before u) :
    (Engine.initialise (host.answer fuel) id slot key type delegate).Steps (fun events v =>
      v.Vouches (host.MadeSince origin earlier id slot delegate w) (before ++ events)) u := by
  refine .bind (.vouches_now fun v => .setWaits v id _) fun _ first v hfirst => ?_
  refine .bind (.vouches_now fun v => .of_eq rfl rfl rfl) fun _ second x hsecond => ?_
  have hbegun : w.Unfolds (before ++ (first ++ second)) x :=
    hbefore.trans (hfirst.told.trans hsecond.told)
  refine .bind ?asked fun outcome during y hmade => ?_
  case asked =>
    refine (h (.produce id delegate) origin _ x (horigin.trans hbegun)).mono fun events v more after hv => ?_
    refine hv.mono fun _ other object _ _ hother => .inl ?_
    simpa only [List.append_assoc] using hother
  refine .bind (.vouches_now fun v => .setWaits v id _) fun _ third z _ => ?_
  -- what the delegate has come to is what the slot is to keep
  have hkept {object : Ref} {events : List (Event ρ σ π)} (houtcome : outcome = .ok object) :
      host.MadeSince origin earlier id slot delegate w
        (before ++ (first ++ (second ++ (during ++ (third ++ events))))) slot object := by
    cases houtcome
    exact .inr ⟨rfl, fuel, _, during, third ++ events, x, y, by simp only [List.append_assoc], hbegun, hmade⟩
  refine .bind ?back fun _ _ _ _ => .done _
  have hback {u : World ρ σ π} : (Run.change (·.setSlot slot (.keeping outcome))).Steps (fun events v =>
      v.Vouches (host.MadeSince origin earlier id slot delegate w)
        (before ++ (first ++ (second ++ (during ++ (third ++ events)))))) u :=
    .vouches_keeping fun _ _ => hkept
  cases outcome <;> exact hback

theorem vouches_takeSlot {law : List (Event ρ σ π) → SlotId → Ref → Prop}
    {before : List (Event ρ σ π) → List (Event ρ σ π)} {u : World ρ σ π} :
    (Engine.takeSlot slot : Run ρ σ π (Option Ref)).Steps (fun events v => v.Vouches law (before events)) u := by
  refine .vouches_step fun v taken after htake => ?_
  split at htake
  case h_1 =>
    cases htake
    exact .refl v
  case h_2 =>
    cases htake
    exact .setSlot v slot nofun
  case h_3 => cases htake

theorem vouches_await (h : ∀ request, host.Vouched _ (host.answer fuel request))
    (horigin : origin.Unfolds earlier w) {before : List (Event ρ σ π)} {u : World ρ σ π}
    (hbefore : w.Unfolds before u) :
    (Engine.await (host.answer fuel) id slot key type delegate).Steps (fun events v =>
      v.Vouches (host.MadeSince origin earlier id slot delegate w) (before ++ events)) u := by
  refine .bind (.vouches_now fun v => .awaitKey v id key) fun granted first v hfirst => ?_
  cases granted with
  | error _ => exact .done _
  | ok _ =>
    refine .bind ?made fun _ _ _ _ => .bind (.vouches_now fun v => .setWaits v id _) fun _ _ _ _ => .done _
    refine .bind vouches_takeSlot fun taken second x hsecond => ?_
    cases taken with
    | some object => exact .done _
    | none =>
      have hbegun := hbefore.trans (hfirst.told.trans hsecond.told)
      refine (vouches_initialise h horigin hbegun).mono fun events v more after hv => ?_
      simpa only [List.append_assoc] using hv

/-- A singleton keeps a value in no slot but its own, and what its delegate has come to since it was
asked: `Engine.single` keeps a value only by `Engine.initialise`. -/
theorem vouched_single (h : ∀ request, host.Vouched _ (host.answer fuel request)) (id : InjectorId)
    (slot : SlotId) (key : Key) (type : ValueType) (delegate : Provider ρ) :
    host.Vouched _ (Engine.single (host.answer fuel) id slot key type delegate) := by
  intro origin earlier w horigin
  have hsteps : (Engine.single (host.answer fuel) id slot key type delegate).Steps (fun events v =>
      v.Vouches (host.MadeSince origin earlier id slot delegate w) events) w := by
    refine .bind (.vouches_now .refl) fun state before u hbefore => ?_
    cases state with
    | filled object => exact .done _
    | empty => exact vouches_await h horigin hbefore.told
    | busy => exact vouches_await h horigin hbefore.told
  intro events rest v thread stack last after hbecomes hstep
  obtain ⟨more, hmore⟩ := hsteps events rest v thread stack last after hbecomes hstep
  refine ⟨more, hmore.mono fun before other object u hbefore hmade => ?_⟩
  rw [List.append_assoc]
  obtain hmade | ⟨rfl, hcame⟩ := hmade
  · exact hmade
  · have hget : (host.answer (fuel + 1) (.produce id (.singleton other key type delegate))).BecomesBy Unfolds w
        (events ++ before) rest u := hbecomes.others hbefore
    exact .asked horigin hget hcame

end Host

/-! ### Runs -/

namespace Threads

open World

variable {s t : Threads ρ σ π α} {events : List (Event ρ σ π)}

theorem AccountedBy.length {ε : Type} {R : World ρ σ π → List ε → World ρ σ π → Prop} {events : List ε}
    (h : s.AccountedBy R events t) : t.threads.length = s.threads.length := by
  induction h with
  | refl => rfl
  | step _ hstep _ ih =>
    refine Eq.trans ?_ ih
    obtain ⟨_, _, ⟨_, _, rfl⟩ | ⟨_, _, _, rfl⟩⟩ := step_cases hstep
    · exact List.length_modify _ _ _
    · exact List.length_set

/-- However the threads take turns, there is an account of it, and what is kept in a slot was made
for it by then. By induction on `Threads.Reaches`. -/
theorem vouched_of_reaches {host : Host ρ σ π} {origin : World ρ σ π} {earlier : List (Event ρ σ π)}
    (horigin : origin.Unfolds earlier s.world) (h : ∀ thread ∈ s.threads, host.Vouched α thread.rest)
    (hreaches : s.Reaches t) :
    ∃ events, s.AccountedBy Unfolds events t ∧
      s.world.Vouches (host.MadeFor origin) earlier events t.world := by
  induction hreaches with
  | refl => exact ⟨[], .refl, .quiet (.refl _)⟩
  | @step t u index _ hstep ih =>
    obtain ⟨events, haccounted, hvouches⟩ := ih
    obtain ⟨more, hmore⟩ : ∃ more, t.world.Vouches (host.MadeFor origin) (earlier ++ events) more u.world := by
      obtain ⟨mover, hlater, ⟨_, _, rfl⟩ | ⟨rest, v, hadvance, rfl⟩⟩ := step_cases hstep
      · exact ⟨[], .quiet (.refl _)⟩
      -- the thread has been at work since the beginning
      · have hindex : index < s.threads.length :=
          haccounted.length ▸ (List.getElem?_eq_some_iff.1 hlater).1
        have hthread := List.getElem?_eq_getElem hindex
        obtain ⟨_, hsame, hbecomes⟩ := haccounted.becomes hthread
        cases hsame.symm.trans hlater
        exact h _ (List.getElem_mem hindex) origin earlier s.world horigin _ _ _ _ _ _ _ hbecomes hadvance
    exact ⟨events ++ more, haccounted.step hstep hmore.unfolds, hvouches.trans hmore⟩

theorem mem_startAll {id : ThreadId} {tasks : List (Run ρ σ π α)} {thread : Thread ρ σ π α}
    (h : thread ∈ Thread.startAll id tasks) : thread.rest ∈ tasks := by
  induction tasks generalizing id with
  | nil => cases h
  | cons task tasks ih =>
    cases h with
    | head => exact List.mem_cons_self
    | tail _ h => exact List.mem_cons_of_mem _ (ih h)

end Threads

namespace Host

open World

variable {host : Host ρ σ π}

theorem vouched_together {tasks : List (Run ρ σ π α)} (h : ∀ task ∈ tasks, host.Vouched α task)
    (steps : Nat) : host.Vouched _ (Run.together steps tasks) := by
  intro origin earlier w horigin
  refine .step fun events v thread stack results after hevents htake => ?_
  split at htake
  case h_1 => cases htake
  case h_2 s hplay =>
    split at htake
    case h_1 => cases htake
    case h_2 =>
      cases htake
      have hstart : v.Quiet (Threads.start (v.switchTo thread stack) tasks).world := .of_eq rfl rfl rfl
      have hbegun : origin.Unfolds (earlier ++ events) (Threads.start (v.switchTo thread stack) tasks).world :=
        (horigin.trans hevents).own hstart
      obtain ⟨more, _, hmore⟩ := Threads.vouched_of_reaches hbegun
        (fun _ hthread => h _ (Threads.mem_startAll hthread)) (Threads.reaches_of_play hplay)
      exact ⟨more, .between hstart hmore (.of_eq rfl rfl rfl)⟩

/-- Whatever is asked for, there is an account of all that is done for it, and of the values that
are kept; the engine `Respects` this, and only singletons take more than a step. -/
theorem vouched (host : Host ρ σ π) : Engine.Respects host host.Vouched where
  toComposes := host.vouched_composes
  halt _ _ _ _ _ _ := .step fun _ _ _ _ _ _ _ htake => nomatch htake
  act action _ _ _ _ := .step fun _ v thread stack _ after _ htake => by
    have hafter : (action.perform (v.switchTo thread stack)).2 = after := congrArg Prod.snd (Except.ok.inj htake)
    rw [← hafter]
    exact ⟨_, .between (.switchTo v thread stack) (.call action _) (.refl _)⟩
  note _ := vouched_now fun _ => .of_eq rfl rfl rfl
  noteList _ _ := vouched_now fun _ => .of_eq rfl rfl rfl
  hooks _ _ := vouched_now .refl
  rows _ := vouched_now .refl
  installed _ _ := vouched_now .refl
  markInstalled id _ := vouched_now fun w => .modifyInjector w id (fun _ => rfl) fun _ => rfl
  ordered roster := vouched_now (Quiet.ordered · roster)
  fork := vouched_now fun _ => .of_eq rfl rfl rfl
  switchTo _ _ := vouched_now fun _ => .of_eq rfl rfl rfl
  single := vouched_single
  together := vouched_together

/-- Whatever code of the host runs on however many threads, every state that they reach has an
account, which tells of the values that are kept, by `vouched_of_reaches`. -/
theorem exists_vouched (host : Host ρ σ π) (fuel : Nat) (w : World ρ σ π) (codes : List (Code ρ σ π α))
    {t : Threads ρ σ π α} (h : (Threads.start w (codes.map (host.run fuel))).Reaches t) :
    let start := Threads.start w (codes.map (host.run fuel))
    ∃ events, start.AccountedBy Unfolds events t ∧
      start.world.Vouches (host.MadeFor start.world) [] events t.world := by
  refine Threads.vouched_of_reaches (.refl _) (fun thread hthread => ?_) h
  obtain ⟨code, _, hcode⟩ := List.mem_map.1 (Threads.mem_startAll hthread)
  rw [← hcode]
  exact host.vouched_composes.code (host.vouched.answer fuel) code

/-- What is answered to a request alone, by `Run.run`, it comes to alongside nobody, by
`ComesToBy`. -/
theorem comesTo_of_run {fuel : Nat} {request : Request ρ σ π} {w after : World ρ σ π} {reply : request.Answer}
    (h : (host.answer fuel request).run w = .ok (reply, after)) :
    ∃ events, (host.answer fuel request).ComesToBy Unfolds w events reply after :=
  (host.vouched.answer fuel request w [] w (.refl w)).comesTo (fun _ _ _ _ hvouches => hvouches.unfolds) h

end Host

end Wiring
