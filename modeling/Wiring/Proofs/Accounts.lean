import Mathlib.Data.List.Induction
import Wiring.Proofs.EachStep
import Wiring.Proofs.Edits

/-!
# Accounts of runs

The bindings of the injectors and the entries of the collections are changed by actions alone. What
the container does on its own account, when it resolves a key, keeps a value or lets another thread
run, leaves them as they are (`World.SameStock`). So an account of a run need only name the actions
in it, each with the world in which it is performed: `World.Passes` says that a world comes of
another by the calls of an account, in their order, and by whatever the container does in between.

Every run has an account, step by step, whatever the host's code does and however its threads take
turns (`Host.exists_accounted`). For that it does not matter how much an account tells
(`World.IsAccount`), only that it tells of each step of the engine.

* **`Passes.split`** — an account that has a call in it is one up to this call and one from there.
* **`Threads.accountedBy_of_reaches`** — induction on the steps that the threads have taken, for any
  account and any law `Run.ToldBy` of the steps.
* **`Threads.Accounted`** — the account of the calls, for which `Engine.obeys_accounted` goes
  through the steps of the engine.
-/

namespace Wiring

variable {ρ σ π ε α β : Type}

/-- An action, and the world in which it is performed; `Call.after` is what it leads to. -/
structure Call (ρ σ π : Type) where
  action : Action ρ σ π
  before : World ρ σ π

namespace Call

def reply (call : Call ρ σ π) : call.action.Answer :=
  (call.action.perform call.before).1

def after (call : Call ρ σ π) : World ρ σ π :=
  (call.action.perform call.before).2

end Call

namespace World

/-- The bindings of all injectors and the entries of all collections are the same, and so are the
numbers of objects that were added to lists without a key (`World.entered`). -/
structure SameStock (w after : World ρ σ π) : Prop where
  injectors : after.injectors.size = w.injectors.size
  bindings : ∀ id, (after.injector id).bindings = (w.injector id).bindings
  slots : w.slots.size ≤ after.slots.size
  rosters : after.rosters = w.rosters
  catalogs : after.catalogs = w.catalogs
  entered : after.entered = w.entered

/-- By the calls, and by what the container does on its own account in between (`SameStock`), the
one world comes of the other. -/
inductive Passes : World ρ σ π → List (Call ρ σ π) → World ρ σ π → Prop
  | refl (w : World ρ σ π) : Passes w [] w
  | call {w v : World ρ σ π} {calls : List (Call ρ σ π)} (h : Passes w calls v)
      (action : Action ρ σ π) : Passes w (calls ++ [⟨action, v⟩]) (action.perform v).2
  | own {w v u : World ρ σ π} {calls : List (Call ρ σ π)} (h : Passes w calls v)
      (hsame : v.SameStock u) : Passes w calls u

/-! ### What the container does on its own account -/

namespace SameStock

variable {w between after : World ρ σ π}

theorem trans (h : w.SameStock between) (h' : between.SameStock after) : w.SameStock after where
  injectors := h'.injectors.trans h.injectors
  bindings := fun id => (h'.bindings id).trans (h.bindings id)
  slots := Nat.le_trans h.slots h'.slots
  rosters := h'.rosters.trans h.rosters
  catalogs := h'.catalogs.trans h.catalogs
  entered := h'.entered.trans h.entered

theorem of_eq (hinjectors : after.injectors = w.injectors) (hslots : w.slots.size ≤ after.slots.size)
    (hrosters : after.rosters = w.rosters) (hcatalogs : after.catalogs = w.catalogs)
    (hentered : after.entered = w.entered) : w.SameStock after := by
  refine ⟨congrArg Array.size hinjectors, fun id => ?_, hslots, hrosters, hcatalogs, hentered⟩
  rw [World.injector, hinjectors]
  rfl

theorem refl (w : World ρ σ π) : w.SameStock w :=
  of_eq rfl (Nat.le_refl _) rfl rfl rfl

theorem note (w : World ρ σ π) (event : LogEvent) : w.SameStock (w.note event) :=
  of_eq rfl (Nat.le_refl _) rfl rfl rfl

theorem raise (w : World ρ σ π) (fault : Fault) :
    w.SameStock (w.raise fault : Except Fault α × World ρ σ π).2 :=
  note w _

theorem switchTo (w : World ρ σ π) (thread : ThreadId) (stack : ResolveStack) :
    w.SameStock (w.switchTo thread stack) :=
  of_eq rfl (Nat.le_refl _) rfl rfl rfl

theorem setSlot (w : World ρ σ π) (slot : SlotId) (s : Slot) : w.SameStock (w.setSlot slot s) :=
  of_eq rfl (Nat.le_of_eq (Array.size_setIfInBounds).symm) rfl rfl rfl

/-- What is changed in an injector is no binding, so the stock stays the same. -/
theorem modifyInjector (w : World ρ σ π) (id : InjectorId) {f : Injector ρ → Injector ρ}
    (hf : ∀ injector, (f injector).bindings = injector.bindings) :
    w.SameStock (w.modifyInjector id f) where
  injectors := Array.size_modify
  bindings := w.injector_modifyInjector id (·.bindings) hf
  slots := Nat.le_refl _
  rosters := rfl
  catalogs := rfl
  entered := rfl

theorem setWaits (w : World ρ σ π) (id : InjectorId) (waits : WaitGraph) :
    w.SameStock (w.setWaits id waits) :=
  modifyInjector w id fun _ => rfl

theorem pushKey (w : World ρ σ π) (key : Key) : w.SameStock (w.pushKey key).2 := by
  unfold World.pushKey
  split
  case h_1 => exact raise w _
  case h_2 => exact of_eq rfl (Nat.le_refl _) rfl rfl rfl

theorem awaitKey (w : World ρ σ π) (id : InjectorId) (key : Key) :
    w.SameStock (w.awaitKey id key).2 := by
  unfold World.awaitKey
  split
  case h_1 => exact raise w _
  case h_2 => exact setWaits w id _

theorem providerOf (w : World ρ σ π) (id : InjectorId) (key : Key) :
    w.SameStock (w.providerOf id key).2 := by
  unfold World.providerOf
  split
  case h_1 => exact raise w _
  case h_2 => exact raise w _
  case h_3 => exact refl w

theorem bindingOf (w : World ρ σ π) (id : InjectorId) (key : Key) :
    w.SameStock (w.bindingOf id key).2 := by
  unfold World.bindingOf
  split
  case h_1 => exact note w _
  case h_2 => exact refl w

theorem ordered (w : World ρ σ π) (roster : RosterId) : w.SameStock (w.ordered roster).2 := by
  unfold World.ordered
  split
  case h_1 => exact raise w _
  case h_2 => exact refl w

end SameStock

/-! ### Accounts put together -/

namespace Passes

variable {w v u : World ρ σ π} {calls more : List (Call ρ σ π)} {call : Call ρ σ π}

theorem trans (h : w.Passes calls v) (h' : v.Passes more u) : w.Passes (calls ++ more) u := by
  induction h' with
  | refl => rwa [List.append_nil]
  | call _ action ih =>
    rw [← List.append_assoc]
    exact ih.call action
  | own _ hsame ih => exact ih.own hsame

theorem of_sameStock (h : w.SameStock v) : w.Passes [] v :=
  (refl w).own h

/-- What a call is performed in comes of the calls before it, and the rest comes of what it leads
to: an account can be cut at any of its calls. -/
theorem split {earlier later : List (Call ρ σ π)} (h : w.Passes (earlier ++ call :: later) u) :
    w.Passes earlier call.before ∧ call.after.Passes later u := by
  generalize hcalls : earlier ++ call :: later = calls at h
  induction h generalizing later with
  | refl => simp at hcalls
  | own h hsame ih =>
    obtain ⟨hfirst, hrest⟩ := ih hcalls
    exact ⟨hfirst, hrest.own hsame⟩
  | call h action ih =>
    cases later using List.reverseRecOn with
    | nil =>
      obtain ⟨rfl, hlast⟩ := List.append_inj' hcalls rfl
      cases hlast
      exact ⟨h, refl _⟩
    | append_singleton later last _ =>
      rw [← List.cons_append, ← List.append_assoc] at hcalls
      obtain ⟨rfl, hlast⟩ := List.append_inj' hcalls rfl
      cases hlast
      obtain ⟨hfirst, hrest⟩ := ih rfl
      exact ⟨hfirst, hrest.call action⟩

end Passes

/-- Performs actions one after the other, and accounts for them by the calls that these are. -/
def performAll (w : World ρ σ π) : List (Action ρ σ π) → List (Call ρ σ π) × World ρ σ π
  | [] => ([], w)
  | action :: rest =>
    let (calls, after) := (action.perform w).2.performAll rest
    (⟨action, w⟩ :: calls, after)

theorem passes_performAll (w : World ρ σ π) (actions : List (Action ρ σ π)) :
    w.Passes (w.performAll actions).1 (w.performAll actions).2 := by
  induction actions generalizing w with
  | nil => exact .refl w
  | cons action rest ih => exact ((Passes.refl w).call action).trans (ih _)

theorem map_action_performAll (w : World ρ σ π) (actions : List (Action ρ σ π)) :
    (w.performAll actions).1.map (·.action) = actions := by
  induction actions generalizing w with
  | nil => rfl
  | cons action rest ih => exact congrArg (action :: ·) (ih _)

end World

/-! ### Accounts step by step -/

namespace World

/-- What lies between one world and another is told piece by piece, and it does not matter on which
thread the world is seen. `World.Passes` and `World.Unfolds` are accounts. -/
class IsAccount (R : World ρ σ π → List ε → World ρ σ π → Prop) : Prop where
  refl : ∀ w, R w [] w
  trans : ∀ {w v after : World ρ σ π} {events more : List ε}, R w events v → R v more after →
    R w (events ++ more) after
  switchTo : ∀ w thread stack, R w [] (w.switchTo thread stack)

instance : IsAccount (Passes : World ρ σ π → List (Call ρ σ π) → World ρ σ π → Prop) where
  refl := .refl
  trans := .trans
  switchTo _ _ _ := .of_sameStock (.switchTo _ _ _)

end World

namespace Run

variable {R : World ρ σ π → List ε → World ρ σ π → Prop}

/-- What the step does is accounted for, in whatever world it is taken. This is a law for
`Run.Each`. -/
def ToldBy (R : World ρ σ π → List ε → World ρ σ π → Prop) (α : Type)
    (take : World ρ σ π → Except Halt (α × World ρ σ π)) : Prop :=
  ∀ w a after, take w = .ok (a, after) → ∃ events, R w events after

theorem toldBy_of_advance {x rest : Run ρ σ π α} {w after : World ρ σ π} (h : x.Each (ToldBy R))
    (hstep : x.advance w = .stepped rest after) : ∃ events, R w events after := by
  induction x with
  | done _ => cases hstep
  | pause _ => cases hstep
  | step take =>
    simp only [advance] at hstep
    split at hstep
    case h_1 => cases hstep
    case h_2 htake =>
      cases hstep
      exact h w _ _ htake
  | bind first next ihf ihn =>
    simp only [advance] at hstep
    split at hstep
    case h_1 b _ => exact ihn b (h.2 b) hstep
    case h_2 => cases hstep
    case h_3 => cases hstep
    case h_4 hfirst =>
      cases hstep
      exact ihf h.1 hfirst

theorem toldBy_now {f : World ρ σ π → α × World ρ σ π} (h : ∀ w, R w [] (f w).2) :
    (Run.now f).Each (ToldBy R) := by
  intro w a after heq
  have hafter := h w
  rw [Except.ok.inj heq] at hafter
  exact ⟨[], hafter⟩

theorem toldBy_takeSlot [World.IsAccount R] {slot : SlotId} (h : ∀ w, R w [] (w.setSlot slot .busy)) :
    (Engine.takeSlot slot).Each (ToldBy R) := by
  intro w taken after heq
  simp only at heq
  split at heq
  case h_1 =>
    cases heq
    exact ⟨[], World.IsAccount.refl w⟩
  case h_2 =>
    cases heq
    exact ⟨[], h w⟩
  case h_3 => cases heq

end Run

namespace Threads

/-- An interleaving of steps leads from the one state to the other, as `Threads.Reaches` has it, and
each step in its turn is accounted for. -/
inductive AccountedBy (R : World ρ σ π → List ε → World ρ σ π → Prop) (s : Threads ρ σ π α) :
    List ε → Threads ρ σ π α → Prop
  | refl : AccountedBy R s [] s
  | step {t u : Threads ρ σ π α} {index : Nat} {events more : List ε} (h : AccountedBy R s events t)
      (hstep : t.step index = .ok u) (hmore : R t.world more u.world) : AccountedBy R s (events ++ more) u

variable {R : World ρ σ π → List ε → World ρ σ π → Prop} {s t : Threads ρ σ π α} {events : List ε}

namespace AccountedBy

theorem told [World.IsAccount R] (h : s.AccountedBy R events t) : R s.world events t.world := by
  induction h with
  | refl => exact World.IsAccount.refl _
  | step _ _ hmore ih => exact World.IsAccount.trans ih hmore

/-- What is accounted for is, with less to be told. -/
theorem mono {R' : World ρ σ π → List ε → World ρ σ π → Prop} (h : s.AccountedBy R events t)
    (hless : ∀ {w events after}, R w events after → R' w events after) : s.AccountedBy R' events t := by
  induction h with
  | refl => exact .refl
  | step _ hstep hmore ih => exact ih.step hstep (hless hmore)

end AccountedBy

variable [World.IsAccount R]

/-- One step is accounted for, and so can be the next, by `Threads.step_cases`. -/
theorem toldBy_of_step (h : s.Each (Run.ToldBy R)) {index : Nat} (hstep : s.step index = .ok t) :
    (∃ events, R s.world events t.world) ∧ t.Each (Run.ToldBy R) := by
  have hrest := h.next index
  obtain ⟨thread, hthread, hcases⟩ := step_cases hstep
  rw [next_of_getElem? hthread] at hrest
  rcases hcases with ⟨rest, hadvance, rfl⟩ | ⟨rest, v, hadvance, rfl⟩
  · rw [hadvance] at hrest
    exact ⟨⟨[], World.IsAccount.refl _⟩, h.leavePause hrest index⟩
  · rw [hadvance] at hrest
    refine ⟨?_, h.moveOn hrest index v⟩
    obtain ⟨events, hevents⟩ :=
      Run.toldBy_of_advance (h thread (List.mem_of_getElem? hthread)) hadvance
    exact ⟨_, World.IsAccount.trans (World.IsAccount.switchTo s.world thread.id thread.stack) hevents⟩

/-- However threads take turns, there is an account of it if there is one of each step: by induction
on `Threads.Reaches`. -/
theorem accountedBy_of_reaches (h : s.Each (Run.ToldBy R)) (hreaches : s.Reaches t) :
    (∃ events, s.AccountedBy R events t) ∧ t.Each (Run.ToldBy R) := by
  induction hreaches with
  | refl => exact ⟨⟨[], .refl⟩, h⟩
  | step _ hstep ih =>
    obtain ⟨⟨events, hevents⟩, hrest⟩ := ih
    obtain ⟨⟨more, hmore⟩, hleft⟩ := toldBy_of_step hrest hstep
    exact ⟨⟨_, hevents.step hstep hmore⟩, hleft⟩

end Threads

/-- What tasks do together is accounted for if each step of them is, for by
`Threads.reaches_of_play` they take steps in turns. -/
theorem Run.toldBy_together {R : World ρ σ π → List ε → World ρ σ π → Prop} [World.IsAccount R]
    (hstart : ∀ (w : World ρ σ π) count, R w [] { w with threads := w.threads + count })
    {tasks : List (Run ρ σ π α)} (h : ∀ task ∈ tasks, task.Each (Run.ToldBy R)) (steps : Nat) :
    (Run.together steps tasks).Each (Run.ToldBy R) := by
  intro w results after heq
  simp only at heq
  split at heq
  case h_1 => cases heq
  case h_2 s hplay =>
    split at heq
    case h_1 => cases heq
    case h_2 =>
      cases heq
      obtain ⟨⟨events, hevents⟩, _⟩ :=
        Threads.accountedBy_of_reaches (Threads.each_start h w) (Threads.reaches_of_play hplay)
      have hbegun := World.IsAccount.trans (hstart w tasks.length) hevents.told
      exact ⟨_, World.IsAccount.trans hbegun (World.IsAccount.switchTo _ w.thread w.stack)⟩

/-! ### The account of the calls -/

/-- The computation is accountable if each step of it, in any world, passes by some calls
(`World.Passes`): it is `ToldBy` that account. -/
abbrev Run.Accountable (x : Run ρ σ π α) : Prop :=
  x.Each (Run.ToldBy World.Passes)

/-- An interleaving with its calls, by `AccountedBy` for what `World.Passes` tells. -/
abbrev Threads.Accounted (s : Threads ρ σ π α) (calls : List (Call ρ σ π)) (t : Threads ρ σ π α) : Prop :=
  s.AccountedBy World.Passes calls t

namespace Threads

theorem sameStock_start (w : World ρ σ π) (tasks : List (Run ρ σ π α)) :
    w.SameStock (start w tasks).world :=
  .of_eq rfl (Nat.le_refl _) rfl rfl rfl

end Threads

/-! ### The steps of the engine -/

namespace Engine

open Run World

theorem accounted_now {f : World ρ σ π → α × World ρ σ π} (h : ∀ w, SameStock w (f w).2) :
    (Run.now f).Accountable :=
  toldBy_now fun w => .of_sameStock (h w)

/-- An action accounts for itself, and no other step changes the stock, so the steps of the engine
have the account of the calls. -/
theorem obeys_accounted : Engine.Obeys (Run.ToldBy (World.Passes : World ρ σ π → _ → _ → Prop)) where
  halt _ _ _ _ _ heq := nomatch heq
  act action w a after heq := by
    have hcall := (Passes.refl w).call action
    rw [Except.ok.inj heq] at hcall
    exact ⟨_, hcall⟩
  note _ := accounted_now fun w => .note w _
  noteList _ _ := accounted_now fun w => .note w _
  hooks _ _ := accounted_now .refl
  rows _ := accounted_now .refl
  installed _ _ := accounted_now .refl
  markInstalled id _ := accounted_now fun w => .modifyInjector w id fun _ => rfl
  ordered roster := accounted_now (SameStock.ordered · roster)
  takeSlot _ := toldBy_takeSlot fun w => .of_sameStock (.setSlot w _ _)
  setSlot slot kept := accounted_now (SameStock.setSlot · slot kept)
  awaitKey id key := accounted_now (SameStock.awaitKey · id key)
  stopAwaiting id _ := accounted_now fun w => .setWaits w id _
  startProducing id _ := accounted_now fun w => .setWaits w id _
  stopProducing id _ := accounted_now fun w => .setWaits w id _
  fork := accounted_now fun _ => .of_eq rfl (Nat.le_refl _) rfl rfl rfl
  switchTo _ _ := accounted_now fun w => .switchTo w _ _
  together steps _ h := toldBy_together
    (fun _ _ => .of_sameStock (.of_eq rfl (Nat.le_refl _) rfl rfl rfl)) h steps

end Engine

namespace Host

variable (host : Host ρ σ π) (fuel : Nat)

theorem accountable_answer (request : Request ρ σ π) : (host.answer fuel request).Accountable :=
  host.each_answer Engine.obeys_accounted fuel request

/-- Whatever code of the host runs on however many threads, every state that they reach has an
account, by `obeys_accounted` and `accountedBy_of_reaches`. -/
theorem exists_accounted (w : World ρ σ π) (codes : List (Code ρ σ π α)) {t : Threads ρ σ π α}
    (h : (Threads.start w (codes.map (host.run fuel))).Reaches t) :
    ∃ calls, (Threads.start w (codes.map (host.run fuel))).Accounted calls t := by
  refine (Threads.accountedBy_of_reaches (Threads.each_start (fun task htask => ?_) w) h).1
  obtain ⟨code, _, rfl⟩ := List.mem_map.1 htask
  exact Run.composes_each.code (host.each_answer Engine.obeys_accounted fuel) code

end Host

end Wiring
