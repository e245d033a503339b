import Wiring.Engine

/-!
# What holds of each step

A computation is put together from single steps. What holds of computations one after the other as
soon as it holds of each (`Run.Composes`) holds of all that the engine puts together, if it holds of
the steps that the engine takes on its own account, of singletons and of what tasks do together:
`Engine.Respects` goes through its parts, and so it holds of whatever the host's code asks for
(`Engine.Respects.answer`).

A law that each step of a computation obeys (`Run.Each`) is of that kind, and it is obeyed by the
steps that are left when some have been taken. The parts of the engine take few kinds of steps
(`Engine.Obeys`), and a law of these is one of all that is answered (`Host.each_answer`).

* **`Run.Composes`** — a property that a result has, and `Run.bind` of computations that have it.
* **`Threads.Each`** — the same law for what is left of each thread.
-/

namespace Wiring

variable {ρ σ π α β : Type}
variable {law : (α : Type) → (World ρ σ π → Except Halt (α × World ρ σ π)) → Prop}

/-! ### What is put together of computations -/

namespace Run

/-- What holds of two computations holds of the one after the other, and of `Run.inTurn` and
`Run.through` therefore. -/
structure Composes (P : (α : Type) → Run ρ σ π α → Prop) : Prop where
  done : ∀ {α : Type} (a : α), P α (.done a)
  pause : ∀ {α : Type} (a : α), P α (.pause a)
  bind : ∀ {α β : Type} {first : Run ρ σ π β} {next : β → Run ρ σ π α}, P β first →
    (∀ b, P α (next b)) → P α (first >>= next)

namespace Composes

variable {P : (α : Type) → Run ρ σ π α → Prop} (c : Composes P)

include c

theorem inTurn {f : α → Run ρ σ π (Except Fault β)} (h : ∀ a, P _ (f a)) (items : List α) :
    P _ (Run.inTurn f items) := by
  induction items with
  | nil => exact c.done _
  | cons a rest ih =>
    refine c.bind (h a) fun outcome => ?_
    cases outcome with
    | error _ => exact c.done _
    | ok b =>
      refine c.bind ih fun outcomes => ?_
      cases outcomes <;> exact c.done _

theorem through {f : α → β → Run ρ σ π (Except Fault β)} (h : ∀ a b, P _ (f a b)) (items : List α)
    (b : β) : P _ (Run.through f items b) := by
  induction items generalizing b with
  | nil => exact c.done _
  | cons a rest ih =>
    refine c.bind (h a b) fun outcome => ?_
    cases outcome with
    | error _ => exact c.done _
    | ok b => exact ih b

theorem code {answer : (request : Request ρ σ π) → Run ρ σ π request.Answer}
    (h : ∀ request, P _ (answer request)) (code : Code ρ σ π α) : P _ (code.run answer) := by
  induction code with
  | done _ => exact c.done _
  | ask request next ih => exact c.bind (h request) ih

end Composes

end Run

/-! ### The parts of the engine -/

namespace Engine

/-- It holds of computations one after the other, of the steps that the engine takes, of singletons
if it holds of what they ask for, and of tasks together if it holds of each. -/
structure Respects (host : Host ρ σ π) (P : (α : Type) → Run ρ σ π α → Prop) : Prop
    extends Run.Composes P where
  halt : ∀ (α : Type) reason, P α (Run.halt reason)
  act : ∀ action : Action ρ σ π, P _ (Run.now action.perform)
  note : ∀ event, P _ (Run.change (·.note event))
  noteList : ∀ roster count,
    P _ (Run.change fun w => w.note (.producingList (w.roster roster).list count))
  hooks : ∀ id type, P _ (Run.now fun w => ((w.injector id).hooksOf type, w))
  rows : ∀ catalog, P _ (Run.now fun w => ((w.catalog catalog).entries.rows, w))
  installed : ∀ id kind, P _ (Run.now fun w => ((w.injector id).installed.contains kind, w))
  markInstalled : ∀ id kind, P _ (Run.change (·.markInstalled id kind))
  ordered : ∀ roster, P _ (Run.now (·.ordered roster))
  /-- A new thread is made, and runs. -/
  fork : P _ (Run.now fun w => ((w.thread, w.stack),
    { w with threads := w.threads + 1 }.switchTo w.threads []))
  switchTo : ∀ thread stack, P _ (Run.change (·.switchTo thread stack))
  single : ∀ {fuel : Nat}, (∀ request, P _ (host.answer fuel request)) →
    ∀ id slot key type delegate, P _ (single (host.answer fuel) id slot key type delegate)
  together : ∀ {tasks : List (Run ρ σ π (Except Fault Ref))}, (∀ task ∈ tasks, P _ task) →
    ∀ steps, P _ (Run.together steps tasks)

namespace Respects

variable {host : Host ρ σ π} {P : (α : Type) → Run ρ σ π α → Prop} (r : Respects host P)

section

variable {answer : (request : Request ρ σ π) → Run ρ σ π request.Answer}
variable (h : ∀ request, P _ (answer request))

include r h

theorem resolve (id : InjectorId) (key : Key) : P _ (resolve answer id key) := by
  refine r.bind (r.act (.pushKey key)) fun pushed => ?_
  cases pushed with
  | error _ => exact r.done _
  | ok _ =>
    refine r.bind (r.note _) fun _ => r.bind (r.act (.provider id key)) fun found => ?_
    cases found with
    | error _ => exact r.bind (r.done _) fun _ => r.bind (r.act .popKey) fun _ => r.done _
    | ok provider => exact r.bind (h (.produce id provider)) fun _ => r.bind (r.act .popKey) fun _ => r.done _

theorem injectMembers (id : InjectorId) (type : ValueType) (object : Ref) :
    P _ (injectMembers host answer id type object) :=
  r.bind (r.hooks id type) fun hooks => r.through (fun _ _ => r.code h _) hooks ()

theorem complete (id : InjectorId) (stage : Stage ρ) (object : Ref) :
    P _ (complete host answer id stage object) := by
  cases stage with
  | routine routine => exact r.code h _
  | memberInjection type =>
    refine r.bind (h (.injectMembers id type object)) fun outcome => ?_
    cases outcome <;> exact r.done _

theorem assembleList (id : InjectorId) (roster : RosterId) : P _ (assembleList answer id roster) := by
  refine r.bind (r.ordered roster) fun ordered => ?_
  cases ordered with
  | error _ => exact r.done _
  | ok entries =>
    refine r.bind (r.noteList roster _) fun _ => ?_
    have hproduce (entry : Entry (Provider ρ)) : P (Except Fault Ref) (answer (.produce id entry.provider)) :=
      h (.produce id entry.provider)
    refine r.bind (r.inTurn hproduce entries) fun outcome => ?_
    cases outcome with
    | error _ => exact r.done _
    | ok objects => exact r.bind (r.act (.allocate _)) fun _ => r.done _

theorem assembleMap (id : InjectorId) (catalog : CatalogId) : P _ (assembleMap answer id catalog) := by
  refine r.bind (r.rows catalog) fun rows => ?_
  have hproduce (row : String × Provider ρ) : P (Except Fault Ref) (answer (.produce id row.2)) :=
    h (.produce id row.2)
  refine r.bind (r.inTurn hproduce rows) fun outcome => ?_
  cases outcome with
  | error _ => exact r.done _
  | ok objects => exact r.bind (r.act (.allocate _)) fun _ => r.done _

theorem install (id : InjectorId) (module : ρ) : P _ (install host answer id module) := by
  refine r.bind (r.installed id _) fun known => ?_
  split
  · exact r.bind (r.note _) fun _ => r.done _
  · refine r.bind (r.markInstalled id _) fun _ => ?_
    refine r.bind (r.through (fun needed _ => h (.install id needed)) (host.imports module) ())
      fun outcome => ?_
    cases outcome with
    | error _ => exact r.done _
    | ok _ => exact r.bind (r.note _) fun _ => r.code h _

theorem resolveApart (id : InjectorId) (key : Key) : P _ (resolveApart answer id key) := by
  refine r.bind r.fork fun caller => ?_
  exact r.bind (h (.resolve id key)) fun _ => r.bind (r.switchTo _ _) fun _ => r.done _

end

section

variable {fuel : Nat} (h : ∀ request, P _ (host.answer fuel request))

include r h

theorem produce (id : InjectorId) (provider : Provider ρ) :
    P _ (produce host (host.answer fuel) id provider) := by
  cases provider with
  | fixed object => exact r.done _
  | factory type routine => exact r.bind (r.note _) fun _ => r.code h _
  | lookup key => exact h (.resolve id key)
  | decorating delegate stages =>
    refine r.bind (h (.produce id delegate)) fun outcome => ?_
    cases outcome with
    | error _ => exact r.done _
    | ok object => exact r.through (r.complete h id) stages object
  | singleton slot key type delegate => exact r.single h id slot key type delegate
  | list roster => exact r.assembleList h id roster
  | map catalog => exact r.assembleMap h id catalog

theorem step (steps : Nat) (request : Request ρ σ π) :
    P _ (step host steps (host.answer fuel) request) := by
  cases request with
  | act action => exact r.act action
  | resolve id key => exact r.resolve h id key
  | produce id provider => exact r.produce h id provider
  | injectMembers id type object => exact r.injectMembers h id type object
  | install id module => exact r.install h id module
  | resolveApart id key => exact r.resolveApart h id key
  | resolveTogether id keys =>
    refine r.together (fun task htask => ?_) steps
    obtain ⟨key, _, rfl⟩ := List.mem_map.1 htask
    exact h (.resolve id key)
  | pause => exact r.pause ()

end

include r in
/-- What holds of the engine's parts holds of all that is asked for, by induction on the fuel of
`Host.answer`. -/
theorem answer (fuel : Nat) (request : Request ρ σ π) : P _ (host.answer fuel request) := by
  induction fuel generalizing request with
  | zero => exact r.halt _ .outOfFuel
  | succ fuel ih => exact r.step ih fuel request

end Respects

end Engine

/-! ### Laws of single steps -/

namespace Run

/-- Each step of the computation obeys the law, whatever the steps before it have given. -/
def Each (law : (α : Type) → (World ρ σ π → Except Halt (α × World ρ σ π)) → Prop) {α : Type} :
    Run ρ σ π α → Prop
  | .done _ => True
  | .pause _ => True
  | .step take => law _ take
  | .bind first next => first.Each law ∧ ∀ b, (next b).Each law

theorem composes_each : Composes (fun _ (x : Run ρ σ π _) => x.Each law) where
  done _ := trivial
  pause _ := trivial
  bind hfirst hnext := ⟨hfirst, hnext⟩

/-- What is left to do obeys the law, by `Run.Each`. -/
def Progress.Each (law : (α : Type) → (World ρ σ π → Except Halt (α × World ρ σ π)) → Prop) :
    Progress ρ σ π α → Prop
  | .ended _ => True
  | .halted _ => True
  | .gaveWay rest => rest.Each law
  | .stepped rest _ => rest.Each law

theorem Each.advance {x : Run ρ σ π α} (h : x.Each law) (w : World ρ σ π) :
    (x.advance w).Each law := by
  induction x with
  | done _ => trivial
  | pause _ => trivial
  | step take =>
    rw [Run.advance]
    cases take w <;> trivial
  | bind first next ihf ihn =>
    have hfirst := ihf h.1
    rw [Run.advance]
    generalize first.advance w = p at hfirst ⊢
    cases p with
    | ended b => exact ihn b (h.2 b)
    | halted _ => trivial
    | gaveWay _ => exact ⟨hfirst, h.2⟩
    | stepped _ _ => exact ⟨hfirst, h.2⟩

end Run

/-! ### Threads -/

namespace Threads

/-- Each step of each thread obeys the law, by `Run.Each`. -/
def Each (law : (α : Type) → (World ρ σ π → Except Halt (α × World ρ σ π)) → Prop)
    (s : Threads ρ σ π α) : Prop :=
  ∀ thread ∈ s.threads, thread.rest.Each law

variable {s : Threads ρ σ π α} {index : Nat}

theorem Each.next (h : s.Each law) (index : Nat) : (s.next index).Each law := by
  unfold Threads.next
  split
  case h_1 => trivial
  case h_2 thread hthread => exact (h thread (List.mem_of_getElem? hthread)).advance _

theorem Each.moveOn (h : s.Each law) {rest : Run ρ σ π α} (hrest : rest.Each law) (index : Nat)
    (w : World ρ σ π) : (s.moveOn index rest w).Each law := by
  intro thread hthread
  rcases List.mem_or_eq_of_mem_set hthread with hold | rfl
  · exact h thread hold
  · exact hrest

theorem Each.leavePause (h : s.Each law) {rest : Run ρ σ π α} (hrest : rest.Each law) (index : Nat) :
    (s.leavePause index rest).Each law := by
  intro thread hthread
  obtain ⟨i, hi⟩ := List.mem_iff_getElem?.1 hthread
  simp only [Threads.leavePause, List.getElem?_modify] at hi
  obtain ⟨old, hold, rfl⟩ := Option.map_eq_some_iff.1 hi
  split
  · exact hrest
  · exact h old (List.mem_of_getElem? hold)

theorem each_start {tasks : List (Run ρ σ π α)} (h : ∀ task ∈ tasks, task.Each law) (w : World ρ σ π) :
    (start w tasks).Each law := by
  have hall (id : ThreadId) : ∀ thread ∈ Thread.startAll id tasks, thread.rest.Each law := by
    induction tasks generalizing id with
    | nil => exact fun _ hthread => nomatch hthread
    | cons task tasks ih =>
      intro thread hthread
      cases hthread with
      | head => exact h task List.mem_cons_self
      | tail _ hthread => exact ih (fun _ hmem => h _ (List.mem_cons_of_mem _ hmem)) _ thread hthread
  exact hall w.threads

end Threads

/-! ### The steps of the engine -/

namespace Engine

/-- The steps that the engine takes obey the law; they are few, and each has a field. -/
structure Obeys (law : (α : Type) → (World ρ σ π → Except Halt (α × World ρ σ π)) → Prop) : Prop where
  halt : ∀ α reason, (Run.halt reason : Run ρ σ π α).Each law
  act : ∀ action : Action ρ σ π, (Run.now action.perform).Each law
  note : ∀ event, (Run.change (·.note event)).Each law
  noteList : ∀ roster count,
    (Run.change fun w => w.note (.producingList (w.roster roster).list count)).Each law
  hooks : ∀ id type, (Run.now fun w => ((w.injector id).hooksOf type, w)).Each law
  rows : ∀ catalog, (Run.now fun w => ((w.catalog catalog).entries.rows, w)).Each law
  installed : ∀ id kind, (Run.now fun w => ((w.injector id).installed.contains kind, w)).Each law
  markInstalled : ∀ id kind, (Run.change (·.markInstalled id kind)).Each law
  ordered : ∀ roster, (Run.now (·.ordered roster)).Each law
  takeSlot : ∀ slot, (takeSlot slot).Each law
  setSlot : ∀ slot kept, (Run.change (·.setSlot slot kept)).Each law
  awaitKey : ∀ id key, (Run.now (·.awaitKey id key)).Each law
  stopAwaiting : ∀ id key, (Run.change (·.stopAwaiting id key)).Each law
  startProducing : ∀ id key, (Run.change (·.startProducing id key)).Each law
  stopProducing : ∀ id key, (Run.change (·.stopProducing id key)).Each law
  /-- A new thread is made, and runs. -/
  fork : (Run.now fun w => ((w.thread, w.stack),
    { w with threads := w.threads + 1 }.switchTo w.threads [])).Each law
  switchTo : ∀ thread stack, (Run.change (·.switchTo thread stack)).Each law
  /-- What tasks do together is one step of who asks for it. -/
  together : ∀ steps (tasks : List (Run ρ σ π (Except Fault Ref))),
    (∀ task ∈ tasks, task.Each law) → (Run.together steps tasks).Each law

namespace Obeys

open Run

variable (l : Engine.Obeys law)

include l

theorem single {answer : (request : Request ρ σ π) → Run ρ σ π request.Answer}
    (h : ∀ request, (answer request).Each law) (id : InjectorId) (slot : SlotId) (key : Key)
    (type : ValueType) (delegate : Provider ρ) : (single answer id slot key type delegate).Each law := by
  have hinitialise : (initialise answer id slot key type delegate).Each law := by
    refine composes_each.bind (l.startProducing id key) fun _ => composes_each.bind (l.note _) fun _ => ?_
    refine composes_each.bind (h (.produce id delegate)) fun outcome => ?_
    refine composes_each.bind (l.stopProducing id key) fun _ => ?_
    exact composes_each.bind (l.setSlot slot _) fun _ => trivial
  have hmake : (takeOrMake answer id slot key type delegate).Each law := by
    refine composes_each.bind (l.takeSlot slot) fun taken => ?_
    cases taken with
    | some object => trivial
    | none => exact hinitialise
  have hawait : (await answer id slot key type delegate).Each law := by
    refine composes_each.bind (l.awaitKey id key) fun granted => ?_
    cases granted with
    | error _ => trivial
    | ok _ =>
      exact composes_each.bind hmake fun _ => composes_each.bind (l.stopAwaiting id key) fun _ => trivial
  refine composes_each.bind (l.act (.slot slot)) fun state => ?_
  cases state with
  | filled _ => trivial
  | empty => exact hawait
  | busy => exact hawait

theorem respects (host : Host ρ σ π) : Engine.Respects host fun _ x => x.Each law where
  toComposes := composes_each
  halt := l.halt
  act := l.act
  note := l.note
  noteList := l.noteList
  hooks := l.hooks
  rows := l.rows
  installed := l.installed
  markInstalled := l.markInstalled
  ordered := l.ordered
  fork := l.fork
  switchTo := l.switchTo
  single := l.single
  together h steps := l.together steps _ h

end Obeys

end Engine

/-- A law of the engine's steps is a law of all that is asked for: `Run.Each` of a law `Respects`
the engine. -/
theorem Host.each_answer (l : Engine.Obeys law) (host : Host ρ σ π) (fuel : Nat) (request : Request ρ σ π) :
    (host.answer fuel request).Each law :=
  (l.respects host).answer fuel request

end Wiring
