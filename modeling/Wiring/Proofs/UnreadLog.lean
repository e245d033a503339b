import Wiring.Proofs.EachStep

/-!
# The log is only written

Every operation notes what it does, and none looks at what has been noted. So worlds that differ in
their logs alone lead to the same results, and to worlds that differ in their logs alone
(`World.SameUnlogged`): by each action, by each step of the engine (`IgnoresLog`), and by whatever
the host's code does on however many threads (`Host.run_unlogged`).

* **`SameUnlogged.perform`** — the one look at each action; `SameUnlogged.withList` and
  `SameUnlogged.openList` are for those on lists.
* **`Engine.ignoresLog_of_relog`** — a step ignores the log if it does so when the log alone is
  replaced by `World.relog`.
-/

namespace Wiring

variable {ρ σ π α β : Type}

namespace World

/-- The world with nothing noted. -/
def unlogged (w : World ρ σ π) : World ρ σ π :=
  { w with log := #[] }

/-- The world with other notes, which `unlogged` takes away again. -/
def relog (w : World ρ σ π) (log : Array LogEvent) : World ρ σ π :=
  { w with log }

/-- The results are the same, and the worlds are up to the log, by `unlogged`. -/
def SameUnlogged (p q : α × World ρ σ π) : Prop :=
  p.1 = q.1 ∧ p.2.unlogged = q.2.unlogged

variable {w v : World ρ σ π}

theorem exists_relog (h : w.unlogged = v.unlogged) : ∃ log, v = w.relog log := by
  have hrelog : v.unlogged.relog v.log = w.unlogged.relog v.log := by rw [h]
  exact ⟨v.log, hrelog⟩

theorem injector_eq_of_unlogged (h : w.unlogged = v.unlogged) (id : InjectorId) :
    v.injector id = w.injector id := by
  obtain ⟨log, rfl⟩ := exists_relog h
  rfl

namespace SameUnlogged

/-! ### Bindings -/

variable (h : w.unlogged = v.unlogged) (id : InjectorId) (key : Key)

include h

theorem pushKey : SameUnlogged (w.pushKey key) (v.pushKey key) := by
  obtain ⟨log, rfl⟩ := exists_relog h
  have hpush : (w.relog log).stack.push key = w.stack.push key := rfl
  unfold World.pushKey
  rw [hpush]
  cases w.stack.push key <;> exact ⟨rfl, rfl⟩

theorem awaitKey : SameUnlogged (w.awaitKey id key) (v.awaitKey id key) := by
  obtain ⟨log, rfl⟩ := exists_relog h
  have hawait : ((w.relog log).injector id).waits.await (w.relog log).thread key =
      (w.injector id).waits.await w.thread key := rfl
  unfold World.awaitKey
  rw [hawait]
  cases (w.injector id).waits.await w.thread key <;> exact ⟨rfl, rfl⟩

theorem providerOf : SameUnlogged (w.providerOf id key) (v.providerOf id key) := by
  unfold World.providerOf
  rw [injector_eq_of_unlogged h]
  rcases (w.injector id).find key with fault | none | binding <;> exact ⟨rfl, h⟩

theorem bindingOf : SameUnlogged (w.bindingOf id key) (v.bindingOf id key) := by
  unfold World.bindingOf
  rw [injector_eq_of_unlogged h]
  cases (w.injector id).find key <;> exact ⟨rfl, h⟩

theorem establish (provider : Provider ρ) (scope : Scope) :
    (w.establish id key provider scope).unlogged = (v.establish id key provider scope).unlogged := by
  obtain ⟨log, rfl⟩ := exists_relog h
  cases scope <;> rfl

theorem rewrap (binding : Binding ρ) (scope : Scope) :
    (w.rewrap id binding scope).unlogged = (v.rewrap id binding scope).unlogged := by
  obtain ⟨log, rfl⟩ := exists_relog h
  cases scope <;> rfl

theorem changeScope (scope : Scope) :
    SameUnlogged (w.changeScope id key scope) (v.changeScope id key scope) := by
  unfold World.changeScope
  rw [injector_eq_of_unlogged h]
  cases (w.injector id).bindings.get? key with
  | none => exact ⟨rfl, h⟩
  | some binding => exact ⟨rfl, rewrap (w := w.note _) (v := v.note _) h id binding scope⟩

theorem decorate (stage : Stage ρ) :
    SameUnlogged (w.decorate id key stage) (v.decorate id key stage) := by
  unfold World.decorate
  rw [injector_eq_of_unlogged h]
  rcases (w.injector id).find key with fault | none | binding
  · exact ⟨rfl, h⟩
  · exact ⟨rfl, h⟩
  · exact ⟨rfl, rewrap (w := w.note _) (v := v.note _) h id _ binding.scope⟩

theorem release : (w.release id key).unlogged = (v.release id key).unlogged := by
  unfold World.release
  rw [injector_eq_of_unlogged h]
  cases (w.injector id).bindings.get? key with
  | none => exact h
  | some binding =>
    dsimp only
    split
    · exact rewrap h id binding binding.scope
    · exact h

theorem releaseAll (keys : List Key) :
    (keys.foldl (·.release id ·) w).unlogged = (keys.foldl (·.release id ·) v).unlogged := by
  induction keys generalizing w v with
  | nil => exact h
  | cons key keys ih => exact ih (release h id key)

theorem shutDown : (w.shutDown id).unlogged = (v.shutDown id).unlogged := by
  unfold World.shutDown
  rw [injector_eq_of_unlogged h]
  exact releaseAll h id (w.injector id).bindings.keys

/-! ### Collections -/

theorem enrolObject (roster : RosterId) (type : ValueType) (object : Ref) :
    SameUnlogged (w.enrolObject roster type object) (v.enrolObject roster type object) := by
  obtain ⟨log, rfl⟩ := exists_relog h
  have hfind : (w.relog log).entered.idxOf? object = w.entered.idxOf? object := rfl
  unfold World.enrolObject World.entryNumber
  rw [hfind]
  cases w.entered.idxOf? object <;> exact ⟨rfl, rfl⟩

theorem enrolAll (roster : RosterId) (type : ValueType) (contents : List (Content π)) :
    SameUnlogged (w.enrolAll roster type contents) (v.enrolAll roster type contents) := by
  induction contents generalizing w v with
  | nil => exact ⟨rfl, h⟩
  | cons content rest ih =>
    obtain ⟨log, rfl⟩ := exists_relog h
    let u := (w.allocate content).2
    let first := u.enrolObject roster type ⟨w.objects.size⟩
    let other := (u.relog log).enrolObject roster type ⟨w.objects.size⟩
    have hmade : u.unlogged = (u.relog log).unlogged := rfl
    obtain ⟨hentry, hafter⟩ : SameUnlogged first other := enrolObject hmade roster type _
    obtain ⟨hentries, hrest⟩ := ih hafter
    have hkeys : first.1 :: (first.2.enrolAll roster type rest).1 =
        other.1 :: (other.2.enrolAll roster type rest).1 := by rw [hentry, hentries]
    exact ⟨hkeys, hrest⟩

theorem changeRoster (roster : RosterId)
    (change : Roster (Provider ρ) → Except Fault (Roster (Provider ρ))) :
    SameUnlogged (w.changeRoster roster change) (v.changeRoster roster change) := by
  obtain ⟨log, rfl⟩ := exists_relog h
  have hchange : change ((w.relog log).roster roster) = change (w.roster roster) := rfl
  unfold World.changeRoster
  rw [hchange]
  cases change (w.roster roster) <;> exact ⟨rfl, rfl⟩

theorem ordered (roster : RosterId) : SameUnlogged (w.ordered roster) (v.ordered roster) := by
  obtain ⟨log, rfl⟩ := exists_relog h
  have horder : ((w.relog log).roster roster).order = (w.roster roster).order := rfl
  unfold World.ordered
  rw [horder]
  cases (w.roster roster).order <;> exact ⟨rfl, rfl⟩

theorem orderedKeys (roster : RosterId) : SameUnlogged (w.orderedKeys roster) (v.orderedKeys roster) := by
  obtain ⟨hentries, hafter⟩ := ordered h roster
  exact ⟨congrArg (·.map (·.map (·.key))) hentries, hafter⟩

/-- A collection that is found by its key, or made for it by `World.baseOr`, is the same whatever is
noted. -/
theorem openList (list : Key) : SameUnlogged (w.openList id list) (v.openList id list) := by
  obtain ⟨log, rfl⟩ := exists_relog h
  unfold World.openList World.baseOr
  rw [injector_eq_of_unlogged h]
  rcases (w.injector id).find list with fault | none | binding
  · exact ⟨rfl, rfl⟩
  · exact ⟨rfl, rfl⟩
  · dsimp only
    cases binding.base <;> exact ⟨rfl, rfl⟩

theorem openMap (map : Key) : SameUnlogged (w.openMap id map) (v.openMap id map) := by
  obtain ⟨log, rfl⟩ := exists_relog h
  unfold World.openMap World.baseOr
  rw [injector_eq_of_unlogged h]
  rcases (w.injector id).find map with fault | none | binding
  · exact ⟨rfl, rfl⟩
  · exact ⟨rfl, rfl⟩
  · dsimp only
    cases binding.base <;> exact ⟨rfl, rfl⟩

end SameUnlogged

namespace SameUnlogged

variable (h : w.unlogged = v.unlogged) (id : InjectorId) (list : Key)

include h

/-- What is done with a list once `World.openList` has found it, or nothing if it has not. -/
theorem withList {rest : RosterId → World ρ σ π → Except Fault α × World ρ σ π}
    (hrest : ∀ roster w v, w.unlogged = v.unlogged → SameUnlogged (rest roster w) (rest roster v)) :
    SameUnlogged (w.withList id list rest) (v.withList id list rest) := by
  have hopen := openList h id list
  unfold World.withList
  generalize w.openList id list = p at hopen
  generalize v.openList id list = q at hopen
  obtain ⟨found, u⟩ := p
  obtain ⟨_, u'⟩ := q
  obtain ⟨rfl, hafter⟩ := hopen
  cases found with
  | error _ => exact ⟨rfl, hafter⟩
  | ok roster => exact hrest roster _ _ hafter

theorem contribute (entry : Key) (provider : Provider ρ) :
    SameUnlogged (w.contribute id list entry provider) (v.contribute id list entry provider) := by
  refine withList h id list fun roster _ _ hsame => ?_
  obtain ⟨log, rfl⟩ := exists_relog hsame
  exact ⟨rfl, rfl⟩

theorem contributeObject (object : Ref) :
    SameUnlogged (w.contributeObject id list object) (v.contributeObject id list object) := by
  refine withList h id list fun roster _ _ hsame => ?_
  obtain ⟨hentry, hafter⟩ := enrolObject hsame roster list.type.element object
  exact ⟨congrArg Except.ok hentry, hafter⟩

theorem contributeAll (contents : List (Content π)) :
    SameUnlogged (w.contributeAll id list contents) (v.contributeAll id list contents) := by
  refine withList h id list fun roster _ _ hsame => ?_
  obtain ⟨hentries, hafter⟩ := enrolAll hsame roster list.type.element contents
  exact ⟨congrArg Except.ok hentries, hafter⟩

theorem arrange (entry : Key) (side : Side) (other : Key) :
    SameUnlogged (w.arrange id list entry side other) (v.arrange id list entry side other) :=
  withList h id list fun roster _ _ hsame => changeRoster hsame roster _

theorem listOrder : SameUnlogged (w.listOrder id list) (v.listOrder id list) :=
  withList h id list fun roster _ _ hsame => orderedKeys hsame roster

theorem contributeNamed (map : Key) (name : String) (provider : Provider ρ) :
    SameUnlogged (w.contributeNamed id map name provider) (v.contributeNamed id map name provider) := by
  have hopen := openMap h id map
  unfold World.contributeNamed
  generalize w.openMap id map = p at hopen
  generalize v.openMap id map = q at hopen
  obtain ⟨found, u⟩ := p
  obtain ⟨_, u'⟩ := q
  obtain ⟨rfl, hafter⟩ := hopen
  cases found with
  | error _ => exact ⟨rfl, hafter⟩
  | ok catalog =>
    obtain ⟨log, rfl⟩ := exists_relog hafter
    exact ⟨rfl, rfl⟩

/-- An action does the same whatever has been noted before, as `Action.perform` reads no log. -/
theorem perform (action : Action ρ σ π) : SameUnlogged (action.perform w) (action.perform v) := by
  cases action
  case bind id key p scope => exact ⟨rfl, establish h id key p scope⟩
  case binding id key => exact bindingOf h id key
  case changeScope id key scope => exact changeScope h id key scope
  case decorate id key stage => exact decorate h id key stage
  case provider id key => exact providerOf h id key
  case shutDown id => exact ⟨rfl, shutDown h id⟩
  case place roster entry side other => exact changeRoster h roster _
  case orderedKeys roster => exact orderedKeys h roster
  case openList id list => exact openList h id list
  case contribute id list entry p => exact contribute h id list entry p
  case contributeObject id list object => exact contributeObject h id list object
  case contributeAll id list contents => exact contributeAll h id list contents
  case arrange id list entry side other => exact arrange h id list entry side other
  case listOrder id list => exact listOrder h id list
  case openMap id map => exact openMap h id map
  case contributeNamed id map name p => exact contributeNamed h id map name p
  case pushKey key => exact pushKey h key
  -- what reads or changes something beside the log
  all_goals
    obtain ⟨log, rfl⟩ := exists_relog h
    exact ⟨rfl, rfl⟩

end SameUnlogged

end World

/-! ### Steps -/

/-- Both outcomes are the same halt, or both are results that are related. -/
inductive Halt.Same {A B : Type _} (related : A → B → Prop) : Except Halt A → Except Halt B → Prop where
  | halt (reason : Halt) : Same related (.error reason) (.error reason)
  | ok {a : A} {b : B} (h : related a b) : Same related (.ok a) (.ok b)

open World (SameUnlogged)

namespace Run

/-- The step is the same whatever has been noted before, by `SameUnlogged`. -/
def IgnoresLog (α : Type) (take : World ρ σ π → Except Halt (α × World ρ σ π)) : Prop :=
  ∀ w v, w.unlogged = v.unlogged → Halt.Same SameUnlogged (take w) (take v)

variable {x : Run ρ σ π α} {w v : World ρ σ π}

theorem Each.run_unlogged (h : x.Each IgnoresLog) (hsame : w.unlogged = v.unlogged) :
    Halt.Same SameUnlogged (x.run w) (x.run v) := by
  induction x generalizing w v with
  | done result => exact .ok ⟨rfl, hsame⟩
  | pause result => exact .ok ⟨rfl, hsame⟩
  | step take => exact h w v hsame
  | bind first next ihf ihn =>
    have hfirst := ihf h.1 hsame
    rw [Run.run, Run.run]
    generalize first.run w = p at hfirst ⊢
    generalize first.run v = q at hfirst ⊢
    cases hfirst with
    | halt reason => exact .halt reason
    | @ok a b hresult =>
      obtain ⟨b, u⟩ := b
      obtain ⟨rfl, hafter⟩ := hresult
      exact ihn a.1 (h.2 a.1) hafter

/-- Both come to the same next, up to the log. -/
inductive Progress.SameUnlogged : Progress ρ σ π α → Progress ρ σ π α → Prop
  | ended (result : α) : SameUnlogged (.ended result) (.ended result)
  | halted (reason : Halt) : SameUnlogged (.halted reason) (.halted reason)
  | gaveWay (rest : Run ρ σ π α) : SameUnlogged (.gaveWay rest) (.gaveWay rest)
  | stepped (rest : Run ρ σ π α) {w v : World ρ σ π} (h : w.unlogged = v.unlogged) :
      SameUnlogged (.stepped rest w) (.stepped rest v)

theorem Each.advance_unlogged (h : x.Each IgnoresLog) (hsame : w.unlogged = v.unlogged) :
    (x.advance w).SameUnlogged (x.advance v) := by
  induction x with
  | done result => exact .ended result
  | pause result => exact .gaveWay _
  | step take =>
    have htake := h w v hsame
    rw [Run.advance, Run.advance]
    generalize take w = p at htake ⊢
    generalize take v = q at htake ⊢
    cases htake with
    | halt reason => exact .halted reason
    | @ok a b hresult =>
      obtain ⟨b, u⟩ := b
      obtain ⟨rfl, hafter⟩ := hresult
      exact .stepped _ hafter
  | bind first next ihf ihn =>
    have hfirst := ihf h.1
    rw [Run.advance, Run.advance]
    generalize first.advance w = p at hfirst ⊢
    generalize first.advance v = q at hfirst ⊢
    cases hfirst with
    | ended b => exact ihn b (h.2 b)
    | halted reason => exact .halted reason
    | gaveWay rest => exact .gaveWay _
    | stepped rest hafter => exact .stepped _ hafter

end Run

/-! ### Threads -/

namespace Threads

/-- The same threads, whose steps ignore the log, on worlds that are the same up to the log. -/
structure SameUnlogged (s t : Threads ρ σ π α) : Prop where
  world : s.world.unlogged = t.world.unlogged
  threads : s.threads = t.threads
  each : s.Each Run.IgnoresLog

namespace SameUnlogged

variable {s t : Threads ρ σ π α} (h : s.SameUnlogged t)

include h

theorem next (index : Nat) : (s.next index).SameUnlogged (t.next index) := by
  unfold Threads.next
  rw [← h.threads]
  cases hthread : s.threads[index]? with
  | none => exact .halted _
  | some thread =>
    have hswitched : (s.world.switchTo thread.id thread.stack).unlogged =
        (t.world.switchTo thread.id thread.stack).unlogged :=
      congrArg (·.switchTo thread.id thread.stack) h.world
    exact (h.each thread (List.mem_of_getElem? hthread)).advance_unlogged hswitched

theorem moveOn {rest : Run ρ σ π α} (hrest : rest.Each Run.IgnoresLog) (index : Nat)
    {w v : World ρ σ π} (hsame : w.unlogged = v.unlogged) :
    (s.moveOn index rest w).SameUnlogged (t.moveOn index rest v) where
  world := hsame
  threads := by
    obtain ⟨log, rfl⟩ := World.exists_relog hsame
    unfold Threads.moveOn
    rw [h.threads]
    rfl
  each := h.each.moveOn hrest index w

theorem leavePause {rest : Run ρ σ π α} (hrest : rest.Each Run.IgnoresLog) (index : Nat) :
    (s.leavePause index rest).SameUnlogged (t.leavePause index rest) where
  world := h.world
  threads := by
    unfold Threads.leavePause
    rw [h.threads]
  each := h.each.leavePause hrest index

theorem step (index : Nat) : Halt.Same SameUnlogged (s.step index) (t.step index) := by
  have hnext := h.next index
  have heach := h.each.next index
  unfold Threads.step
  generalize s.next index = p at hnext heach ⊢
  generalize t.next index = q at hnext ⊢
  cases hnext with
  | ended _ => exact .halt _
  | halted reason => exact .halt reason
  | gaveWay rest => exact .ok (h.leavePause heach index)
  | stepped rest hsame => exact .ok (h.moveOn heach index hsame)

theorem approach (index steps : Nat) :
    Halt.Same SameUnlogged (s.approach index steps) (t.approach index steps) := by
  induction steps generalizing s t with
  | zero => exact .halt _
  | succ steps ih =>
    have hnext := h.next index
    have heach := h.each.next index
    unfold Threads.approach
    generalize s.next index = p at hnext heach ⊢
    generalize t.next index = q at hnext ⊢
    cases hnext with
    | ended _ => exact .ok h
    | halted reason =>
      cases reason with
      | outOfFuel => exact .halt _
      | blocked => exact .ok h
    | gaveWay _ => exact .ok h
    | stepped rest hsame => exact ih (h.moveOn heach index hsame)

theorem approachAll (steps : Nat) (indices : List Nat) :
    Halt.Same SameUnlogged (s.approachAll steps indices) (t.approachAll steps indices) := by
  induction indices generalizing s t with
  | nil => exact .ok h
  | cons index rest ih =>
    have hfirst := h.approach index steps
    unfold Threads.approachAll
    generalize s.approach index steps = p at hfirst ⊢
    generalize t.approach index steps = q at hfirst ⊢
    cases hfirst with
    | halt reason => exact .halt reason
    | ok hsame => exact ih hsame

theorem stepFirst (indices : List Nat) :
    Halt.Same (fun p q => p.1 = q.1 ∧ p.2.SameUnlogged q.2) (s.stepFirst indices)
      (t.stepFirst indices) := by
  induction indices with
  | nil => exact .halt _
  | cons index rest ih =>
    have hstep := h.step index
    unfold Threads.stepFirst
    generalize s.step index = p at hstep ⊢
    generalize t.step index = q at hstep ⊢
    cases hstep with
    | halt reason =>
      cases reason with
      | outOfFuel => exact .halt _
      | blocked => exact ih
    | ok hsame => exact .ok ⟨rfl, hsame⟩

theorem finish (steps current : Nat) :
    Halt.Same SameUnlogged (s.finish steps current) (t.finish steps current) := by
  induction steps generalizing s t current with
  | zero => exact .halt _
  | succ steps ih =>
    have hfirst := h.stepFirst (current :: List.range s.threads.length)
    unfold Threads.finish
    rw [← h.threads]
    generalize s.stepFirst _ = p at hfirst ⊢
    generalize t.stepFirst _ = q at hfirst ⊢
    cases hfirst with
    | halt reason =>
      cases reason with
      | outOfFuel => exact .halt _
      | blocked => exact .ok h
    | @ok a b hsame =>
      obtain ⟨hcurrent, hsame⟩ := hsame
      simp only [← hcurrent]
      exact ih hsame a.1

theorem play (steps : Nat) : Halt.Same SameUnlogged (s.play steps) (t.play steps) := by
  have hall := h.approachAll steps (List.range s.threads.length)
  unfold Threads.play
  rw [← h.threads]
  generalize s.approachAll steps _ = p at hall ⊢
  generalize t.approachAll steps _ = q at hall ⊢
  cases hall with
  | halt reason => exact .halt reason
  | ok hsame => exact hsame.finish steps 0

end SameUnlogged

end Threads

/-! ### The steps of the engine -/

namespace Engine

open Run

theorem ignoresLog_now {f : World ρ σ π → α × World ρ σ π}
    (h : ∀ {w v : World ρ σ π}, w.unlogged = v.unlogged → SameUnlogged (f w) (f v)) :
    (Run.now f).Each IgnoresLog :=
  fun _ _ hsame => .ok (h hsame)

/-- What changes nothing in the log itself, and does not read it, is a step that `IgnoresLog`. -/
theorem ignoresLog_of_relog {f : World ρ σ π → α × World ρ σ π}
    (h : ∀ (w : World ρ σ π) log, SameUnlogged (f w) (f (w.relog log))) :
    (Run.now f).Each IgnoresLog := by
  refine ignoresLog_now fun hsame => ?_
  obtain ⟨log, rfl⟩ := World.exists_relog hsame
  exact h _ log

theorem ignoresLog_takeSlot (slot : SlotId) :
    (takeSlot slot : Run ρ σ π (Option Ref)).Each IgnoresLog := by
  intro w v hsame
  obtain ⟨log, rfl⟩ := World.exists_relog hsame
  have hslot : (w.relog log).slot slot = w.slot slot := rfl
  simp only [hslot]
  cases w.slot slot with
  | filled object => exact .ok ⟨rfl, rfl⟩
  | empty => exact .ok ⟨rfl, rfl⟩
  | busy => exact .halt _

theorem ignoresLog_together {tasks : List (Run ρ σ π α)} (h : ∀ task ∈ tasks, task.Each IgnoresLog)
    (steps : Nat) : (Run.together steps tasks).Each IgnoresLog := by
  intro w v hsame
  have hstart : (Threads.start w tasks).SameUnlogged (Threads.start v tasks) := by
    obtain ⟨log, rfl⟩ := World.exists_relog hsame
    exact ⟨rfl, rfl, Threads.each_start h w⟩
  have hplay := hstart.play steps
  dsimp only
  generalize (Threads.start w tasks).play steps = p at hplay ⊢
  generalize (Threads.start v tasks).play steps = q at hplay ⊢
  cases hplay with
  | halt reason => exact .halt reason
  | @ok s t hend =>
    have hresults : s.results? = t.results? := congrArg Threads.resultsOf? hend.threads
    dsimp only
    rw [← hresults]
    cases s.results? with
    | none => exact .halt _
    | some results =>
      obtain ⟨log, rfl⟩ := World.exists_relog hsame
      exact .ok ⟨rfl, congrArg (·.switchTo w.thread w.stack) hend.world⟩

theorem obeys_ignoresLog : Engine.Obeys (IgnoresLog : (α : Type) →
    (World ρ σ π → Except Halt (α × World ρ σ π)) → Prop) where
  halt _ reason _ _ _ := .halt reason
  act action := ignoresLog_now (SameUnlogged.perform · action)
  note _ := ignoresLog_of_relog fun _ _ => ⟨rfl, rfl⟩
  noteList _ _ := ignoresLog_of_relog fun _ _ => ⟨rfl, rfl⟩
  hooks _ _ := ignoresLog_of_relog fun _ _ => ⟨rfl, rfl⟩
  rows _ := ignoresLog_of_relog fun _ _ => ⟨rfl, rfl⟩
  installed _ _ := ignoresLog_of_relog fun _ _ => ⟨rfl, rfl⟩
  markInstalled _ _ := ignoresLog_of_relog fun _ _ => ⟨rfl, rfl⟩
  ordered roster := ignoresLog_now (SameUnlogged.ordered · roster)
  takeSlot := ignoresLog_takeSlot
  setSlot _ _ := ignoresLog_of_relog fun _ _ => ⟨rfl, rfl⟩
  awaitKey id key := ignoresLog_now (SameUnlogged.awaitKey · id key)
  stopAwaiting _ _ := ignoresLog_of_relog fun _ _ => ⟨rfl, rfl⟩
  startProducing _ _ := ignoresLog_of_relog fun _ _ => ⟨rfl, rfl⟩
  stopProducing _ _ := ignoresLog_of_relog fun _ _ => ⟨rfl, rfl⟩
  fork := ignoresLog_of_relog fun _ _ => ⟨rfl, rfl⟩
  switchTo _ _ := ignoresLog_of_relog fun _ _ => ⟨rfl, rfl⟩
  together steps _ h := ignoresLog_together h steps

end Engine

/-- Whatever is asked for comes to the same in worlds that are the same up to the log, and leaves
such worlds: each step that `Host.answer` takes ignores the log. -/
theorem Host.run_unlogged (host : Host ρ σ π) (fuel : Nat) (request : Request ρ σ π) {w v : World ρ σ π}
    (h : w.unlogged = v.unlogged) :
    Halt.Same SameUnlogged ((host.answer fuel request).run w) ((host.answer fuel request).run v) :=
  (host.each_answer Engine.obeys_ignoresLog fuel request).run_unlogged h

end Wiring
