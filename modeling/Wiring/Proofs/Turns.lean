import Wiring.Proofs.Contents
import Wiring.Proofs.Moments

/-!
# Productions in turn

The entries of a collection produce one after the other. Each has its turn (`Turn`), which begins in
the world in which the turn before it ended, so what one entry does is seen by those after it, but
no turn overlaps with another (`Turns`). They go on until one fails or does not come to an end
(`Host.ProducesInTurn`), and nothing else happens in the meantime: the moments of such a production
are those of its turns.

* **`Host.producesInTurn`** — induction on the providers, the first turn by
  `ProducesInTurn.after_turn`.
* **`Script.inTurn_of_halt`**, **`Script.inTurn_of_fault`** and **`Script.inTurn_of_ok`** — the
  three ways in which the first entry can end.
* **`Assembles`** — what a collection makes of what its entries came to, a new object or the fault;
  `Script.assemble` is the same for lists and maps.
-/

namespace Wiring

variable {ρ σ π α : Type}

/-! ### One after the other -/

/-- The outcome with one result more, which came before the others; a halt or a fault stays as it
is. -/
def preceded {β : Type} (b : β) (outcome : Except Halt (Except Fault (List β) × World ρ σ π)) :
    Except Halt (Except Fault (List β) × World ρ σ π) :=
  outcome.map fun (results, w) => (results.map (b :: ·), w)

namespace Script

variable {answer : (request : Request ρ σ π) → Run ρ σ π request.Answer}
variable (within : Request ρ σ π → World ρ σ π → List (Moment ρ σ π))
variable {β : Type} {f : α → Script ρ σ π (Except Fault β)} {a : α} {w v : World ρ σ π}

/-- If the first does not come to an end, nor do all, and the moments are those of the first. -/
theorem inTurn_of_halt (rest : List α) {reason : Halt} (h : ((f a).toRun answer).run w = .error reason) :
    ((inTurn f (a :: rest)).toRun answer).run w = .error reason ∧
      (inTurn f (a :: rest)).moments answer within w = (f a).moments answer within w := by
  rw [inTurn, run_bind, moments_bind, h]
  exact ⟨rfl, List.append_nil _⟩

/-- If the first fails, all fail with it, and nothing more happens. -/
theorem inTurn_of_fault (rest : List α) {fault : Fault}
    (h : ((f a).toRun answer).run w = .ok (.error fault, v)) :
    ((inTurn f (a :: rest)).toRun answer).run w = .ok (.error fault, v) ∧
      (inTurn f (a :: rest)).moments answer within w = (f a).moments answer within w := by
  rw [inTurn, run_bind, moments_bind, h]
  exact ⟨rfl, List.append_nil _⟩

/-- If the first succeeds, the rest go on from where it has come to, and its result is `preceded` to
theirs. -/
theorem inTurn_of_ok (rest : List α) {b : β} (h : ((f a).toRun answer).run w = .ok (.ok b, v)) :
    ((inTurn f (a :: rest)).toRun answer).run w = preceded b (((inTurn f rest).toRun answer).run v) ∧
      (inTurn f (a :: rest)).moments answer within w =
        (f a).moments answer within w ++ (inTurn f rest).moments answer within v := by
  rw [inTurn, run_bind, moments_bind, h]
  show (((inTurn f rest >>= _).toRun answer).run v) = _ ∧
    _ ++ ((inTurn f rest >>= _).moments answer within v) = _
  rw [run_bind, moments_bind]
  -- putting the first result before the others tells nothing
  rcases ((inTurn f rest).toRun answer).run v with reason | ⟨fault | results, u⟩
  · exact ⟨rfl, congrArg _ (List.append_nil _)⟩
  · exact ⟨rfl, congrArg _ (List.append_nil _)⟩
  · exact ⟨rfl, congrArg _ (List.append_nil _)⟩

end Script

/-! ### Turns -/

/-- A production in its turn: what it comes to, and from which world to which. -/
structure Turn (ρ σ π : Type) where
  provider : Provider ρ
  before : World ρ σ π
  reply : Except Fault Ref
  after : World ρ σ π

namespace Host

variable (host : Host ρ σ π) (fuel : Nat) (id : InjectorId)

/-- The turns come one after the other, from the one world to the other, each as `Host.answer` has
it. -/
inductive Turns : World ρ σ π → List (Turn ρ σ π) → World ρ σ π → Prop
  | none (w : World ρ σ π) : Turns w [] w
  | next {w v after : World ρ σ π} {provider : Provider ρ} {reply : Except Fault Ref}
      {turns : List (Turn ρ σ π)}
      (h : (host.answer fuel (.produce id provider)).run w = .ok (reply, v))
      (hrest : Turns v turns after) : Turns w (⟨provider, w, reply, v⟩ :: turns) after

/-- The moments of turns, by `Host.moments`, one after the other. -/
def during (turns : List (Turn ρ σ π)) : List (Moment ρ σ π) :=
  turns.flatMap fun turn => host.moments fuel (.produce id turn.provider) turn.before

/-- What providers come to that produce in turn, and the moments of it: the rules are the ways in
which `Run.inTurn` can go. -/
inductive ProducesInTurn (providers : List (Provider ρ)) (w : World ρ σ π) :
    Except Halt (Except Fault (List Ref) × World ρ σ π) → List (Moment ρ σ π) → Prop
  /-- Each has had its turn, and the objects are theirs, in the same order. -/
  | complete {turns : List (Turn ρ σ π)} {objects : List Ref} {after : World ρ σ π}
      (hturns : host.Turns fuel id w turns after) (hproviders : turns.map (·.provider) = providers)
      (hreplies : turns.map (·.reply) = objects.map .ok) :
      ProducesInTurn providers w (.ok (.ok objects, after)) (host.during fuel id turns)
  /-- The last turn fails after the others succeeded. Those that come later have no turn. -/
  | failed {turns : List (Turn ρ σ π)} {last : Turn ρ σ π} {later : List (Provider ρ)} {fault : Fault}
      (hturns : host.Turns fuel id w (turns ++ [last]) last.after)
      (hproviders : turns.map (·.provider) ++ last.provider :: later = providers)
      (hreplies : ∀ turn ∈ turns, ∃ object, turn.reply = .ok object) (hlast : last.reply = .error fault) :
      ProducesInTurn providers w (.ok (.error fault, last.after)) (host.during fuel id (turns ++ [last]))
  /-- After the others succeeded, one does not come to an end. -/
  | halted {turns : List (Turn ρ σ π)} {provider : Provider ρ} {later : List (Provider ρ)}
      {v : World ρ σ π} {reason : Halt} (hturns : host.Turns fuel id w turns v)
      (hproviders : turns.map (·.provider) ++ provider :: later = providers)
      (hreplies : ∀ turn ∈ turns, ∃ object, turn.reply = .ok object)
      (hhalts : (host.answer fuel (.produce id provider)).run v = .error reason) :
      ProducesInTurn providers w (.error reason)
        (host.during fuel id turns ++ host.moments fuel (.produce id provider) v)

namespace ProducesInTurn

variable {host fuel id}
variable {provider : Provider ρ} {providers : List (Provider ρ)} {w v : World ρ σ π} {object : Ref}
variable {outcome : Except Halt (Except Fault (List Ref) × World ρ σ π)} {moments : List (Moment ρ σ π)}

/-- A turn that succeeds may come first, whatever the others come to after it. -/
theorem after_turn (hturn : (host.answer fuel (.produce id provider)).run w = .ok (.ok object, v))
    (h : host.ProducesInTurn fuel id providers v outcome moments) :
    host.ProducesInTurn fuel id (provider :: providers) w (preceded object outcome)
      (host.moments fuel (.produce id provider) w ++ moments) := by
  let turn : Turn ρ σ π := ⟨provider, w, .ok object, v⟩
  have hearlier {turns : List (Turn ρ σ π)} (hreplies : ∀ turn ∈ turns, ∃ object, turn.reply = .ok object) :
      ∀ t ∈ turn :: turns, ∃ object, t.reply = .ok object := by
    intro t ht
    cases ht with
    | head => exact ⟨object, rfl⟩
    | tail _ ht => exact hreplies t ht
  cases h with
  | @complete turns objects after hturns hproviders hreplies =>
    have hreplies' : (turn :: turns).map (·.reply) = (object :: objects).map .ok := by
      simp [turn, hreplies]
    exact .complete (.next hturn hturns) (congrArg (provider :: ·) hproviders) hreplies'
  | @failed turns last later fault hturns hproviders hreplies hlast =>
    have hturns' : host.Turns fuel id w (turn :: turns ++ [last]) last.after := .next hturn hturns
    exact .failed hturns' (congrArg (provider :: ·) hproviders) (hearlier hreplies) hlast
  | @halted turns other later u reason hturns hproviders hreplies hhalts =>
    have hturns' : host.Turns fuel id w (turn :: turns) u := .next hturn hturns
    rw [← List.append_assoc]
    exact .halted hturns' (congrArg (provider :: ·) hproviders) (hearlier hreplies) hhalts

end ProducesInTurn

variable {id fuel}

/-- Entries that produce in turn take turns as their providers: `Script.inTurn` of them is
`ProducesInTurn`. -/
theorem producesInTurn (g : α → Provider ρ) (items : List α) (w : World ρ σ π) :
    let script : Script ρ σ π (Except Fault (List Ref)) :=
      .inTurn (fun item => .ask (.produce id (g item))) items
    host.ProducesInTurn fuel id (items.map g) w ((script.toRun (host.answer fuel)).run w)
      (script.moments (host.answer fuel) (host.moments fuel) w) := by
  let turn : α → Script ρ σ π (Except Fault Ref) := fun item => .ask (.produce id (g item))
  show host.ProducesInTurn fuel id (items.map g) w
    (((Script.inTurn turn items).toRun (host.answer fuel)).run w)
    ((Script.inTurn turn items).moments (host.answer fuel) (host.moments fuel) w)
  -- over the entries that are left: the first of them halts, fails or leaves the turn to the others
  induction items generalizing w with
  | nil => exact .complete (.none w) rfl rfl
  | cons item items ih =>
    cases hturn : ((turn item).toRun (host.answer fuel)).run w with
    | error reason =>
      obtain ⟨hrun, hmoments⟩ := Script.inTurn_of_halt (host.moments fuel) items hturn
      rw [hrun, hmoments]
      exact .halted (.none w) rfl (by simp) hturn
    | ok p =>
      obtain ⟨reply, v⟩ := p
      cases reply with
      | error fault =>
        obtain ⟨hrun, hmoments⟩ := Script.inTurn_of_fault (host.moments fuel) items hturn
        let last : Turn ρ σ π := ⟨g item, w, .error fault, v⟩
        have hlast : host.Turns fuel id w ([] ++ [last]) last.after := .next hturn (.none v)
        have hduring : host.during fuel id ([] ++ [last]) =
            (turn item).moments (host.answer fuel) (host.moments fuel) w := List.append_nil _
        rw [hrun, hmoments, ← hduring]
        exact .failed hlast rfl (by simp) rfl
      | ok object =>
        obtain ⟨hrun, hmoments⟩ := Script.inTurn_of_ok (host.moments fuel) items hturn
        rw [hrun, hmoments]
        exact (ih v).after_turn hturn

end Host

/-! ### What is made of the objects -/

/-- What a collection comes to whose entries come to this in turn: a new object that holds theirs,
or the fault of the one that failed. -/
inductive Assembles (make : List Ref → Content π) :
    Except Halt (Except Fault (List Ref) × World ρ σ π) →
      Except Halt (Except Fault Ref × World ρ σ π) → Prop
  | made {objects : List Ref} {made : Ref} {v after : World ρ σ π}
      (hmade : v.allocate (make objects) = (made, after))
      (hcontent : after.content? made = some (make objects)) :
      Assembles make (.ok (.ok objects, v)) (.ok (.ok made, after))
  | failed (fault : Fault) (v : World ρ σ π) :
      Assembles make (.ok (.error fault, v)) (.ok (.error fault, v))
  | halted (reason : Halt) : Assembles make (.error reason) (.error reason)

namespace Script

variable {answer : (request : Request ρ σ π) → Run ρ σ π request.Answer}
variable {within : Request ρ σ π → World ρ σ π → List (Moment ρ σ π)}

/-- A new object is made of what a computation comes to, if it comes to objects, and else it is the
fault. -/
def assemble (make : List Ref → Content π) (work : Script ρ σ π (Except Fault (List Ref))) :
    Script ρ σ π (Except Fault Ref) := do
  match ← work with
  | .error fault => pure (.error fault)
  | .ok objects =>
    let made ← now (·.allocate (make objects))
    pure (.ok made)

variable (make : List Ref → Content π) (work : Script ρ σ π (Except Fault (List Ref)))

theorem assembles_assemble (w : World ρ σ π) :
    Assembles make ((work.toRun answer).run w) (((assemble make work).toRun answer).run w) := by
  rw [assemble, run_bind]
  rcases (work.toRun answer).run w with reason | ⟨fault | objects, v⟩
  · exact .halted reason
  · exact .failed fault v
  · exact .made rfl (v.content?_allocate (make objects))

theorem moments_assemble (w : World ρ σ π) :
    (assemble make work).moments answer within w = work.moments answer within w := by
  rw [assemble, moments_bind]
  rcases (work.toRun answer).run w with reason | ⟨fault | objects, v⟩
  · exact List.append_nil _
  · exact List.append_nil _
  · exact List.append_nil _

end Script

end Wiring
