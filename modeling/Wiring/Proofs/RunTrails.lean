import Wiring.Proofs.QuietScripts
import Wiring.Proofs.SlotLife

/-!
# The trail of a run

Every run of the host's code on one thread leads the world along its moments (`Host.trail_course`).
What carries the induction on the fuel is `Script.Goes`: a computation follows its moments, and
leaves alone the slots that were busy when it began. So whoever has taken a slot finds it busy still
when the delegate has come to an end, and may give it back (`Script.leads_production`).

* **`Request.Proper`** — what is asked of requests: no other threads, and no wrapper without a slot.
* **`Goes.takeOrMake`** and **`Goes.single`** — the slot of a singleton, from when it is taken until
  it is given back.
-/

namespace Wiring

variable {ρ σ π α β : Type}

/-- The request is carried out on the thread that makes it, as all are but `resolveApart` and
`resolveTogether`. -/
def Request.isSequential : Request ρ σ π → Bool
  | .resolveApart _ _ => false
  | .resolveTogether _ _ => false
  | _ => true

/-- The slot of the singleton whose wrapper is asked, a `Provider.singleton`. -/
def Request.slot? : Request ρ σ π → Option SlotId
  | .produce _ (.singleton slot _ _ _) => some slot
  | _ => none

/-- No other thread comes into it, by `isSequential`, and a wrapper that is asked has its slot:
nobody can make one without. -/
def Request.Proper (request : Request ρ σ π) (w : World ρ σ π) : Prop :=
  request.isSequential = true ∧ ∀ slot ∈ request.slot?, slot.index < w.slots.size

instance (request : Request ρ σ π) (w : World ρ σ π) : Decidable (request.Proper w) :=
  inferInstanceAs (Decidable (_ ∧ _))

/-- What is asked is asked properly, by `Request.Proper`. -/
def Moment.Proper : Moment ρ σ π → Prop
  | .asked request w => request.Proper w
  | _ => True

instance : (m : Moment ρ σ π) → Decidable m.Proper
  | .asked request w => inferInstanceAs (Decidable (request.Proper w))
  | .answered _ _ _ _ => .isTrue trivial
  | .begun _ => .isTrue trivial
  | .ended _ _ => .isTrue trivial

/-- What a computation comes to in `w` is reached along the moments, by `Trail`. If it does not
halt, it leaves busy slots alone and ends with a result and a world of which `ends` holds. -/
inductive Trail.Leads (w : World ρ σ π) (moments : List (Moment ρ σ π))
    (ends : α → World ρ σ π → Prop) : Except Halt (α × World ρ σ π) → Prop
  | halted {reason : Halt} {after : World ρ σ π} (h : Trail w moments after) :
      Leads w moments ends (.error reason)
  | ended {a : α} {after : World ρ σ π} (h : Trail w moments after)
      (hbusy : ∀ slot, w.slot slot = .busy → after.slot slot = .busy) (hends : ends a after) :
      Leads w moments ends (.ok (a, after))

theorem Trail.Leads.exists_trail {w : World ρ σ π} {moments : List (Moment ρ σ π)}
    {ends : α → World ρ σ π → Prop} {outcome : Except Halt (α × World ρ σ π)}
    (h : Leads w moments ends outcome) : ∃ after, Trail w moments after := by
  cases h with
  | halted htrail => exact ⟨_, htrail⟩
  | ended htrail _ _ => exact ⟨_, htrail⟩

namespace Script

/-- If all that it asks is `Proper`, the computation goes along its moments, as `Trail.Leads` has
it. -/
def Goes (answer : (request : Request ρ σ π) → Run ρ σ π request.Answer)
    (within : Request ρ σ π → World ρ σ π → List (Moment ρ σ π)) (x : Script ρ σ π α)
    (w : World ρ σ π) (ends : α → World ρ σ π → Prop) : Prop :=
  (∀ m ∈ x.moments answer within w, m.Proper) →
    Trail.Leads w (x.moments answer within w) ends ((x.toRun answer).run w)

section

variable {answer : (request : Request ρ σ π) → Run ρ σ π request.Answer}
variable {within : Request ρ σ π → World ρ σ π → List (Moment ρ σ π)}
variable {w : World ρ σ π} {id : InjectorId} {slot : SlotId} {key : Key} {type : ValueType}
variable {delegate : Provider ρ}

theorem calm_beginning : (w.setSlot slot .busy).Calm (w.beginning id slot key type) :=
  (World.Spares.setWaits _ id _).trans (.note _ _)

/-- The delegate begins in `World.beginning`, and what it does follows in the trail. -/
theorem trail_begun {moments : List (Moment ρ σ π)} {after : World ρ σ π}
    (hempty : w.slot slot = .empty) (hslot : slot.index < w.slots.size)
    (trail : Trail (w.beginning id slot key type) moments after) :
    Trail w (.begun slot :: moments) after :=
  .move (.refl w) (.begun hempty hslot) (trail.before calm_beginning)

/-- Whatever the delegate does, it finds the slot busy at its end, and the slot is given back as
`givenBack` has it. -/
theorem leads_production {moments : List (Moment ρ σ π)}
    {ends : Except Fault Ref → World ρ σ π → Prop}
    {outcome : Except Halt (Except Fault Ref × World ρ σ π)} (hempty : w.slot slot = .empty)
    (hslot : slot.index < w.slots.size)
    (h : Trail.Leads (w.beginning id slot key type) moments ends outcome) :
    Trail.Leads w
      (.begun slot :: moments ++ Moment.following outcome fun reply _ => [.ended slot reply])
      (fun reply after => ∀ object, reply = .ok object → after.slot slot = .filled object)
      (outcome.bind fun p => .ok (p.1, (p.2.stopProducing id key).setSlot slot (.keeping p.1))) := by
  have hbegin : (w.setSlot slot .busy).Calm (w.beginning id slot key type) := calm_beginning
  cases h with
  | halted htrail =>
    exact .halted ((trail_begun hempty hslot htrail).append (.still (.refl _)))
  | @ended reply made htrail hkept _ =>
    have hroom : slot.index < made.slots.size := by
      have hbefore := hbegin.room
      have hafter := htrail.room
      simp only [World.setSlot, Array.size_setIfInBounds] at hbefore
      omega
    have hbusy : made.slot slot = .busy :=
      hkept slot ((hbegin.slot slot).trans (World.slot_setSlot_self w _ hslot))
    have hback : Trail made [.ended slot reply]
        ((made.stopProducing id key).setSlot slot (.keeping reply)) :=
      .move (.setWaits made id _) (.ended hbusy hroom) (.still (.refl _))
    refine .ended ((trail_begun hempty hslot htrail).append hback) ?_ ?_
    · intro other hother
      -- the slot itself was not busy
      have hne : slot ≠ other := by
        rintro rfl
        rw [hempty] at hother
        cases hother
      have hbefore : (w.beginning id slot key type).slot other = .busy :=
        (hbegin.slot other).trans ((w.slot_setSlot_of_ne _ hne).trans hother)
      exact (World.slot_setSlot_of_ne _ _ hne).trans (hkept other hbefore)
    · rintro object rfl
      exact World.slot_setSlot_self _ _ hroom

theorem run_initialise :
    ((initialise id slot key type delegate).toRun answer).run (w.setSlot slot .busy) =
      ((answer (.produce id delegate)).run (w.beginning id slot key type)).bind fun p =>
        .ok (p.1, (p.2.stopProducing id key).setSlot slot (.keeping p.1)) := by
  show (Engine.initialise answer id slot key type delegate).run _ = _
  simp only [Engine.initialise, Run.run_bind, Run.run_change, Except.bind, World.beginning]
  cases (answer (.produce id delegate)).run _ with
  | error _ => rfl
  | ok p =>
    obtain ⟨outcome, u⟩ := p
    cases outcome <;> rfl

theorem run_takeOrMake (hempty : w.slot slot = .empty) :
    ((takeOrMake id slot key type delegate).toRun answer).run w =
      ((answer (.produce id delegate)).run (w.beginning id slot key type)).bind fun p =>
        .ok (p.1, (p.2.stopProducing id key).setSlot slot (.keeping p.1)) := by
  rw [toRun_takeOrMake, Engine.takeOrMake, Run.run_bind, Engine.run_takeSlot_of_empty hempty]
  show ((initialise id slot key type delegate).toRun answer).run (w.setSlot slot .busy) = _
  exact run_initialise

theorem moments_takeOrMake (hempty : w.slot slot = .empty) :
    (takeOrMake id slot key type delegate).moments answer within w =
      .begun slot :: within (.produce id delegate) (w.beginning id slot key type) ++
        Moment.following ((answer (.produce id delegate)).run (w.beginning id slot key type))
          fun outcome _ => [.ended slot outcome] := by
  have htake : (takeOrMake id slot key type delegate).moments answer within w =
      (initialise id slot key type delegate).moments answer within (w.setSlot slot .busy) := by
    show [] ++ Moment.following ((Engine.takeSlot slot).run w) _ = _
    rw [Engine.run_takeSlot_of_empty hempty]
    rfl
  rw [htake]
  show .begun slot :: ([] ++ ([] ++ (within (.produce id delegate) (w.beginning id slot key type) ++
      Moment.following ((answer (.produce id delegate)).run (w.beginning id slot key type)) _))) ++
    Moment.following
      (((initialise id slot key type delegate).toRun answer).run (w.setSlot slot .busy)) _ = _
  rw [run_initialise]
  -- nothing is asked once the delegate has produced
  cases (answer (.produce id delegate)).run (w.beginning id slot key type) with
  | error _ =>
    show .begun slot :: (within _ _ ++ []) ++ [] = .begun slot :: within _ _ ++ []
    simp only [List.append_nil]
  | ok p =>
    show .begun slot :: (within _ _ ++ []) ++ [.ended slot p.1] =
      .begun slot :: within _ _ ++ [.ended slot p.1]
    rw [List.append_nil]

end

namespace Goes

variable {answer : (request : Request ρ σ π) → Run ρ σ π request.Answer}
variable {within : Request ρ σ π → World ρ σ π → List (Moment ρ σ π)}
variable {w : World ρ σ π} {ends : α → World ρ σ π → Prop}

/-! ### Rules -/

theorem done {a : α} (h : ends a w) : (pure a : Script ρ σ π α).Goes answer within w ends :=
  fun _ => .ended (.still (.refl w)) (fun _ hbusy => hbusy) h

theorem step {take : World ρ σ π → Except Halt (α × World ρ σ π)}
    (h : ∀ a after, take w = .ok (a, after) → w.Calm after ∧ ends a after) :
    (Script.step take).Goes answer within w ends := by
  intro _
  show Trail.Leads w [] ends (take w)
  cases htake : take w with
  | error _ => exact .halted (.still (.refl w))
  | ok p =>
    obtain ⟨hcalm, hends⟩ := h p.1 p.2 htake
    exact .ended (.still hcalm) (fun slot hbusy => (hcalm.slot slot).trans hbusy) hends

theorem now {f : World ρ σ π → α × World ρ σ π} (hcalm : w.Calm (f w).2)
    (h : ends (f w).1 (f w).2) : (Script.now f).Goes answer within w ends :=
  fun _ => .ended (.still hcalm) (fun slot hbusy => (hcalm.slot slot).trans hbusy) h

theorem change {f : World ρ σ π → World ρ σ π} {ends : Unit → World ρ σ π → Prop}
    (hcalm : w.Calm (f w)) (h : ends () (f w)) : (Script.change f).Goes answer within w ends :=
  now hcalm h

theorem mono {x : Script ρ σ π α} {less : α → World ρ σ π → Prop}
    (h : x.Goes answer within w less) (hends : ∀ a after, less a after → ends a after) :
    x.Goes answer within w ends := by
  intro hproper
  have hless := h hproper
  generalize (x.toRun answer).run w = outcome at hless
  cases hless with
  | halted htrail => exact .halted htrail
  | ended htrail hbusy hless => exact .ended htrail hbusy (hends _ _ hless)

theorem bind {x : Script ρ σ π β} {f : β → Script ρ σ π α} (between : β → World ρ σ π → Prop)
    (hx : x.Goes answer within w between)
    (hf : ∀ b after, between b after → (f b).Goes answer within after ends) :
    (x >>= f).Goes answer within w ends := by
  intro hproper
  rw [moments_bind] at hproper ⊢
  rw [run_bind]
  have hfirst := hx fun m hm => hproper m (List.mem_append_left _ hm)
  generalize (x.toRun answer).run w = outcome at hfirst hproper
  cases hfirst with
  | halted htrail => exact .halted (htrail.append (.still (.refl _)))
  | @ended b v htrail hbusy hbetween =>
    have hsecond := hf b v hbetween fun m hm => hproper m (List.mem_append_right _ hm)
    show Trail.Leads w (_ ++ (f b).moments answer within v) ends (((f b).toRun answer).run v)
    generalize ((f b).toRun answer).run v = outcome at hsecond
    cases hsecond with
    | halted hrest => exact .halted (htrail.append hrest)
    | ended hrest hkept hends =>
      exact .ended (htrail.append hrest) (fun slot h => hkept slot (hbusy slot h)) hends

/-- Providers other than singletons keep nothing, so `Settled` says nothing of what they give. -/
theorem unkept {id : InjectorId} {provider : Provider ρ} {x : Script ρ σ π (Except Fault Ref)}
    (hplain : ∀ slot name type delegate, provider ≠ .singleton slot name type delegate)
    (h : x.Goes answer within w fun _ _ => True) :
    x.Goes answer within w ((Request.produce id provider).Settled w) :=
  mono h fun _ _ _ slot name type delegate _ heq => absurd heq (hplain slot name type delegate)

/-! ### The parts of the engine

Each goes along its moments if the requests that it makes do. -/

section

variable (hask : ∀ request w, (ask request).Goes answer within w (request.Settled w))
variable {host : Host ρ σ π} {id : InjectorId} {key : Key} {slot : SlotId} {type : ValueType}
variable {delegate : Provider ρ}

include hask

theorem of_quiet {x : Script ρ σ π α} (h : x.Quiet) (w : World ρ σ π) :
    x.Goes answer within w fun _ _ => True := by
  induction h generalizing w with
  | pure _ => exact done trivial
  | now h => exact now (.of_edits (h w)) trivial
  | ask request => exact mono (hask request w) fun _ _ _ => trivial
  | bind _ _ ih ih' => exact bind _ (ih w) fun b v _ => ih' b v

/-- The value of a key comes from the wrapper that its binding has at the outset, and `Settled`
tells it. -/
theorem resolve :
    (Script.resolve id key).Goes answer within w ((Request.resolve id key).Settled w) := by
  -- nothing rebinds the key before its provider is looked up
  refine bind (fun _ v => v.injectors = w.injectors) (now (.pushKey w key) ?_) ?_
  · rw [World.pushKey]
    split <;> rfl
  intro pushed v hsame
  cases pushed with
  | error _ => exact done fun _ _ _ _ _ _ hreply => by cases hreply
  | ok _ =>
    refine bind (fun _ v => v.injectors = w.injectors) (change (.note v _) hsame) ?_
    intro _ v hsame
    have hfound : (v.providerOf id key).1 = (w.providerOf id key).1 := by
      rw [World.providerOf, World.providerOf, World.injector, World.injector, hsame]
      split <;> rfl
    -- whatever it comes to, the key is taken off the stack
    have hpop (outcome : Except Fault Ref) (u : World ρ σ π)
        (hsettled : (Request.resolve id key).Settled w outcome u) :
        (do Script.change (·.popKey); pure outcome : Script ρ σ π (Except Fault Ref)).Goes
          answer within u ((Request.resolve id key).Settled w) :=
      bind (fun _ after => ∀ slot, after.slot slot = u.slot slot)
        (change (.of_eq rfl rfl) fun _ => rfl) fun _ after hslots => done
          fun slot name type delegate object hsingleton hreply =>
            (hslots slot).trans (hsettled slot name type delegate object hsingleton hreply)
    refine bind (fun found _ => found = (w.providerOf id key).1) (now (.providerOf v id key) hfound) ?_
    rintro found u rfl
    cases hprovider : (w.providerOf id key).1 with
    | error _ => exact bind _ (done fun _ _ _ _ _ _ hreply => by cases hreply) hpop
    | ok provider =>
      refine bind _ (mono (hask (.produce id provider) u) fun reply after hsettled => ?_) hpop
      intro slot name type delegate object hsingleton hreply
      rw [hprovider] at hsingleton
      exact hsettled slot name type delegate object (Except.ok.inj hsingleton) hreply

/-- Whoever takes an empty slot finds it busy after the delegate, by `leads_production`, and gives
it back. -/
theorem takeOrMake (hslot : slot.index < w.slots.size) :
    (Script.takeOrMake id slot key type delegate).Goes answer within w fun reply after =>
      ∀ object, reply = .ok object → after.slot slot = .filled object := by
  by_cases hempty : w.slot slot = .empty
  case neg =>
    -- another has made it meanwhile, or is at it
    refine bind (fun taken after => ∃ object, taken = some object ∧ after.slot slot = .filled object)
      (step fun taken after htake => ?_) ?_
    · split at htake
      case h_1 object hfilled =>
        cases htake
        exact ⟨.refl w, object, rfl, hfilled⟩
      case h_2 hcontent => exact absurd hcontent hempty
      case h_3 => cases htake
    · rintro _ after ⟨object, rfl, hfilled⟩
      exact done fun _ hreply => Except.ok.inj hreply ▸ hfilled
  case pos =>
    intro hproper
    rw [moments_takeOrMake hempty] at hproper ⊢
    rw [run_takeOrMake hempty]
    exact leads_production hempty hslot (hask (.produce id delegate) _ fun m hm =>
      hproper m (List.mem_append_left _ (.tail _ hm)))

theorem await (hslot : slot.index < w.slots.size) :
    (Script.await id slot key type delegate).Goes answer within w fun reply after =>
      ∀ object, reply = .ok object → after.slot slot = .filled object := by
  refine bind (fun _ v => w.Calm v) (now (.awaitKey w id key) (.awaitKey w id key)) fun granted v hv => ?_
  cases granted with
  | error _ => exact done fun _ hreply => by cases hreply
  | ok _ =>
    refine bind _ (takeOrMake hask (Nat.lt_of_lt_of_le hslot hv.room)) fun reply u hreply => ?_
    refine bind (fun _ after => after.slot slot = u.slot slot) (change (.setWaits u id _) rfl) ?_
    intro _ after hsame
    exact done fun object hobject => hsame.trans (hreply object hobject)

/-- A value that the wrapper of a singleton gives is in its slot, as `Slot.filled`. -/
theorem single (hslot : slot.index < w.slots.size) :
    (Script.single id slot key type delegate).Goes answer within w fun reply after =>
      ∀ object, reply = .ok object → after.slot slot = .filled object := by
  refine bind (fun found v => v = w ∧ found = w.slot slot) (now (.refl w) ⟨rfl, rfl⟩) ?_
  rintro found v ⟨rfl, hfound⟩
  cases found with
  | filled object => exact done fun _ hreply => Except.ok.inj hreply ▸ hfound.symm
  | empty => exact await hask hslot
  | busy => exact await hask hslot

theorem produce {provider : Provider ρ}
    (hproper : (Request.produce id provider : Request ρ σ π).Proper w) :
    (Script.produce host id provider).Goes answer within w
      ((Request.produce id provider).Settled w) := by
  cases provider with
  | singleton slot name type delegate =>
    refine mono (single hask (hproper.2 slot rfl)) fun reply after hreply => ?_
    rintro _ _ _ _ object ⟨⟩ hobject
    exact hreply object hobject
  | _ => exact unkept (by simp) (of_quiet hask (.produce (by simp)) w)

/-- The script of a request that is no action goes along its moments; those for other threads are
not `Proper`. -/
theorem request (steps : Nat) {r : Request ρ σ π} (hproper : r.Proper w)
    (hact : ∀ action, r ≠ .act action) :
    (Script.request host steps r).Goes answer within w (r.Settled w) := by
  cases r with
  | act action => exact absurd rfl (hact action)
  | resolve id key => exact resolve hask
  | produce id provider => exact produce hask hproper
  | injectMembers id type object => exact of_quiet hask (.injectMembers type object) w
  | install id module => exact of_quiet hask (.install module) w
  | resolveApart _ _ => exact Bool.noConfusion hproper.1
  | resolveTogether _ _ => exact Bool.noConfusion hproper.1
  | pause => exact fun _ => .ended (.still (.refl w)) (fun _ hbusy => hbusy) trivial

end

end Goes

end Script

namespace Host

variable {host : Host ρ σ π}

/-- A request that is asked properly leads the world along its moments. Induction on the fuel. -/
theorem goes_request (fuel : Nat) (request : Request ρ σ π) (w : World ρ σ π) :
    (Script.ask request).Goes (host.answer fuel) (host.moments fuel) w (request.Settled w) := by
  induction fuel generalizing request w with
  | zero => exact fun _ => .halted (.still (.refl w))
  | succ fuel ih =>
    have hrun : (host.answer (fuel + 1) request).run w =
        ((Script.request host fuel request).toRun (host.answer fuel)).run w :=
      congrArg (Run.run · w) (Script.toRun_request host (host.answer fuel) fuel request).symm
    intro hproper
    show Trail.Leads w (.asked request w :: (Script.request host fuel request).moments _ _ w ++
      Moment.following ((host.answer (fuel + 1) request).run w)
        fun reply after => [.answered request w reply after])
      (request.Settled w) ((host.answer (fuel + 1) request).run w)
    -- an action has no script to follow, it is one step
    by_cases hact : ∃ action, request = .act action
    case pos =>
      obtain ⟨action, rfl⟩ := hact
      have hspares := World.Spares.perform action w
      have hanswer : Trail (action.perform w).2
          [.answered (.act action) w (action.perform w).1 (action.perform w).2]
          (action.perform w).2 := .move (.refl _) (.answered trivial) (.still (.refl _))
      refine .ended (.move (.refl w) (.asked hspares) hanswer) ?_ trivial
      exact fun slot hbusy => (hspares.slot slot).trans hbusy
    case neg =>
      have hscript := Script.Goes.request ih fuel (hproper _ (.head _))
        (fun action heq => hact ⟨action, heq⟩) fun m hm =>
          hproper m (List.mem_append_left _ (.tail _ hm))
      rw [hrun]
      generalize ((Script.request host fuel request).toRun (host.answer fuel)).run w = outcome
        at hscript
      cases hscript with
      | halted htrail =>
        exact .halted (.move (.refl w) (.asked (.refl w)) (htrail.append (.still (.refl _))))
      | ended htrail hbusy hsettled =>
        have hanswer := htrail.append (.move (.refl _) (.answered hsettled) (.still (.refl _)))
        exact .ended (.move (.refl w) (.asked (.refl w)) hanswer) hbusy hsettled

/-- Code that asks properly leads the world along its moments by `Trail`, up to where it halts if it
does. -/
theorem trail_course (fuel : Nat) (code : Code ρ σ π α) (w : World ρ σ π)
    (hproper : ∀ m ∈ host.course fuel code w, m.Proper) :
    ∃ after, Trail w (host.course fuel code w) after :=
  (Script.Goes.of_quiet (goes_request fuel) (.code code) w hproper).exists_trail

end Host

end Wiring
