import Wiring.Proofs.Frames

/-!
# What is in progress along a run

Along every orderly run of the host's code on one thread the world has recorded, at each moment,
just what is in progress then (`Host.course_fits`). What carries the induction on the fuel is
`Script.Paces`: a computation goes from what is in progress to what its moments make of it. Most
parts of the engine make nothing of it, but for guards that the host's code puts (`Script.Steady`);
resolutions and gets leave it exactly as they found it (`Script.Whole`).

* **`paces_resolve`** and **`paces_single`** — the two parts that put something on record.
* **`paces_request`** — induction on the fuel, with `paces_ask` for each request; what is in
  progress is then read off `course_fits`.
* **`Moment.Orderly`** — what is asked of the host's code, and nothing else.
-/

namespace Wiring

variable {ρ σ π α β : Type}

/-! ### Orderly runs -/

/-- The injector with which the wrapper of a `Provider.singleton` is asked. -/
def Request.waiter? : Request ρ σ π → Option InjectorId
  | .produce id (.singleton _ _ _ _) => some id
  | _ => none

/-- The request is for a value: of a key by `Request.resolve`, or of a provider at hand by
`Request.produce`. -/
def Request.isForValue : Request ρ σ π → Bool
  | .resolve _ _ => true
  | .produce _ _ => true
  | _ => false

/-- What is asked is asked properly, and a wrapper is asked with an injector that there is, its
`waiter?`. -/
def Moment.Sound (m : Moment ρ σ π) : Prop :=
  match m with
  | .asked request w => request.Proper w ∧ ∀ id ∈ request.waiter?, id.index < w.injectors.size
  | _ => True

instance : (m : Moment ρ σ π) → Decidable m.Sound
  | .asked request w =>
    inferInstanceAs (Decidable (request.Proper w ∧ ∀ id ∈ request.waiter?, id.index < w.injectors.size))
  | .answered _ _ _ _ => .isTrue trivial
  | .begun _ => .isTrue trivial
  | .ended _ _ => .isTrue trivial

/-- The host's code has taken back its guards (`Frame.guarded`) when a get is over, and takes off no
key but those that it has put since the get began. -/
def Moment.keepsGuards (F : List (Frame ρ)) : Moment ρ σ π → Bool
  | .answered (.produce _ _) _ _ _ => !Frame.guarded F
  | .answered (.act .popKey) _ _ _ => Frame.guarded F
  | _ => true

/-- The moment is `Sound`, and the host's code keeps its guards by `keepsGuards` if it is to do
so. -/
def Moment.Orderly (guards : Prop) (F : List (Frame ρ)) (m : Moment ρ σ π) : Prop :=
  m.Sound ∧ (guards → m.keepsGuards F = true)

instance (guards : Prop) [Decidable guards] (F : List (Frame ρ)) (m : Moment ρ σ π) :
    Decidable (m.Orderly guards F) :=
  inferInstanceAs (Decidable (m.Sound ∧ (guards → m.keepsGuards F = true)))

/-- What holds at a moment when `F` is in progress before it: the world `Records` it, and an answer
to a request for a value leaves it as it was. -/
def Moment.Fits (start : World ρ σ π) (guards : Prop) (F : List (Frame ρ)) : Moment ρ σ π → Prop
  | .asked _ w => start.Records guards F w
  | .answered request before reply after =>
    start.Records guards ((Moment.answered request before reply after).frames F) after ∧
      (request.isForValue = true →
        start.Records guards ((Moment.answered request before reply after).frames F) before)
  | .begun slot => ∀ id key, .making id slot key ∉ F
  | .ended _ _ => True

namespace Script

/-! ### Rules -/

section

variable (start : World ρ σ π) (guards : Prop)
variable (answer : (request : Request ρ σ π) → Run ρ σ π request.Answer)
variable (within : Request ρ σ π → World ρ σ π → List (Moment ρ σ π))

/-- If its moments are `Orderly`, they fit by `Moment.Fits`, and a result is one of which `ends`
holds. -/
def Paces (x : Script ρ σ π α) (F : List (Frame ρ)) (w : World ρ σ π)
    (ends : α → List (Frame ρ) → World ρ σ π → Prop) : Prop :=
  Moment.Along (Moment.Orderly guards) F (x.moments answer within w) →
    Moment.Along (Moment.Fits start guards) F (x.moments answer within w) ∧
      ∀ a after, (x.toRun answer).run w = .ok (a, after) →
        ends a (Moment.inProgress F (x.moments answer within w)) after

/-- Whatever is in progress, it stays so by `Paces`, but for guards that the host's code puts. -/
def Steady (x : Script ρ σ π α) : Prop :=
  ∀ F w, start.Records guards F w → x.Paces start guards answer within F w fun _ G after =>
    Frame.unguarded G = Frame.unguarded F ∧ start.Records guards G after

/-- Whatever is in progress, it stays so by `Paces`, guards and all. -/
def Whole (x : Script ρ σ π α) : Prop :=
  ∀ F w, start.Records guards F w → x.Paces start guards answer within F w fun _ G after =>
    G = F ∧ start.Records guards F after

end

variable {start : World ρ σ π} {guards : Prop}
variable {answer : (request : Request ρ σ π) → Run ρ σ π request.Answer}
variable {within : Request ρ σ π → World ρ σ π → List (Moment ρ σ π)}
variable {F : List (Frame ρ)} {w : World ρ σ π}

namespace Paces

variable {ends : α → List (Frame ρ) → World ρ σ π → Prop}

theorem done {a : α} (h : ends a F w) :
    (pure a : Script ρ σ π α).Paces start guards answer within F w ends :=
  fun _ => ⟨trivial, fun _ _ hrun => by cases hrun; exact h⟩

theorem now {f : World ρ σ π → α × World ρ σ π} (h : ends (f w).1 F (f w).2) :
    (Script.now f).Paces start guards answer within F w ends := by
  refine fun _ => ⟨trivial, fun a after hrun => ?_⟩
  have heq : f w = (a, after) := Except.ok.inj hrun
  rw [heq] at h
  exact h

theorem change {f : World ρ σ π → World ρ σ π} {ends : Unit → List (Frame ρ) → World ρ σ π → Prop}
    (h : ends () F (f w)) : (Script.change f).Paces start guards answer within F w ends :=
  now h

theorem mono {x : Script ρ σ π α} {less : α → List (Frame ρ) → World ρ σ π → Prop}
    (h : x.Paces start guards answer within F w less)
    (hends : ∀ a G after, less a G after → ends a G after) :
    x.Paces start guards answer within F w ends := by
  intro horderly
  obtain ⟨hfits, hless⟩ := h horderly
  exact ⟨hfits, fun a after hrun => hends _ _ _ (hless a after hrun)⟩

theorem bind {x : Script ρ σ π β} {f : β → Script ρ σ π α}
    (between : β → List (Frame ρ) → World ρ σ π → Prop)
    (hx : x.Paces start guards answer within F w between)
    (hf : ∀ b G v, between b G v → (f b).Paces start guards answer within G v ends) :
    (x >>= f).Paces start guards answer within F w ends := by
  intro horderly
  rw [moments_bind, Moment.along_append] at horderly
  rw [moments_bind, Moment.along_append, Moment.inProgress_append, run_bind]
  obtain ⟨hfits, hbetween⟩ := hx horderly.1
  have hrest := horderly.2
  cases hfirst : (x.toRun answer).run w with
  | error _ => exact ⟨⟨hfits, trivial⟩, fun _ _ h => nomatch h⟩
  | ok p =>
    rw [hfirst] at hrest
    obtain ⟨hfits', hends⟩ := hf p.1 _ p.2 (hbetween p.1 p.2 hfirst) hrest
    exact ⟨⟨hfits, hfits'⟩, hends⟩

end Paces

namespace Steady

theorem pure (a : α) : (Pure.pure a : Script ρ σ π α).Steady start guards answer within :=
  fun _ _ h => .done ⟨rfl, h⟩

theorem now {f : World ρ σ π → α × World ρ σ π}
    (h : ∀ w : World ρ σ π, w.Edits (fun _ _ => False) (f w).2) :
    (Script.now f).Steady start guards answer within :=
  fun _ w hrecords => .now ⟨rfl, hrecords.of_edits (h w)⟩

theorem bind {x : Script ρ σ π β} {f : β → Script ρ σ π α}
    (hx : x.Steady start guards answer within) (hf : ∀ b, (f b).Steady start guards answer within) :
    (x >>= f).Steady start guards answer within :=
  fun F w h => .bind _ (hx F w h) fun b G v hbetween =>
    .mono (hf b G v hbetween.2) fun _ _ _ hends => ⟨hends.1.trans hbetween.1, hends.2⟩

/-- A script that puts nothing on record, by `Script.Quiet`, is `Steady` if the requests that it
makes are. -/
theorem of_quiet {x : Script ρ σ π α}
    (hask : ∀ request, (ask request).Steady start guards answer within) (h : x.Quiet) :
    x.Steady start guards answer within := by
  induction h with
  | pure a => exact pure a
  | now h => exact now h
  | ask request => exact hask request
  | bind _ _ ih ih' => exact bind ih ih'

end Steady

/-! ### Resolutions and gets on singletons

These put something on record and take it back, whatever becomes of them. -/

/-- When the innermost frame ends, `F` is in progress, and that is what the world `Records`. -/
def Closes (start : World ρ σ π) (guards : Prop) (F : List (Frame ρ)) :
    α → List (Frame ρ) → World ρ σ π → Prop :=
  fun _ G after => Frame.close G = F ∧ ((guards → Frame.guarded G = false) →
    start.Records guards F after)

section

variable {id : InjectorId} {key : Key} {slot : SlotId} {type : ValueType} {delegate : Provider ρ}

theorem run_takeOrMake_of_busy (h : w.slot slot = .busy) :
    ((takeOrMake id slot key type delegate).toRun answer).run w = .error .blocked := by
  rw [toRun_takeOrMake, Engine.takeOrMake, Run.run_bind, Engine.takeSlot, Run.run, h]
  rfl

theorem moments_takeOrMake_of_busy (h : w.slot slot = .busy) :
    (takeOrMake id slot key type delegate).moments answer within w = [] := by
  show [] ++ Moment.following ((Engine.takeSlot slot).run w) _ = _
  rw [Engine.takeSlot, Run.run, h]
  rfl

/-- A slot that is taken is waited for, and nothing comes of it on this thread: `takeOrMake`
halts. -/
theorem paces_takeOrMake_of_busy {ends : Except Fault Ref → List (Frame ρ) → World ρ σ π → Prop}
    (h : w.slot slot = .busy) :
    (Script.takeOrMake id slot key type delegate).Paces start guards answer within F w ends := by
  intro _
  rw [moments_takeOrMake_of_busy h, run_takeOrMake_of_busy h]
  exact ⟨trivial, nofun⟩

variable (hask : ∀ id provider,
  (ask (.produce id provider)).Whole start guards answer within)

include hask

/-- The key is on the stack while its provider produces, so a `Frame.resolving` is in progress. -/
theorem paces_resolve (h : start.Records guards F w) :
    (Script.resolve id key).Paces start guards answer within (.resolving id key :: F) w
      fun _ G after => G = .resolving id key :: F ∧ start.Records guards F after := by
  refine .bind (fun granted G v => G = .resolving id key :: F ∧
    (granted = .ok () → start.Records guards (.resolving id key :: F) v) ∧
    (granted ≠ .ok () → start.Records guards F v)) (.now ⟨rfl, ?_⟩) ?_
  · cases hpush : w.stack.push key with
    | error fault =>
      rw [World.pushKey, hpush]
      exact ⟨fun hgranted => (by cases hgranted), fun _ => h.of_edits (.raise w fault)⟩
    | ok stack =>
      rw [World.pushKey, hpush]
      exact ⟨fun _ => h.push rfl hpush, fun hrefused => absurd rfl hrefused⟩
  rintro granted _ v ⟨rfl, hgranted, hrefused⟩
  cases granted with
  | error _ => exact .done ⟨rfl, hrefused fun heq => by cases heq⟩
  | ok _ =>
    have hv := hgranted rfl
    -- whatever it comes to, the key is taken off the stack
    have hpop (outcome : Except Fault Ref) (u : World ρ σ π)
        (hu : start.Records guards (.resolving id key :: F) u) :
        (do change (·.popKey); pure outcome : Script ρ σ π (Except Fault Ref)).Paces start guards
          answer within (.resolving id key :: F) u
          fun _ G after => G = .resolving id key :: F ∧ start.Records guards F after := by
      refine .bind (fun _ G after => G = .resolving id key :: F ∧ start.Records guards F after)
        (.change ⟨rfl, hu.pop rfl⟩) ?_
      rintro _ _ after ⟨rfl, hafter⟩
      exact .done ⟨rfl, hafter⟩
    refine .bind (fun _ G u => G = .resolving id key :: F ∧ start.Records guards G u)
      (.change ⟨rfl, hv.of_edits (.note v _)⟩) ?_
    rintro _ _ u ⟨rfl, hu⟩
    refine .bind (fun _ G u => G = .resolving id key :: F ∧ start.Records guards G u)
      (.now ⟨rfl, hu.of_edits (.providerOf u id key)⟩) ?_
    rintro found _ u ⟨rfl, hu⟩
    cases found with
    | error _ =>
      refine .bind (fun _ G u => G = .resolving id key :: F ∧ start.Records guards G u)
        (.done ⟨rfl, hu⟩) ?_
      rintro outcome _ u ⟨rfl, hu⟩
      exact hpop outcome u hu
    | ok provider =>
      refine .bind _ (hask id provider _ u hu) ?_
      rintro outcome _ u ⟨rfl, hu⟩
      exact hpop outcome u hu

/-- The delegate of a singleton is at work from when `takeOrMake` takes the slot until it gives it
back. -/
theorem paces_takeOrMake {v : World ρ σ π} {provider : Provider ρ}
    (hprovider : provider = .singleton slot key type delegate)
    (h : start.Records guards (.producing id provider :: F) w) (hid : id.index < w.injectors.size)
    (hslot : slot.index < w.slots.size) (hkey : key ∉ Frame.made id (.producing id provider :: F))
    (hempty : w.slot slot = .empty) (hawait : w.awaitKey id key = (.ok (), v)) :
    (Script.takeOrMake id slot key type delegate).Paces start guards answer within
      (.producing id provider :: F) v fun _ G made => G = .producing id provider :: F ∧
        start.Records guards (.producing id provider :: F) (made.stopAwaiting id key) := by
  -- no delegate is at work for the slot, which is empty
  have hidle : ∀ other name, .making other slot name ∉ (.producing id provider :: F) := by
    intro other name hmem
    have hbusy := h.busy other slot name hmem
    rw [hempty] at hbusy
    cases hbusy
  have hv : v.slot slot = .empty := (World.slot_of_awaitKey hawait slot).trans hempty
  have hframes : (Moment.begun slot : Moment ρ σ π).frames (.producing id provider :: F) =
      .making id slot key :: .producing id provider :: F := by
    subst hprovider
    rfl
  intro horderly
  rw [moments_takeOrMake hv, List.cons_append, Moment.Along, hframes, Moment.along_append] at horderly
  rw [moments_takeOrMake hv, run_takeOrMake hv, List.cons_append, Moment.Along, hframes,
    Moment.along_append]
  obtain ⟨hfits, hends⟩ := hask id delegate _ _ (h.make hid hslot hkey hawait) horderly.2.1
  cases hrun : (answer (.produce id delegate)).run (v.beginning id slot key type) with
  | error _ => exact ⟨⟨hidle, hfits, trivial⟩, fun _ _ heq => by cases heq⟩
  | ok p =>
    obtain ⟨outcome, made⟩ := p
    obtain ⟨hsame, hmade⟩ := hends outcome made hrun
    have hback : Moment.inProgress (.making id slot key :: .producing id provider :: F)
        (within (.produce id delegate) (v.beginning id slot key type) ++
          Moment.following (.ok (outcome, made)) fun outcome _ => [.ended slot outcome]) =
        .producing id provider :: F := by
      rw [Moment.inProgress_append]
      exact congrArg Frame.close hsame
    refine ⟨⟨hidle, hfits, trivial, trivial⟩, ?_⟩
    rintro a after ⟨⟩
    refine ⟨?_, hmade.unmake hkey hidle _⟩
    exact (congrArg (Moment.inProgress · _) hframes).trans hback

/-- Nothing is waited for any more when the wait is over; one that would never end is refused by
`World.awaitKey`. -/
theorem paces_await {provider : Provider ρ} (hprovider : provider = .singleton slot key type delegate)
    (h : start.Records guards (.producing id provider :: F) w) (hid : id.index < w.injectors.size)
    (hslot : slot.index < w.slots.size) (hfilled : ∀ object, w.slot slot ≠ .filled object) :
    (Script.await id slot key type delegate).Paces start guards answer within
      (.producing id provider :: F) w fun _ G after => G = .producing id provider :: F ∧
        start.Records guards (.producing id provider :: F) after := by
  refine .bind (fun granted G v => G = .producing id provider :: F ∧ w.awaitKey id key = (granted, v))
    (.now ⟨rfl, rfl⟩) ?_
  rintro granted _ v ⟨rfl, hawait⟩
  -- a wait for a key that this thread produces further out would never end
  by_cases hkey : key ∈ Frame.made id (.producing id provider :: F)
  case pos =>
    rw [h.awaitKey_of_made hkey] at hawait
    cases hawait
    exact .done ⟨rfl, h.of_edits (.note w _)⟩
  case neg =>
    obtain rfl : granted = .ok () := by
      rw [h.awaitKey_of_not_made hkey] at hawait
      exact (Prod.mk.inj hawait).1.symm
    cases hcontent : w.slot slot with
    | filled object => exact absurd hcontent (hfilled object)
    | empty =>
      refine .bind _ (paces_takeOrMake hask hprovider h hid hslot hkey hcontent hawait) ?_
      rintro outcome _ made ⟨rfl, hmade⟩
      refine .bind (fun _ G after => G = .producing id provider :: F ∧
        start.Records guards (.producing id provider :: F) after) (.change ⟨rfl, hmade⟩) ?_
      rintro _ _ after ⟨rfl, hafter⟩
      exact .done ⟨rfl, hafter⟩
    | busy =>
      -- nobody else is there who could give the slot back
      have hv : v.slot slot = .busy := (World.slot_of_awaitKey hawait slot).trans hcontent
      exact .bind (fun _ _ _ => False) (paces_takeOrMake_of_busy hv) fun _ _ _ hnever => hnever.elim

/-- The value of a singleton, by `Script.single`: what is put on record for it is taken back. -/
theorem paces_single {provider : Provider ρ} (hprovider : provider = .singleton slot key type delegate)
    (h : start.Records guards F w) (hid : id.index < w.injectors.size)
    (hslot : slot.index < w.slots.size) :
    (Script.single id slot key type delegate).Paces start guards answer within
      (.producing id provider :: F) w (Closes start guards F) := by
  have hproducing : start.Records guards (.producing id provider :: F) w :=
    World.Records.producing.2 h
  have hawait (hfilled : ∀ object, w.slot slot ≠ .filled object) :
      (Script.await id slot key type delegate).Paces start guards answer within
        (.producing id provider :: F) w (Closes start guards F) := by
    refine .mono (paces_await hask hprovider hproducing hid hslot hfilled) ?_
    rintro _ _ _ ⟨rfl, hafter⟩
    exact ⟨rfl, fun _ => World.Records.producing.1 hafter⟩
  refine .bind (fun found G v => found = w.slot slot ∧ G = .producing id provider :: F ∧ v = w)
    (.now ⟨rfl, rfl, rfl⟩) ?_
  rintro found _ _ ⟨hfound, rfl, rfl⟩
  cases found with
  | filled _ => exact .done ⟨rfl, fun _ => h⟩
  | empty => exact hawait fun _ => by rw [← hfound]; nofun
  | busy => exact hawait fun _ => by rw [← hfound]; nofun

end

theorem Whole.steady {x : Script ρ σ π α} (h : x.Whole start guards answer within) :
    x.Steady start guards answer within :=
  fun F w hrecords => .mono (h F w hrecords) fun _ _ _ hends => ⟨hends.1 ▸ rfl, hends.1 ▸ hends.2⟩

/-! ### Requests -/

section

variable {host : Host ρ σ π} {fuel : Nat} {r : Request ρ σ π}

/-- A request is asked, its script runs, and if that comes to an end the request is answered, in a
moment that `Fits`. -/
theorem paces_ask {ends mid : r.Answer → List (Frame ρ) → World ρ σ π → Prop}
    (h : start.Records guards F w)
    (hscript : (Moment.asked r w).Sound → (request host fuel r).Paces start guards (host.answer fuel)
      (host.moments fuel) ((Moment.asked r w).frames F) w mid)
    (hanswer : ∀ reply G after, mid reply G after →
      (Moment.answered r w reply after).Orderly guards G →
      (Moment.answered r w reply after).Fits start guards G ∧
        ends reply ((Moment.answered r w reply after).frames G) after) :
    (ask r).Paces start guards (host.answer (fuel + 1)) (host.moments (fuel + 1)) F w ends := by
  have hrun : (host.answer (fuel + 1) r).run w =
      ((request host fuel r).toRun (host.answer fuel)).run w :=
    congrArg (Run.run · w) (toRun_request host (host.answer fuel) fuel r).symm
  have hmoments : (ask r).moments (host.answer (fuel + 1)) (host.moments (fuel + 1)) w =
      .asked r w :: ((request host fuel r).moments (host.answer fuel) (host.moments fuel) w ++
        Moment.following (((request host fuel r).toRun (host.answer fuel)).run w)
          fun reply after => [.answered r w reply after]) := by
    rw [← hrun]
    rfl
  have hask : ((ask r).toRun (host.answer (fuel + 1))).run w =
      ((request host fuel r).toRun (host.answer fuel)).run w := hrun
  -- the moments are the asking, then those of the script, and the answer if it comes to one
  intro horderly
  rw [hmoments, Moment.Along, Moment.along_append] at horderly
  rw [hmoments, Moment.Along, Moment.along_append, hask]
  obtain ⟨hasked, hinside, hlast⟩ := horderly
  obtain ⟨hfits, hmid⟩ := hscript hasked.1 hinside
  cases hreply : ((request host fuel r).toRun (host.answer fuel)).run w with
  | error _ => exact ⟨⟨h, hfits, trivial⟩, fun _ _ heq => by cases heq⟩
  | ok p =>
    rw [hreply] at hlast
    obtain ⟨hfit, hends⟩ := hanswer p.1 _ p.2 (hmid p.1 p.2 hreply) hlast.1
    refine ⟨⟨h, hfits, hfit, trivial⟩, ?_⟩
    rintro reply after ⟨⟩
    have hsame : Moment.inProgress F (.asked r w ::
        ((request host fuel r).moments (host.answer fuel) (host.moments fuel) w ++
          Moment.following (.ok (reply, after)) fun reply after => [.answered r w reply after])) =
        (Moment.answered r w reply after).frames (Moment.inProgress ((Moment.asked r w).frames F)
          ((request host fuel r).moments (host.answer fuel) (host.moments fuel) w)) :=
      Moment.inProgress_append
    rw [hsame]
    exact hends

/-- When what a request has begun ends with the answer by `Closes`, that is what the answer
shows. -/
theorem answered_of_closed {reply : r.Answer} {G : List (Frame ρ)} {after : World ρ σ π}
    (hsame : (Moment.answered r w reply after).frames G = F) (h : start.Records guards F w)
    (hafter : start.Records guards F after) :
    (Moment.answered r w reply after).Fits start guards G ∧
      (Moment.answered r w reply after).frames G = F ∧ start.Records guards F after := by
  rw [Moment.Fits, hsame]
  exact ⟨⟨hafter, fun _ => h⟩, rfl, hafter⟩

end

end Script

namespace Host

variable {host : Host ρ σ π} {start : World ρ σ π} {guards : Prop}

open Script

section

variable {fuel : Nat}
variable (hask : ∀ id provider, (ask (.produce id provider)).Whole start guards
  (host.answer fuel) (host.moments fuel))
variable (hsteady : ∀ request, (ask request).Steady start guards (host.answer fuel) (host.moments fuel))

include hask in
theorem whole_resolve (id : InjectorId) (key : Key) :
    (ask (.resolve id key)).Whole start guards (host.answer (fuel + 1)) (host.moments (fuel + 1)) := by
  intro F w h
  refine paces_ask h (fun _ => paces_resolve hask h) ?_
  rintro reply G after ⟨rfl, hafter⟩ -
  exact answered_of_closed rfl h hafter

include hask hsteady in
theorem whole_produce (id : InjectorId) (provider : Provider ρ) :
    (ask (.produce id provider)).Whole start guards (host.answer (fuel + 1))
      (host.moments (fuel + 1)) := by
  intro F w h
  have hscript (hsound : (Moment.asked (.produce id provider) w).Sound) :
      (request host fuel (.produce id provider)).Paces start guards (host.answer fuel)
        (host.moments fuel) (.producing id provider :: F) w (Closes start guards F) := by
    by_cases hsingleton : ∃ slot key type delegate, provider = .singleton slot key type delegate
    case pos =>
      obtain ⟨slot, key, type, delegate, rfl⟩ := hsingleton
      exact paces_single hask rfl h (hsound.2 id rfl) (hsound.1.2 slot rfl)
    case neg =>
      have hplain slot key type delegate : provider ≠ .singleton slot key type delegate :=
        fun heq => hsingleton ⟨slot, key, type, delegate, heq⟩
      refine .mono (Steady.of_quiet hsteady (.produce hplain) _ w (World.Records.producing.2 h)) ?_
      rintro _ G after ⟨hsame, hafter⟩
      refine ⟨Frame.close_eq_of_unguarded hsame, fun hguards => ?_⟩
      have hrest := hafter.unguarded hguards
      rw [hsame] at hrest
      exact World.Records.producing.1 hrest
  refine paces_ask h hscript ?_
  rintro reply G after ⟨hclose, hafter⟩ ⟨-, hguards⟩
  exact answered_of_closed hclose h (hafter fun hg => by simpa [Moment.keepsGuards] using hguards hg)

end

/-- An action leaves what is in progress alone, but for guards, as `Action.perform` does it. -/
theorem records_act {action : Action ρ σ π} {F : List (Frame ρ)} {w : World ρ σ π}
    (h : start.Records guards F w)
    (horderly : (Moment.answered (.act action) w (action.perform w).1 (action.perform w).2).Orderly
      guards F) :
    Frame.unguarded ((Moment.answered (.act action) w (action.perform w).1
        (action.perform w).2).frames F) = Frame.unguarded F ∧
      start.Records guards ((Moment.answered (.act action) w (action.perform w).1
        (action.perform w).2).frames F) (action.perform w).2 := by
  cases hhand : action.isByHand with
  | false =>
    have hsame : (Moment.answered (.act action) w (action.perform w).1 (action.perform w).2).frames F =
        F := by
      cases action <;> first | rfl | cases hhand
    rw [hsame]
    exact ⟨rfl, h.undisturbed (World.Edits.perform hhand w).undisturbed⟩
  | true =>
    match action with
    | .pushKey key =>
      show Frame.unguarded (Moment.frames (.answered (.act (.pushKey key)) w (w.pushKey key).1
        (w.pushKey key).2) F) = _ ∧ start.Records guards (Moment.frames
        (.answered (.act (.pushKey key)) w (w.pushKey key).1 (w.pushKey key).2) F) (w.pushKey key).2
      cases hpush : w.stack.push key with
      | error fault =>
        rw [World.pushKey, hpush]
        exact ⟨rfl, h.of_edits (.note w _)⟩
      | ok stack =>
        rw [World.pushKey, hpush]
        exact ⟨Frame.unguarded_of_guarding, h.push rfl hpush⟩
    | .popKey =>
      show Frame.unguarded (if Frame.guarded F then F.tail else F) = _ ∧
        start.Records guards (if Frame.guarded F then F.tail else F) w.popKey
      split
      case isTrue hguarded =>
        obtain ⟨key, rest, rfl⟩ := Frame.exists_of_guarded hguarded
        exact ⟨Frame.unguarded_of_guarding.symm, h.pop rfl⟩
      case isFalse hguarded =>
        -- the code is not held to keep its guards, so nothing is said of the stack
        exact ⟨rfl, h.restack rfl fun hg => absurd (horderly.2 hg) hguarded⟩

theorem steady_act (fuel : Nat) (action : Action ρ σ π) :
    (ask (.act action)).Steady start guards (host.answer (fuel + 1)) (host.moments (fuel + 1)) := by
  intro F w h
  have hscript : (request host fuel (.act action)).Paces start guards (host.answer fuel)
      (host.moments fuel) F w fun reply G after => G = F ∧ action.perform w = (reply, after) :=
    .now ⟨rfl, rfl⟩
  refine paces_ask h (fun _ => hscript) ?_
  rintro reply G after ⟨rfl, hperform⟩ horderly
  obtain rfl : (action.perform w).1 = reply := congrArg Prod.fst hperform
  obtain rfl : (action.perform w).2 = after := congrArg Prod.snd hperform
  obtain ⟨hsame, hafter⟩ := records_act h horderly
  exact ⟨⟨hafter, nofun⟩, hsame, hafter⟩

/-- Along its moments, a request shows what is in progress; one for a value leaves that as it was,
so it is `Whole`. Induction on the fuel. -/
theorem paces_request (fuel : Nat) :
    (∀ request, (ask request).Steady start guards (host.answer fuel) (host.moments fuel)) ∧
      ∀ id provider, (ask (.produce id provider)).Whole start guards (host.answer fuel)
        (host.moments fuel) := by
  induction fuel with
  | zero =>
    have hhalted {r : Request ρ σ π} {F : List (Frame ρ)} {w : World ρ σ π}
        {ends : r.Answer → List (Frame ρ) → World ρ σ π → Prop} :
        (ask r).Paces start guards (host.answer 0) (host.moments 0) F w ends :=
      fun _ => ⟨trivial, nofun⟩
    exact ⟨fun _ _ _ _ => hhalted, fun _ _ _ _ _ => hhalted⟩
  | succ fuel ih =>
    obtain ⟨hsteady, hask⟩ := ih
    refine ⟨fun r => ?_, whole_produce hask hsteady⟩
    -- a request that is not for a value neither begins nor ends anything itself
    have hscript (h : ∀ F w, start.Records guards F w → (Moment.asked r w).Sound →
          (request host fuel r).Paces start guards (host.answer fuel) (host.moments fuel) F w
            fun _ G after => Frame.unguarded G = Frame.unguarded F ∧ start.Records guards G after)
        (hasked : ∀ w F, (Moment.asked r w).frames F = F)
        (hanswered : ∀ w reply after F, (Moment.answered r w reply after).frames F = F)
        (hvalue : r.isForValue = false) :
        (ask r).Steady start guards (host.answer (fuel + 1)) (host.moments (fuel + 1)) := by
      intro F w hw
      have hpaces := h F w hw
      rw [← hasked w F] at hpaces
      refine paces_ask hw hpaces fun reply G after hmid _ => ?_
      rw [hasked] at hmid
      rw [Moment.Fits, hanswered, hvalue]
      exact ⟨⟨hmid.2, nofun⟩, hmid⟩
    cases r with
    | act action => exact steady_act fuel action
    | resolve id key => exact (whole_resolve hask id key).steady
    | produce id provider => exact (whole_produce hask hsteady id provider).steady
    | injectMembers id type object =>
      exact hscript (fun F w hw _ => Steady.of_quiet hsteady (.injectMembers type object) F w hw) (fun _ _ => rfl)
        (fun _ _ _ _ => rfl) rfl
    | install id module =>
      exact hscript (fun F w hw _ => Steady.of_quiet hsteady (.install module) F w hw) (fun _ _ => rfl)
        (fun _ _ _ _ => rfl) rfl
    | resolveApart id key =>
      exact hscript (fun _ _ _ hsound => Bool.noConfusion hsound.1.1) (fun _ _ => rfl)
        (fun _ _ _ _ => rfl) rfl
    | resolveTogether id keys =>
      exact hscript (fun _ _ _ hsound => Bool.noConfusion hsound.1.1) (fun _ _ => rfl)
        (fun _ _ _ _ => rfl) rfl
    | pause =>
      refine hscript (fun F w hw _ _ => ⟨trivial, fun _ after hrun => ?_⟩) (fun _ _ => rfl)
        (fun _ _ _ _ => rfl) rfl
      cases hrun
      exact ⟨rfl, hw⟩

/-- Along an `Orderly` course the world has recorded what is in progress, at each moment. -/
theorem course_fits (fuel : Nat) (code : Code ρ σ π α) {w : World ρ σ π} (h : w.Idle)
    (horderly : Moment.Along (Moment.Orderly guards) [] (host.course fuel code w)) :
    Moment.Along (Moment.Fits w guards) [] (host.course fuel code w) :=
  (Steady.of_quiet (paces_request fuel).1 (.code code) [] w (h.records guards) horderly).1

end Host

end Wiring
