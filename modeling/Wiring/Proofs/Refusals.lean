import Wiring.Proofs.Balance

/-!
# What the resolve stack refuses

The resolve stack is one for a thread and holds keys alone, so it does not tell injectors apart:
while no code puts keys on it by hand (`Moment.isByHand`), a key is refused just if a resolution of
this key is in progress, with whatever injector (`refused_iff_resolving`). So an injector may be
refused a key that it is not resolving. A factory that hands its own key on to another injector is
answered that there is a cycle, although that injector has a value for the key and nothing asks for
what it is in the middle of producing (`not_refusesOwn`).

* **`Tells.resolve_of_mem`** and **`Tells.mem_of_resolve`** — a key is refused at once just if it is
  on the stack.
* **`Moment.orderly_of_handless`** — runs without guards by hand are orderly, so that what is in
  progress is on record.
-/

namespace Wiring

variable {ρ σ π α : Type}

/-- The resolutions among the frames, those of `Frame.resolving`, each with its injector. -/
def Frame.resolutions (F : List (Frame ρ)) : List (InjectorId × Key) :=
  F.filterMap fun
    | .resolving id key => some (id, key)
    | _ => none

theorem Frame.mem_resolutions {F : List (Frame ρ)} {id : InjectorId} {key : Key} :
    (id, key) ∈ Frame.resolutions F ↔ .resolving id key ∈ F := by
  rw [Frame.resolutions, List.mem_filterMap]
  constructor
  · rintro ⟨f, hf, heq⟩
    cases f with
    | resolving other name =>
      cases heq
      exact hf
    | _ => cases heq
  · exact fun hf => ⟨_, hf, rfl⟩

/-! ### Runs in which no code puts keys on the stack -/

/-- The moment is one of an action on the resolve stack, by `Action.isByHand`. -/
def Moment.isByHand : Moment ρ σ π → Bool
  | .asked (.act action) _ => action.isByHand
  | .answered (.act action) _ _ _ => action.isByHand
  | _ => false

/-- Where no code puts keys on the stack, there are no guards: `Moment.frames` adds none. -/
theorem Moment.guardless_frames {F : List (Frame ρ)} {m : Moment ρ σ π}
    (h : ∀ f ∈ F, f.isGuard = false) (hm : m.isByHand = false) :
    ∀ f ∈ m.frames F, f.isGuard = false := by
  have hclose : ∀ f ∈ Frame.close F, f.isGuard = false := fun f hf =>
    h f ((List.dropWhile_sublist _).mem (List.mem_of_mem_tail hf))
  have hcons (f : Frame ρ) (hf : f.isGuard = false) : ∀ g ∈ f :: F, g.isGuard = false :=
    List.forall_mem_cons.2 ⟨hf, h⟩
  cases m with
  | asked request w =>
    cases request with
    | resolve id key => exact hcons _ rfl
    | produce id provider => exact hcons _ rfl
    | _ => exact h
  | answered request w reply after =>
    cases request with
    | resolve id key => exact hclose
    | produce id provider => exact hclose
    | act action => cases action <;> first | exact h | cases hm
    | _ => exact h
  | begun slot =>
    rw [Moment.frames]
    split
    · exact hcons _ rfl
    · exact h
  | ended slot outcome => exact hclose

theorem Moment.guardless_inProgress {F : List (Frame ρ)} {moments : List (Moment ρ σ π)}
    (h : ∀ f ∈ F, f.isGuard = false) (hmoments : ∀ m ∈ moments, m.isByHand = false) :
    ∀ f ∈ Moment.inProgress F moments, f.isGuard = false := by
  induction moments generalizing F with
  | nil => exact h
  | cons m moments ih =>
    exact ih (guardless_frames h (hmoments m (.head _))) fun m hm => hmoments m (.tail _ hm)

/-- Code that puts no keys on the stack has none to take back, so its moments are `Orderly`. -/
theorem Moment.orderly_of_handless {F : List (Frame ρ)} {moments : List (Moment ρ σ π)}
    (h : ∀ f ∈ F, f.isGuard = false) (hmoments : ∀ m ∈ moments, m.Sound ∧ m.isByHand = false) :
    Moment.Along (Moment.Orderly True) F moments := by
  induction moments generalizing F with
  | nil => trivial
  | cons m moments ih =>
    obtain ⟨hsound, hhand⟩ := hmoments m (.head _)
    refine ⟨⟨hsound, fun _ => ?_⟩,
      ih (guardless_frames h hhand) fun m hm => hmoments m (.tail _ hm)⟩
    have hguarded : Frame.guarded F = false := by
      cases F with
      | nil => rfl
      | cons f F => exact h f (.head _)
    cases m with
    | answered request w reply after =>
      cases request with
      | produce id provider => simpa [keepsGuards] using hguarded
      | act action => cases action <;> first | rfl | cases hhand
      | _ => rfl
    | _ => rfl

/-! ### What follows a request for a key -/

namespace Script

variable {answer : (request : Request ρ σ π) → Run ρ σ π request.Answer}
variable {within : Request ρ σ π → World ρ σ π → List (Moment ρ σ π)}
variable {id : InjectorId} {key : Key} {v pushed u : World ρ σ π} {fault : Fault}
variable {provider : Provider ρ}

theorem moments_resolve_of_refused (h : v.pushKey key = (.error fault, u)) :
    (resolve id key).moments answer within v = [] := by
  rw [resolve, moments_now_bind, h]
  rfl

theorem run_resolve_of_refused (h : v.pushKey key = (.error fault, u)) :
    ((resolve id key).toRun answer).run v = .ok (.error fault, u) := by
  rw [toRun_resolve, Engine.resolve, Run.run_bind, Run.run_now, h]
  rfl

theorem moments_resolve_of_unbound (hpush : v.pushKey key = (.ok (), pushed))
    (hfound : (pushed.note (.resolving key)).providerOf id key = (.error fault, u)) :
    (resolve id key).moments answer within v = [] := by
  rw [resolve, moments_now_bind, hpush]
  refine (moments_now_bind _ _ _).trans ((moments_now_bind _ _ _).trans ?_)
  rw [hfound]
  rfl

theorem run_resolve_of_unbound (hpush : v.pushKey key = (.ok (), pushed))
    (hfound : (pushed.note (.resolving key)).providerOf id key = (.error fault, u)) :
    ((resolve id key).toRun answer).run v = .ok (.error fault, u.popKey) := by
  rw [toRun_resolve]
  simp only [Engine.resolve, Run.run_bind, Run.run_now, Run.run_change, Except.bind, hpush, hfound]
  rfl

theorem moments_resolve_of_bound (hpush : v.pushKey key = (.ok (), pushed))
    (hfound : (pushed.note (.resolving key)).providerOf id key = (.ok provider, u)) :
    (resolve id key).moments answer within v = within (.produce id provider) u := by
  rw [resolve, moments_now_bind, hpush]
  refine (moments_now_bind _ _ _).trans ((moments_now_bind _ _ _).trans ?_)
  rw [hfound]
  -- nothing is asked once the provider has produced
  show within (.produce id provider) u ++
    Moment.following ((answer (.produce id provider)).run u) (fun _ _ => []) = _
  cases (answer (.produce id provider)).run u <;> exact List.append_nil _

theorem run_resolve_of_bound (hpush : v.pushKey key = (.ok (), pushed))
    (hfound : (pushed.note (.resolving key)).providerOf id key = (.ok provider, u)) :
    ((resolve id key).toRun answer).run v =
      ((answer (.produce id provider)).run u).bind fun p => .ok (p.1, p.2.popKey) := by
  rw [toRun_resolve]
  simp only [Engine.resolve, Run.run_bind, Run.run_now, Run.run_change, Except.bind, hpush, hfound]
  exact Run.run_bind _ _ _

end Script

theorem World.fault_of_providerOf {w after : World ρ σ π} {id : InjectorId} {key : Key} {fault : Fault}
    (h : w.providerOf id key = (.error fault, after)) (chain : List Key) :
    fault ≠ .cyclicBinding chain := by
  rintro rfl
  rw [World.providerOf] at h
  split at h
  case h_1 hfind =>
    rw [Injector.find] at hfind
    repeat' split at hfind
    all_goals cases hfind
    cases h
  case h_2 => cases h
  case h_3 => cases h

namespace Host.Tells

variable {host : Host ρ σ π} {moments earlier later rest : List (Moment ρ σ π)} {ended : Prop}
variable {id : InjectorId} {key : Key} {v after : World ρ σ π}

theorem after_resolve (h : host.Tells moments ended)
    (hmoments : moments = earlier ++ .asked (.resolve id key) v :: later) :
    ∃ fuel rest, later =
      (Script.resolve id key).moments (host.answer fuel) (host.moments fuel) v ++
        Moment.following (((Script.resolve id key).toRun (host.answer fuel)).run v)
          (fun reply after => [.answered (.resolve id key) v reply after]) ++ rest ∧
      ∀ reason, ((Script.resolve id key).toRun (host.answer fuel)).run v = .error reason → rest = [] :=
  h.after_asked hmoments

/-- A key that is on the stack is refused by `World.pushKey`, with the whole chain. -/
theorem resolve_of_mem (h : host.Tells moments ended)
    (hmoments : moments = earlier ++ .asked (.resolve id key) v :: later) (hkey : key ∈ v.stack) :
    ∃ after rest, later =
      .answered (.resolve id key) v (.error (.cyclicBinding (v.stack ++ [key]))) after :: rest := by
  have hpush := World.pushKey_of_mem rfl hkey
  obtain ⟨fuel, rest, hlater, -⟩ := h.after_resolve hmoments
  rw [Script.moments_resolve_of_refused hpush, Script.run_resolve_of_refused hpush] at hlater
  exact ⟨_, rest, hlater⟩

/-- A key that is not on the stack is not answered at once that it closes a cycle: its provider is
asked first. -/
theorem mem_of_resolve {chain : List Key} (h : host.Tells moments ended)
    (hmoments : moments = earlier ++ .asked (.resolve id key) v ::
      .answered (.resolve id key) v (.error (.cyclicBinding chain)) after :: rest) :
    key ∈ v.stack := by
  by_contra hfree
  obtain ⟨fuel, more, hlater, hhalts⟩ := h.after_resolve hmoments
  have hpush := World.pushKey_of_not_mem rfl hfree
  generalize v.switchTo v.thread (v.stack ++ [key]) = pushed at hpush
  cases hfound : (pushed.note (.resolving key)).providerOf id key with
  | mk found u =>
    cases found with
    | error fault =>
      rw [Script.moments_resolve_of_unbound hpush hfound,
        Script.run_resolve_of_unbound hpush hfound] at hlater
      injection hlater with hanswer
      injection hanswer with _ _ hreply
      cases hreply
      exact World.fault_of_providerOf hfound chain rfl
    | ok provider =>
      rw [Script.moments_resolve_of_bound hpush hfound] at hlater
      cases fuel with
      | succ fuel =>
        -- the provider is asked first
        injection hlater with hanswer
        cases hanswer
      | zero =>
        rw [Script.run_resolve_of_bound hpush hfound] at hlater hhalts
        rw [hhalts .outOfFuel rfl] at hlater
        cases hlater

end Host.Tells

/-! ### What is refused -/

/-- Whatever is asked for is refused at once as a cycle just if a resolution of that key is in
progress, by `Frame.resolutions` with whatever injector. -/
def RefusesResolving (moments : List (Moment ρ σ π)) : Prop :=
  ∀ {earlier id key v later}, moments = earlier ++ .asked (.resolve id key) v :: later →
    ((∃ after rest, later =
        .answered (.resolve id key) v (.error (.cyclicBinding (v.stack ++ [key]))) after :: rest) ↔
      ∃ other, (other, key) ∈ Frame.resolutions (Moment.inProgress [] earlier))

/-- In every run on one thread in which no code puts keys on the stack itself, a key is refused on
the stack just if it is being resolved. What is in progress is on record by `Host.course_fits`. -/
theorem refused_iff_resolving (host : Host ρ σ π) (fuel : Nat) (code : Code ρ σ π α) (w : World ρ σ π)
    (hidle : w.Idle) (hstack : w.stack = [])
    (hcourse : ∀ m ∈ host.course fuel code w, m.Sound ∧ m.isByHand = false) :
    RefusesResolving (host.course fuel code w) := by
  have hfits := host.course_fits fuel code hidle (Moment.orderly_of_handless nofun hcourse)
  have htells := host.course_tells fuel code w
  generalize host.course fuel code w = moments at hcourse hfits htells
  intro earlier id key v later hmoments
  have hrecords : w.Records True (Moment.inProgress [] earlier) v := hfits.at hmoments
  -- no code has put keys on the stack, so each key on it belongs to a resolution
  have hguardless : ∀ f ∈ Moment.inProgress [] earlier, f.isGuard = false :=
    Moment.guardless_inProgress nofun fun m hm => (hcourse m (hmoments ▸ List.mem_append_left _ hm)).2
  have hmem : key ∈ v.stack ↔
      ∃ other, (other, key) ∈ Frame.resolutions (Moment.inProgress [] earlier) := by
    rw [hrecords.stack trivial, hstack, List.nil_append, Frame.mem_keys]
    constructor
    · rintro (⟨other, hother⟩ | hguard)
      · exact ⟨other, Frame.mem_resolutions.2 hother⟩
      · exact absurd (hguardless _ hguard) nofun
    · rintro ⟨other, hother⟩
      exact .inl ⟨other, Frame.mem_resolutions.1 hother⟩
  rw [← hmem]
  constructor
  · rintro ⟨after, rest, rfl⟩
    exact htells.mem_of_resolve hmoments
  · exact htells.resolve_of_mem hmoments

/-! ### A key that is handed on to another injector -/

/-- The entry guard of an injector, `World.pushKey`, refuses no key but those that this injector is
resolving. -/
def Moment.refusesOwn (F : List (Frame ρ)) : Moment ρ σ π → Bool
  | .asked (.resolve id key) v => (v.pushKey key).1.isOk || (id, key) ∈ Frame.resolutions F
  | _ => true

def shared : Key := ⟨.plain "Shared", none⟩

/-- The factory asks the injector that was made second for the key that it is run for. -/
def sharedHost : Host Unit Unit Unit where
  make _ _ := Code.send (.resolve ⟨1⟩ shared)
  stage _ _ object := pure (.ok object)
  hook _ _ _ := pure (.ok ())
  kind _ := default
  imports _ := []
  configure _ _ := pure (.ok ())

/-- The second injector has an object for the key, and the first the factory of `sharedHost`. The
key is resolved with either. -/
def sharedCode : Code Unit Unit Unit Unit := do
  let first ← Code.act .newInjector
  let second ← Code.act .newInjector
  let object ← Code.act (.allocate (.plain ()))
  let _ ← Code.act (.bind first shared (.factory (.plain "Shared") ()) .noScope)
  let _ ← Code.act (.bind second shared (.fixed object) .noScope)
  let _ ← Code.send (.resolve second shared)
  let _ ← Code.send (.resolve first shared)

def sharedCourse : List (Moment Unit Unit Unit) :=
  sharedHost.course 8 sharedCode { memory := () }

/-- The second injector refuses the key while the first alone is resolving it, and the factory
fails, though the second injector had just given an object for the key; so a moment of `sharedCode`
does not meet `refusesOwn`. -/
theorem not_refusesOwn :
    ({ memory := () } : World Unit Unit Unit).Idle ∧
      (∀ m ∈ sharedCourse, m.Sound ∧ m.isByHand = false) ∧
      sharedCourse.filterMap Moment.fault? =
        [.cyclicBinding [shared, shared], .cyclicBinding [shared, shared]] ∧
      ¬ Moment.Along (fun F m => m.refusesOwn F = true) [] sharedCourse :=
  ⟨fun _ => rfl, by decide +kernel, by decide +kernel, by decide +kernel⟩

theorem refused_iff_resolving_of_shared :
    ({ memory := () } : World Unit Unit Unit).Idle ∧
      (∀ m ∈ sharedCourse, m.Sound ∧ m.isByHand = false) ∧ RefusesResolving sharedCourse := by
  have hidle : ({ memory := () } : World Unit Unit Unit).Idle := fun _ => rfl
  have hcourse : ∀ m ∈ sharedCourse, m.Sound ∧ m.isByHand = false := by decide +kernel
  exact ⟨hidle, hcourse, refused_iff_resolving _ _ _ _ hidle rfl hcourse⟩

end Wiring
