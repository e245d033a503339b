import Mathlib.Data.List.Nodup
import Mathlib.Data.List.Perm.Subperm
import Wiring.Proofs.RegistryHistory
import Wiring.Proofs.SingletonSteps
import Wiring.Proofs.Yields

/-!
# Threads that resolve singletons at the same time

However the threads take turns, resolving a key of a plan moves the place of the thread to where it
was, and what it comes to depends on the plan alone: the one object made for the key, or a cycle if
the key needs one (`FactoryPlan.obeys_resolve`). Threads that sleep wait for each other, and not in
a loop, so one of them can always go on (`FactoryPlan.not_asleep`).

`FactoryPlan.concurrent_singletons` puts the two together for threads that start in a
`FactoryPlan.Fresh` world.

* **`FactoryPlan.Fresh.inv`** — the invariant holds before the first step.
* **`FactoryPlan.Resolved`** — what a thread knows when a resolution is over: the object of the key,
  or that the key is `Doomed`.
-/

namespace Wiring

variable {ρ σ π α β : Type}

namespace FactoryPlan

variable {plan : FactoryPlan ρ π} {slots : Key → SlotId} {first : Nat} {key : Key} {me : ThreadId}
variable {host : Host ρ σ π} {makes outer : List Key} {known : List (Key × Ref)}

/-! ### What the parts of a resolution come to -/

/-- A thread that has resolved `key` is where it was, and knows the object if there is one; a fault
means that the key is `Doomed`, and is a `Fault.cyclicBinding`. -/
def Resolved (plan : FactoryPlan ρ π) (key : Key) (makes : List Key) (phase : Phase)
    (known : List (Key × Ref)) : Except Fault Ref → Place → Prop
  | .ok object, next => ∃ more, next = ⟨makes, phase, more⟩ ∧ known ⊆ more ∧ (key, object) ∈ more
  | .error fault, next => ∃ more, next = ⟨makes, phase, more⟩ ∧ known ⊆ more ∧ plan.Doomed key ∧
      ∃ chain, fault = .cyclicBinding chain

/-- The production of the innermost key is over, with an object (`Phase.made`) or because the key is
`Doomed`. -/
def Finished (plan : FactoryPlan ρ π) (key : Key) (makes : List Key)
    (known : List (Key × Ref)) : Except Fault Ref → Place → Prop
  | .ok object, next => ∃ more, next = ⟨makes, .made object, more⟩ ∧ known ⊆ more
  | .error fault, next => ∃ more, next = ⟨makes, .idle, more⟩ ∧ known ⊆ more ∧ plan.Doomed key ∧
      ∃ chain, fault = .cyclicBinding chain

variable {answer : (request : Request ρ σ π) → Run ρ σ π request.Answer}

theorem obeys_gather
    (hact : ∀ action, answer (.act action) = Run.now action.perform)
    (hneed : ∀ known, ∀ need ∈ plan.needs key, (answer (.resolve plan.id need)).Obeys
      (plan.discipline slots first) me ⟨outer ++ [key], .idle, known⟩
      (plan.Resolved need (outer ++ [key]) .idle known))
    {done rest : List Key} {objects : List Ref} (hsplit : done ++ rest = plan.needs key)
    (hdone : List.Forall₂ (fun need object => (need, object) ∈ known) done objects) :
    ((Code.gather plan.id (plan.content key) objects rest).run answer).Obeys
      (plan.discipline slots first) me ⟨outer ++ [key], .idle, known⟩
      (plan.Finished key (outer ++ [key]) known) := by
  -- over the needs that are left, with those that are done known along with their objects
  induction rest generalizing done objects known with
  | nil =>
    have hall : done = plan.needs key := by rw [← hsplit, List.append_nil]
    rw [hall] at hdone
    show ((answer (.act (.allocate (plan.content key objects)))) >>= _).Obeys _ _ _ _
    rw [hact]
    refine Run.Obeys.bind (obeys_allocate hdone) ?_
    rintro object next rfl
    exact ⟨known, rfl, List.Subset.refl known⟩
  | cons need rest ih =>
    have hmem : need ∈ plan.needs key := by simp [← hsplit]
    show ((answer (.resolve plan.id need)) >>= _).Obeys _ _ _ _
    refine Run.Obeys.bind (hneed known need hmem) ?_
    rintro (fault | object) next hnext
    · obtain ⟨more, rfl, hmore, hdoomed, hfault⟩ := hnext
      exact ⟨more, rfl, hmore, hdoomed.of_need hmem, hfault⟩
    · obtain ⟨more, rfl, hmore, hobject⟩ := hnext
      have hnew : List.Forall₂ (fun need object => (need, object) ∈ more) (done ++ [need])
          (objects ++ [object]) := by
        refine List.rel_append (hdone.imp fun a b hab => hmore hab) ?_
        exact .cons hobject .nil
      refine Run.Obeys.mono (ih (by simpa using hsplit) hnew) ?_
      rintro (fault | made) next hlast
      · obtain ⟨last, rfl, hsub, hrest⟩ := hlast
        exact ⟨last, rfl, List.Subset.trans hmore hsub, hrest⟩
      · obtain ⟨last, rfl, hsub⟩ := hlast
        exact ⟨last, rfl, List.Subset.trans hmore hsub⟩

/-- What a factory makes needs no completion by `Engine.complete`, for there are no hooks. -/
theorem obeys_complete (fuel : Nat) (type : ValueType) (object : Ref) {p : Place} :
    (Engine.complete host (host.answer (fuel + 1)) plan.id (.memberInjection type) object).Obeys
      (plan.discipline slots first) me p fun reply next => reply = .ok object ∧ next = p := by
  have hhooks : (host.answer (fuel + 1) (.injectMembers plan.id type object)).Obeys
      (plan.discipline slots first) me p fun reply next => reply = .ok () ∧ next = p := by
    refine Run.Obeys.bind (obeys_hooksOf type) ?_
    rintro hooks next ⟨rfl, rfl⟩
    exact ⟨rfl, rfl⟩
  refine Run.Obeys.bind hhooks ?_
  rintro reply next ⟨rfl, rfl⟩
  exact ⟨rfl, rfl⟩

theorem obeys_completed (hcarried : plan.CarriedOutBy host) (hkey : key ∈ plan.keys) (fuel : Nat)
    (hneed : ∀ known, ∀ need ∈ plan.needs key, (host.answer (fuel + 1) (.resolve plan.id need)).Obeys
      (plan.discipline slots first) me ⟨outer ++ [key], .idle, known⟩
      (plan.Resolved need (outer ++ [key]) .idle known)) :
    (host.answer (fuel + 3) (.produce plan.id (.completed key.type (plan.routine key)))).Obeys
      (plan.discipline slots first) me ⟨outer ++ [key], .idle, known⟩
      (plan.Finished key (outer ++ [key]) known) := by
  have hfactory : (host.answer (fuel + 2)
      (.produce plan.id (.factory key.type (plan.routine key)))).Obeys
      (plan.discipline slots first) me ⟨outer ++ [key], .idle, known⟩
      (plan.Finished key (outer ++ [key]) known) := by
    refine Run.Obeys.bind (obeys_note _) ?_
    rintro _ next rfl
    rw [hcarried key hkey]
    exact obeys_gather (fun _ => rfl) hneed rfl .nil
  refine Run.Obeys.bind hfactory ?_
  rintro (fault | object) next hnext
  · exact hnext
  · refine Run.Obeys.bind (obeys_complete (fuel + 1) key.type object) ?_
    rintro reply next ⟨rfl, rfl⟩
    exact hnext

theorem obeys_initialise (delegate : Provider ρ)
    (hdelegate : ∀ known, (answer (.produce plan.id delegate)).Obeys (plan.discipline slots first) me
      ⟨makes ++ [key], .idle, known⟩ (plan.Finished key (makes ++ [key]) known)) :
    (Engine.initialise answer plan.id (slots key) key key.type delegate).Obeys
      (plan.discipline slots first) me ⟨makes, .holding key, known⟩
      (plan.Resolved key makes (.entered key) known) := by
  refine Run.Obeys.bind obeys_startProducing ?_
  rintro _ next rfl
  refine Run.Obeys.bind (obeys_note _) ?_
  rintro _ next rfl
  refine Run.Obeys.bind (hdelegate known) ?_
  -- the slot is given back whatever the factory comes to, but it is filled only if there is an object
  rintro (fault | object) next hnext
  · obtain ⟨more, rfl, hmore, hdoomed, hfault⟩ := hnext
    refine Run.Obeys.bind (obeys_stopProducing none) ?_
    rintro _ next rfl
    refine Run.Obeys.bind (obeys_giveBack none .empty rfl) ?_
    rintro _ next rfl
    exact ⟨more, rfl, hmore, hdoomed, hfault⟩
  · obtain ⟨more, rfl, hmore⟩ := hnext
    refine Run.Obeys.bind (obeys_stopProducing (some object)) ?_
    rintro _ next rfl
    refine Run.Obeys.bind (obeys_giveBack (some object) (.filled object) rfl) ?_
    rintro _ next rfl
    exact ⟨(key, object) :: more, rfl, List.subset_cons_of_subset _ hmore, .head _⟩

theorem obeys_await (hkey : key ∈ plan.keys) (delegate : Provider ρ)
    (hdelegate : ∀ known, (answer (.produce plan.id delegate)).Obeys (plan.discipline slots first) me
      ⟨makes ++ [key], .idle, known⟩ (plan.Finished key (makes ++ [key]) known)) :
    (Engine.await answer plan.id (slots key) key key.type delegate).Obeys
      (plan.discipline slots first) me ⟨makes, .entered key, known⟩
      (plan.Resolved key makes (.entered key) known) := by
  refine Run.Obeys.bind obeys_awaitKey ?_
  rintro reply next (⟨rfl, rfl⟩ | ⟨⟨chain, rfl⟩, hdoomed, rfl⟩)
  · -- either way the wait is over then, and the record of it goes if it is still there
    have hvalue : (Engine.takeOrMake answer plan.id (slots key) key key.type delegate).Obeys
        (plan.discipline slots first) me ⟨makes, .waiting key, known⟩ fun reply next =>
          ∃ phase, (phase = .waiting key ∨ phase = .entered key) ∧
            plan.Resolved key makes phase known reply next := by
      refine Run.Obeys.bind (obeys_takeSlot hkey) ?_
      rintro reply next (⟨object, rfl, rfl⟩ | ⟨rfl, rfl⟩)
      · exact ⟨_, .inl rfl, (key, object) :: known, rfl, List.subset_cons_self _ _, .head _⟩
      · refine Run.Obeys.mono (obeys_initialise delegate hdelegate) ?_
        exact fun reply next hreply => ⟨_, .inr rfl, hreply⟩
    refine Run.Obeys.bind hvalue ?_
    rintro (fault | object) next ⟨phase, hphase, hreply⟩
    · obtain ⟨more, rfl, hrest⟩ := hreply
      refine Run.Obeys.bind (obeys_stopAwaiting hphase) ?_
      rintro _ next rfl
      exact ⟨more, rfl, hrest⟩
    · obtain ⟨more, rfl, hrest⟩ := hreply
      refine Run.Obeys.bind (obeys_stopAwaiting hphase) ?_
      rintro _ next rfl
      exact ⟨more, rfl, hrest⟩
  · exact ⟨known, rfl, List.Subset.refl known, hdoomed, chain, rfl⟩

theorem obeys_single (hkey : key ∈ plan.keys) (delegate : Provider ρ)
    (hdelegate : ∀ known, (answer (.produce plan.id delegate)).Obeys (plan.discipline slots first) me
      ⟨makes ++ [key], .idle, known⟩ (plan.Finished key (makes ++ [key]) known)) :
    (Engine.single answer plan.id (slots key) key key.type delegate).Obeys
      (plan.discipline slots first) me ⟨makes, .entered key, known⟩
      (plan.Resolved key makes (.entered key) known) := by
  refine Run.Obeys.bind (obeys_slot hkey) ?_
  rintro slot next (⟨object, rfl, rfl⟩ | ⟨hempty, rfl⟩)
  · exact ⟨(key, object) :: known, rfl, List.subset_cons_self _ _, .head _⟩
  · cases slot with
    | filled object => exact absurd rfl (hempty object)
    | empty => exact obeys_await hkey delegate hdelegate
    | busy => exact obeys_await hkey delegate hdelegate

/-- With fuel for each key that is not being made yet, resolving a key comes to an end where it
began, by `Resolved`. Induction on `room`, the number of keys that are still to be put on the
stack. -/
theorem obeys_resolve (hcarried : plan.CarriedOutBy host) (room : Nat) :
    ∀ {fuel : Nat} {makes : List Key} {known : List (Key × Ref)} {key : Key}, key ∈ plan.keys →
      plan.Lined makes → (∀ other ∈ makes, Relation.TransGen plan.Needs other key) →
      plan.keys.length ≤ makes.length + room → 4 * room < fuel →
      (host.answer fuel (.resolve plan.id key)).Obeys (plan.discipline slots first) me
        ⟨makes, .idle, known⟩ (plan.Resolved key makes .idle known) := by
  induction room with
  | zero =>
    intro fuel makes known key hkey hlined hneeds hroom hfuel
    obtain ⟨fuel, rfl⟩ : ∃ rest, fuel = rest + 1 := ⟨fuel - 1, by omega⟩
    -- all keys are being made, so the key is refused
    have hall : key ∈ makes := by
      have hsub : makes.Subperm plan.keys := List.subperm_of_subset hlined.nodup hlined.subset
      exact (hsub.perm_of_length_le hroom).mem_iff.2 hkey
    refine Run.Obeys.bind (obeys_pushKey hkey hlined hneeds) ?_
    rintro reply next (⟨rfl, hnot, rfl⟩ | ⟨⟨chain, rfl⟩, hdoomed, rfl⟩)
    · exact absurd hall hnot
    · exact ⟨known, rfl, List.Subset.refl known, hdoomed, chain, rfl⟩
  | succ room ih =>
    intro fuel makes known key hkey hlined hneeds hroom hfuel
    obtain ⟨fuel, rfl⟩ : ∃ rest, fuel = rest + 5 := ⟨fuel - 5, by omega⟩
    refine Run.Obeys.bind (obeys_pushKey hkey hlined hneeds) ?_
    rintro reply next (⟨rfl, hnot, rfl⟩ | ⟨⟨chain, rfl⟩, hdoomed, rfl⟩)
    · have hpushed : plan.Lined (makes ++ [key]) := hlined.push hkey hnot hneeds
      have hdelegate (known : List (Key × Ref)) : (host.answer (fuel + 3)
          (.produce plan.id (.completed key.type (plan.routine key)))).Obeys
          (plan.discipline slots first) me ⟨makes ++ [key], .idle, known⟩
          (plan.Finished key (makes ++ [key]) known) := by
        refine obeys_completed hcarried hkey fuel fun known need hneed => ?_
        refine ih (plan.closed key hkey need hneed) hpushed ?_ ?_ (by omega)
        · intro other hother
          rcases List.mem_append.1 hother with hold | hlast
          · exact .tail (hneeds other hold) hneed
          · rw [List.mem_singleton.1 hlast]
            exact .single hneed
        · rw [List.length_append, List.length_singleton]
          omega
      refine Run.Obeys.bind (obeys_note _) ?_
      rintro _ next rfl
      refine Run.Obeys.bind (obeys_providerOf hkey) ?_
      rintro reply next ⟨rfl, rfl⟩
      have hsingle : (host.answer (fuel + 4) (.produce plan.id (.singleton (slots key) key key.type
          (.completed key.type (plan.routine key))))).Obeys (plan.discipline slots first) me
          ⟨makes, .entered key, known⟩ (plan.Resolved key makes (.entered key) known) :=
        obeys_single hkey _ hdelegate
      refine Run.Obeys.bind hsingle ?_
      rintro (fault | object) next hreply
      · obtain ⟨more, rfl, hrest⟩ := hreply
        refine Run.Obeys.bind obeys_popKey ?_
        rintro _ next rfl
        exact ⟨more, rfl, hrest⟩
      · obtain ⟨more, rfl, hrest⟩ := hreply
        refine Run.Obeys.bind obeys_popKey ?_
        rintro _ next rfl
        exact ⟨more, rfl, hrest⟩
    · exact ⟨known, rfl, List.Subset.refl known, hdoomed, chain, rfl⟩

/-! ### Whole threads -/

/-- What a thread has been given, as it remembers it in `known`; a fault is a cycle and the key is
`Doomed`. -/
def Told (plan : FactoryPlan ρ π) (known : List (Key × Ref)) (key : Key) :
    Except Fault Ref → Prop
  | .ok object => (key, object) ∈ known
  | .error fault => plan.Doomed key ∧ ∃ chain, fault = .cyclicBinding chain

theorem Told.mono {more : List (Key × Ref)} {outcome : Except Fault Ref}
    (h : plan.Told known key outcome) (hmore : known ⊆ more) : plan.Told more key outcome := by
  cases outcome with
  | ok object => exact hmore h
  | error fault => exact h

theorem lined_nil : plan.Lined [] where
  nodup := .nil
  subset _ h := nomatch h
  needs := .nil

theorem obeys_resolveEach (hcarried : plan.CarriedOutBy host) {fuel : Nat}
    (hfuel : 4 * plan.keys.length < fuel) {keys : List Key} (hkeys : ∀ key ∈ keys, key ∈ plan.keys) :
    (host.run fuel (.resolveEach plan.id keys)).Obeys (plan.discipline slots first) me
      ⟨[], .idle, known⟩ fun outcomes next => ∃ more, next = ⟨[], .idle, more⟩ ∧ known ⊆ more ∧
        List.Forall₂ (plan.Told more) keys outcomes := by
  induction keys generalizing known with
  | nil => exact ⟨known, rfl, List.Subset.refl known, .nil⟩
  | cons key rest ih =>
    have hkey : key ∈ plan.keys := hkeys key (by simp)
    have hresolve : (host.answer fuel (.resolve plan.id key)).Obeys (plan.discipline slots first) me
        ⟨[], .idle, known⟩ (plan.Resolved key [] .idle known) :=
      obeys_resolve hcarried plan.keys.length hkey lined_nil (fun _ h => nomatch h) (by simp) hfuel
    refine Run.Obeys.bind hresolve ?_
    intro outcome next hnext
    have htold : ∃ more, next = ⟨[], .idle, more⟩ ∧ known ⊆ more ∧ plan.Told more key outcome := by
      cases outcome with
      | ok object => exact hnext
      | error fault => exact hnext
    obtain ⟨more, rfl, hmore, htold⟩ := htold
    show (((Code.resolveEach plan.id rest).andThen fun outcomes =>
      .done (outcome :: outcomes)).run (host.answer fuel)).Obeys _ _ _ _
    refine Run.Obeys.andThen (ih fun other hother => hkeys other (by simp [hother])) ?_
    rintro outcomes next ⟨last, rfl, hlast, hrest⟩
    exact ⟨last, rfl, List.Subset.trans hmore hlast, .cons (htold.mono hlast) hrest⟩

variable {w : World ρ σ π}

/-- Before any thread has taken a step, none has made anything or waits: `Inv` holds in a `Fresh`
world with every `Place` empty. -/
theorem Fresh.inv (h : plan.Fresh w slots) :
    plan.Inv slots w.objects.size w (fun _ => {}) [] where
  represents := h.represents
  hooks := h.hooks
  lined _ := lined_nil
  waits := by
    rw [h.waits]
    refine ⟨fun key thread => ?_, fun thread => rfl, ⟨fun thread => ⟨thread, ?_⟩⟩⟩
    · exact ⟨fun hsome => (nomatch hsome), fun hmem => (nomatch hmem)⟩
    · rintro other ⟨key, hsome, -⟩
      cases hsome
  slots := by
    refine ⟨fun key hkey => ?busy, nofun, fun key hkey object hobject => ?filled, nofun, nofun, .nil, nofun⟩
    case busy =>
      rw [h.empty key hkey]
      exact ⟨nofun, fun ⟨_, hmem⟩ => (nomatch hmem)⟩
    case filled =>
      rw [h.empty key hkey] at hobject
      cases hobject
  known _ _ hmem := nomatch hmem
  produced := ⟨rfl, fun _ _ hsome => nomatch hsome⟩

/-- How the threads for the requests are to end: each has an outcome for each of its keys, by
`Told`. -/
def Ends (plan : FactoryPlan ρ π) (requests : List (List Key)) (index : Nat)
    (outcomes : List (Except Fault Ref)) (p : Place) : Prop :=
  ∃ keys known, requests[index]? = some keys ∧ p = ⟨[], .idle, known⟩ ∧
    List.Forall₂ (plan.Told known) keys outcomes

theorem obey_start (hfresh : plan.Fresh w slots) (hcarried : plan.CarriedOutBy host) {fuel : Nat}
    (hfuel : 4 * plan.keys.length < fuel) {requests : List (List Key)}
    (hrequests : ∀ keys ∈ requests, ∀ key ∈ keys, key ∈ plan.keys) :
    (Threads.start w (requests.map fun keys => host.run fuel (.resolveEach plan.id keys))).Obey
      (plan.discipline slots w.objects.size) {} w.threads (plan.Ends requests) fun _ => {} := by
  refine Threads.obey_start rfl ⟨[], hfresh.inv.of_same rfl rfl rfl⟩ ?_
  intro index task htask
  rw [List.getElem?_map] at htask
  obtain ⟨keys, hkeys, rfl⟩ := Option.map_eq_some_iff.1 htask
  have hmem : keys ∈ requests := List.mem_of_getElem? hkeys
  refine Run.Obeys.mono (obeys_resolveEach hcarried hfuel (hrequests keys hmem)) ?_
  rintro outcomes next ⟨known, rfl, -, htold⟩
  exact ⟨keys, known, hkeys, rfl, htold⟩

/-- If no thread could take a step, each unfinished one would wait for another such thread, and the
graph of waits would have a loop, which `Inv` excludes. -/
theorem not_asleep {s : Threads ρ σ π (List (Except Fault Ref))} {requests : List (List Key)}
    {places : ThreadId → Place} {base : ThreadId}
    (h : s.Obey (plan.discipline slots first) {} base (plan.Ends requests) places)
    (hstuck : ∀ index t, s.step index ≠ .ok t) :
    ∀ thread ∈ s.threads, thread.rest.result? ≠ none := by
  obtain ⟨made, hinv⟩ := h.holds
  have hnobody (id : ThreadId) : ∀ index (thread : Thread ρ σ π (List (Except Fault Ref))),
      id = base + index → s.threads[index]? = some thread → thread.rest.result? ≠ none := by
    induction hinv.waits.calm.apply id with
    | intro id _ ih =>
      intro index thread hid hthread hunfinished
      obtain ⟨key, hkey, hphase, hbusy⟩ := h.asleep hthread hunfinished (hstuck index)
      obtain ⟨holder, hheld⟩ := (hinv.slots.busy key hkey).1 hbusy
      -- the holder of the slot is one of the threads
      by_cases hin : ∃ other, other < s.threads.length ∧ holder = base + other
      · obtain ⟨other, hlt, rfl⟩ := hin
        have hother := List.getElem?_eq_getElem hlt
        cases hresult : (s.threads[other]).rest.result? with
        | some outcomes =>
          obtain ⟨_, _, _, hplace, _⟩ := h.result hother hresult
          rw [hplace] at hheld
          cases hheld
        | none =>
          -- so it is asleep as well, and holds the slot of a key that it makes
          obtain ⟨_, _, hphase', _⟩ := h.asleep hother hresult (hstuck other)
          have hmakes : key ∈ (places (base + other)).makes := by
            simpa only [Place.held, hphase'] using hheld
          have hawaits : (places (base + index)).awaits = some key := by
            simp only [Place.awaits, hphase]
          have hwaits : (s.world.injector plan.id).waits.WaitsFor id (base + other) := by
            refine ⟨key, ?_, (hinv.waits.producing key _).2 hmakes⟩
            rw [hid]
            exact (hinv.waits.awaiting _).trans hawaits
          exact ih (base + other) hwaits other _ rfl hother hresult
      · have hidle : places holder = {} :=
          h.others holder fun other hlt heq => hin ⟨other, hlt, heq⟩
        rw [hidle] at hheld
        cases hheld
  intro thread hmem
  obtain ⟨index, hindex⟩ := List.getElem?_of_mem hmem
  exact hnobody (base + index) index thread rfl hindex

/-- Resolving `key` comes to the one object `value key`, or to a `Fault.cyclicBinding` if the key is
`Doomed`. -/
def Answers (plan : FactoryPlan ρ π) (value : Key → Ref) (key : Key) : Except Fault Ref → Prop
  | .ok object => ¬ plan.Doomed key ∧ object = value key
  | .error fault => plan.Doomed key ∧ ∃ chain, fault = .cyclicBinding chain

theorem MadeAs.eq_idxOf {made : List Key} {object : Ref} (hnodup : made.Nodup)
    (h : MadeAs first made key object) : object = ⟨first + made.idxOf key⟩ := by
  obtain ⟨index, hindex, rfl⟩ := h
  obtain ⟨hlt, rfl⟩ := List.getElem?_eq_some_iff.1 hindex
  rw [hnodup.idxOf_getElem index hlt]

/-- However threads that resolve keys of a plan take turns, by `Threads.step`: as long as one has
not finished, one can go on; each factory succeeds once at most, and `made` are those that have; and
each resolution that is over came to the one object of its key, or to a cycle just if the key needs
one. -/
theorem concurrent_singletons (hfresh : plan.Fresh w slots) (hcarried : plan.CarriedOutBy host)
    {requests : List (List Key)} (hrequests : ∀ keys ∈ requests, ∀ key ∈ keys, key ∈ plan.keys)
    {fuel : Nat} (hfuel : 4 * plan.keys.length < fuel)
    {s : Threads ρ σ π (List (Except Fault Ref))}
    (hs : (Threads.start w (requests.map fun keys =>
      host.run fuel (.resolveEach plan.id keys))).Reaches s) :
    ((∃ thread ∈ s.threads, thread.rest.result? = none) → ∃ index t, s.step index = .ok t) ∧
    (∀ index, s.step index ≠ .error .outOfFuel) ∧
    ∃ (made : List Key) (value : Key → Ref), made.Nodup ∧
      plan.Produced w.objects.size s.world made ∧
      (∀ (index : Nat) (key : Key), made[index]? = some key → value key = ⟨w.objects.size + index⟩) ∧
      ∀ (index : Nat) (keys : List Key) (thread : Thread ρ σ π (List (Except Fault Ref)))
        (outcomes : List (Except Fault Ref)), requests[index]? = some keys → s.threads[index]? = some thread →
        thread.rest.result? = some outcomes → List.Forall₂ (plan.Answers value) keys outcomes := by
  obtain ⟨places, hobey⟩ := (obey_start hfresh hcarried hfuel hrequests).of_reaches hs
  refine ⟨?_, hobey.step_ne_outOfFuel, ?_⟩
  · rintro ⟨thread, hmem, hunfinished⟩
    -- if nobody could go on, all would wait, each for a slot that another has taken
    by_contra hstuck
    refine not_asleep hobey (fun index t ht => hstuck ⟨index, t, ht⟩) thread hmem hunfinished
  · obtain ⟨made, hinv⟩ := hobey.holds
    have hnodup := hinv.slots.made_once
    -- the object of a key is told by how many factories have succeeded before that of the key
    refine ⟨made, fun key => ⟨w.objects.size + made.idxOf key⟩, hnodup, hinv.produced, ?_, ?_⟩
    · intro index key hindex
      exact (MadeAs.eq_idxOf hnodup ⟨index, hindex, rfl⟩).symm
    · intro index keys thread outcomes hkeys hthread hresult
      obtain ⟨keys', known, hkeys', hplace, htold⟩ := hobey.result hthread hresult
      rw [hkeys] at hkeys'
      cases hkeys'
      refine htold.imp fun key outcome houtcome => ?_
      cases outcome with
      | error fault => exact houtcome
      | ok object =>
        have hknown : (key, object) ∈ (places (w.threads + index)).known := by
          rw [hplace]
          exact houtcome
        have hkept := hinv.known _ (key, object) hknown
        exact ⟨hkept.2, hkept.1.eq_idxOf hnodup⟩

/-! ### Two keys that need each other -/

/-- The key number `n`, told from the others by its number alone. -/
def loopKey (n : Nat) : Key := .ofObject (.plain "Part") n

/-- Key 0 needs the keys 1 and 2, key 1 needs key 0, and key 2 needs nothing; so 0 and 1 are
`Doomed`. -/
def loopPlan : FactoryPlan (List Key) Unit where
  id := ⟨0⟩
  keys := [loopKey 0, loopKey 1, loopKey 2]
  routine key := if key = loopKey 0 then [loopKey 1, loopKey 2] else if key = loopKey 1 then [loopKey 0]
    else []
  needs key := if key = loopKey 0 then [loopKey 1, loopKey 2] else if key = loopKey 1 then [loopKey 0]
    else []
  content _ _ := .plain ()
  closed := by decide +kernel

/-- The routines of `loopPlan` are the keys that a factory needs. -/
def loopHost : Host (List Key) Unit Unit where
  make needs id := .gather id (fun _ => .plain ()) [] needs
  stage _ _ object := pure (.ok object)
  hook _ _ _ := pure (.ok ())
  kind _ := default
  imports _ := []
  configure _ _ := pure (.ok ())

/-- The keys of `loopPlan` are bound, and nothing has been resolved. -/
def loopWorld : World (List Key) Unit Unit × RegistryView (List Key) :=
  World.registerAll ⟨0⟩
    (loopPlan.keys.map fun key => .bindFactory key .singleton (loopPlan.routine key))
    ({ injectors := #[{}], memory := () }, fun _ => none)

theorem loopWorld_fresh : ∃ slots, loopPlan.Fresh loopWorld.1 slots := by
  have hstart : World.RegistryHistory ⟨0⟩
      ({ injectors := #[{}], memory := () } : World (List Key) Unit Unit) fun _ => none :=
    .start _ Nat.zero_lt_one rfl
  obtain ⟨slots, hrep⟩ := (hstart.registerAll _).represents
  have hview : loopWorld.2 = loopPlan.view := by
    funext key
    by_cases h2 : key = loopKey 2
    · rw [h2]
      rfl
    · by_cases h1 : key = loopKey 1
      · rw [h1]
        rfl
      · by_cases h0 : key = loopKey 0
        · rw [h0]
          rfl
        · have hnot : key ∉ loopPlan.keys := by simp [loopPlan, h0, h1, h2]
          rw [view, if_neg hnot]
          show (Function.update (Function.update (Function.update (fun _ => none) (loopKey 0) _)
            (loopKey 1) _) (loopKey 2) _ : RegistryView (List Key)) key = none
          rw [Function.update_of_ne h2, Function.update_of_ne h1, Function.update_of_ne h0]
  have hslots : loopWorld.1.slots = Array.replicate 3 .empty := rfl
  refine ⟨slots, ?_, fun _ => rfl, fun key _ => ?_, rfl⟩
  · rw [← hview]
    exact hrep
  · rw [World.slot, hslots, Array.getElem?_replicate]
    split
    · rfl
    · rfl

/-- One thread for the loop from either end, and one that goes past it by `loopKey 2`. -/
def loopRequests : List (List Key) :=
  [[loopKey 0], [loopKey 1, loopKey 2], [loopKey 2]]

def loopThreads : Threads (List Key) Unit Unit (List (Except Fault Ref)) :=
  .start loopWorld.1 (loopRequests.map fun keys =>
    loopHost.run 13 (.resolveEach loopPlan.id keys))

/-- What the threads come to that are told of `loopRequests`, when they take turns. -/
def loopEnd : Threads (List Key) Unit Unit (List (Except Fault Ref)) :=
  match loopThreads.play 200 with
  | .ok s => s
  | .error _ => loopThreads

theorem loopThreads_reaches : loopThreads.Reaches loopEnd := by
  have hok : (loopThreads.play 200).isOk = true := by decide +kernel
  rw [loopEnd]
  cases hplay : loopThreads.play 200 with
  | error reason =>
    rw [hplay] at hok
    cases hok
  | ok s => exact Threads.reaches_of_play hplay

theorem concurrent_singletons_of_loop :
    (loopEnd.results?.map fun outcomes => outcomes.map (·.map (·.toOption))) =
        some [[none], [none, some ⟨0⟩], [some ⟨0⟩]] ∧
      ((∃ thread ∈ loopEnd.threads, thread.rest.result? = none) →
        ∃ index t, loopEnd.step index = .ok t) ∧
      (∀ index, loopEnd.step index ≠ .error .outOfFuel) ∧
      ∃ (made : List Key) (value : Key → Ref), made.Nodup ∧
        loopPlan.Produced loopWorld.1.objects.size loopEnd.world made ∧
        (∀ (index : Nat) (key : Key), made[index]? = some key →
          value key = ⟨loopWorld.1.objects.size + index⟩) ∧
        ∀ (index : Nat) (keys : List Key)
          (thread : Thread (List Key) Unit Unit (List (Except Fault Ref)))
          (outcomes : List (Except Fault Ref)), loopRequests[index]? = some keys →
          loopEnd.threads[index]? = some thread → thread.rest.result? = some outcomes →
          List.Forall₂ (loopPlan.Answers value) keys outcomes := by
  refine ⟨by decide +kernel, ?_⟩
  obtain ⟨slots, hfresh⟩ := loopWorld_fresh
  exact concurrent_singletons hfresh (fun _ _ => rfl) (by decide +kernel) (by decide)
    loopThreads_reaches

end FactoryPlan

end Wiring
