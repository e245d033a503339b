import Wiring.Engine
import Wiring.Proofs.Discipline
import Wiring.Proofs.FactoryPlan

/-!
# The steps of making a singleton

Each step that a thread takes on the way to the singleton of a key, as it moves the `Place` of the
thread: the key is put on the stack, the wait for it is recorded, its slot is taken, and so on back.
Every step keeps `FactoryPlan.Inv`, and a step that refuses to go on shows the key to be `Doomed`.

The steps are stated as `Run.Obeys` for the `FactoryPlan.discipline` of the plan, so the resolution
of a key is put together of them by the rules of `Discipline`. The invariant is kept by one lemma
for each part of the world that a move changes: `Inv.moveTo`, `Inv.setWaits`, `Inv.setSlot` and
`Inv.allocate`.

* **`Inv.needs_of_leads`** — who waits for whom follows what needs what, so a loop of waits is a
  cycle of needs.
* **`Inv.eq_of_makes`** — a key is made by one thread at a time.
-/

namespace Wiring.FactoryPlan

variable {ρ σ π : Type}
variable {plan : FactoryPlan ρ π} {slots : Key → SlotId} {first : Nat} {key : Key} {me : ThreadId}
variable {w w' : World ρ σ π} {places : ThreadId → Place} {made made' : List Key}
variable {p q : Place}

/-! ### What a move comes to -/

theorem view_update {β : Type} (f : Place → β) :
    (fun thread => f (Function.update places me q thread)) =
      Function.update (fun thread => f (places thread)) me (f q) := by
  funext thread
  by_cases ht : thread = me
  · rw [ht, Function.update_self, Function.update_self]
  · rw [Function.update_of_ne ht, Function.update_of_ne ht]

theorem view_update_of_eq {β : Type} (f : Place → β) (hplace : places me = p) (hf : f q = f p) :
    (fun thread => f (Function.update places me q thread)) =
      fun thread => f (places thread) := by
  rw [view_update, hf, ← hplace]
  exact Function.update_eq_self me fun thread => f (places thread)

/-- The invariant sees nothing of a world but its injectors, slots and objects, so `Inv` goes over
to one that has the same. -/
theorem Inv.of_same (h : plan.Inv slots first w places made) (hinjectors : w'.injectors = w.injectors)
    (hslots : w'.slots = w.slots) (hobjects : w'.objects = w.objects) :
    plan.Inv slots first w' places made := by
  -- with the records taken apart, the two worlds differ in fields that nothing speaks of
  cases w
  cases w'
  cases hinjectors
  cases hslots
  cases hobjects
  have hr := h.represents
  have hp := h.produced
  exact ⟨⟨hr.known, hr.bindings, hr.allotted, hr.own⟩, h.hooks, h.lined, h.waits, h.slots, h.known,
    ⟨hp.size, hp.content⟩⟩

/-- A thread moves to a place on the same stack or another that is in order, and the stack of every
place is `Lined` after it. -/
theorem Inv.lined_update (h : plan.Inv slots first w places made) (hlined : plan.Lined q.stack)
    (thread : ThreadId) : plan.Lined (Function.update places me q thread).stack := by
  by_cases ht : thread = me
  · rw [ht, Function.update_self]
    exact hlined
  · rw [Function.update_of_ne ht]
    exact h.lined thread

theorem Inv.known_update (h : plan.Inv slots first w places made)
    (hknown : ∀ r ∈ q.known, plan.Kept first made r.1 r.2) (thread : ThreadId) :
    ∀ r ∈ (Function.update places me q thread).known, plan.Kept first made r.1 r.2 := by
  by_cases ht : thread = me
  · rw [ht, Function.update_self]
    exact hknown
  · rw [Function.update_of_ne ht]
    exact h.known thread

/-- A move that neither the graph of waits nor the slots have to do with: only the stack and what is
`known` of the place differ. -/
theorem Inv.moveTo (h : plan.Inv slots first w places made) (hplace : places me = p)
    (hlined : plan.Lined q.stack) (hmakes : q.makes = p.makes)
    (hawaits : q.awaits = p.awaits) (hheld : q.held = p.held) (hready : q.ready = p.ready)
    (hknown : ∀ r ∈ q.known, plan.Kept first made r.1 r.2) :
    plan.Inv slots first w (Function.update places me q) made where
  represents := h.represents
  hooks := h.hooks
  lined := h.lined_update hlined
  waits := by
    rw [view_update_of_eq Place.makes hplace hmakes, view_update_of_eq Place.awaits hplace hawaits]
    exact h.waits
  slots := by
    rw [view_update_of_eq Place.held hplace hheld, view_update_of_eq Place.ready hplace hready]
    exact h.slots
  known := h.known_update hknown
  produced := h.produced

/-- A move along with a change of the graph of waits, which has to match the places after it by
`WaitsMatch`. -/
theorem Inv.setWaits (h : plan.Inv slots first w places made) (hplace : places me = p)
    (graph : WaitGraph)
    (hwaits : WaitsMatch graph (Function.update (fun thread => (places thread).makes) me q.makes)
      (Function.update (fun thread => (places thread).awaits) me q.awaits))
    (hlined : plan.Lined q.stack) (hheld : q.held = p.held) (hready : q.ready = p.ready)
    (hknown : q.known = p.known) :
    plan.Inv slots first (w.setWaits plan.id graph) (Function.update places me q) made := by
  have hid := h.represents.known
  have hinjector : (w.setWaits plan.id graph).injector plan.id =
      { w.injector plan.id with waits := graph } :=
    World.injector_modifyInjector_self w _ hid
  constructor
  case represents =>
    refine h.represents.of_bindings_eq ?_ ?_ (Nat.le_refl _)
    · simpa [World.setWaits, World.modifyInjector] using hid
    · rw [hinjector]
  case hooks =>
    rw [hinjector]
    exact h.hooks
  case lined => exact h.lined_update hlined
  case waits =>
    rw [view_update Place.makes, view_update Place.awaits, hinjector]
    exact hwaits
  case slots =>
    rw [view_update_of_eq Place.held hplace hheld, view_update_of_eq Place.ready hplace hready]
    exact h.slots
  case known =>
    refine h.known_update ?_
    rw [hknown, ← hplace]
    exact h.known me
  case produced => exact ⟨h.produced.size, h.produced.content⟩

/-- A move along with a change of the slot of a key by `World.setSlot`; the slots have to match the
places after it by `SlotsMatch`. -/
theorem Inv.setSlot (h : plan.Inv slots first w places made) (hplace : places me = p) (key : Key)
    (slot : Slot)
    (hslots : plan.SlotsMatch first (fun other => (w.setSlot (slots key) slot).slot (slots other))
      (Function.update (fun thread => (places thread).held) me q.held)
      (Function.update (fun thread => (places thread).ready) me q.ready) made)
    (hlined : plan.Lined q.stack) (hmakes : q.makes = p.makes)
    (hawaits : q.awaits = p.awaits)
    (hknown : ∀ r ∈ q.known, plan.Kept first made r.1 r.2) :
    plan.Inv slots first (w.setSlot (slots key) slot) (Function.update places me q) made where
  represents := h.represents.of_bindings_eq h.represents.known rfl (by simp [World.setSlot])
  hooks := h.hooks
  lined := h.lined_update hlined
  waits := by
    rw [view_update_of_eq Place.makes hplace hmakes, view_update_of_eq Place.awaits hplace hawaits]
    exact h.waits
  slots := by
    rw [view_update Place.held, view_update Place.ready]
    exact hslots
  known := h.known_update hknown
  produced := ⟨h.produced.size, h.produced.content⟩

/-- A move along with the making of an object for a key by `World.allocate`, of the objects of what
the key needs. -/
theorem Inv.allocate {objects : List Ref} (h : plan.Inv slots first w places made)
    (hplace : places me = p)
    (hobjects : List.Forall₂ (MadeAs first made) (plan.needs key) objects)
    (hslots : plan.SlotsMatch first (fun other => w.slot (slots other))
      (fun thread => (places thread).held)
      (Function.update (fun thread => (places thread).ready) me q.ready) (made ++ [key]))
    (hlined : plan.Lined q.stack) (hmakes : q.makes = p.makes)
    (hawaits : q.awaits = p.awaits) (hheld : q.held = p.held) (hknown : q.known = p.known) :
    plan.Inv slots first (w.allocate (plan.content key objects)).2 (Function.update places me q)
      (made ++ [key]) where
  represents := h.represents.of_bindings_eq h.represents.known rfl (Nat.le_refl _)
  hooks := h.hooks
  lined := h.lined_update hlined
  waits := by
    rw [view_update_of_eq Place.makes hplace hmakes, view_update_of_eq Place.awaits hplace hawaits]
    exact h.waits
  slots := by
    rw [view_update_of_eq Place.held hplace hheld, view_update Place.ready]
    exact hslots
  known := by
    intro thread r hr
    have hmine : ∀ r ∈ q.known, plan.Kept first made r.1 r.2 := by
      rw [hknown, ← hplace]
      exact h.known me
    exact (h.known_update hmine thread r hr).append [key]
  produced := h.produced.push hobjects

/-! ### The bindings of the plan -/

theorem view_of_mem (hkey : key ∈ plan.keys) :
    plan.view key = some ⟨.completed key.type (plan.routine key), [], .singleton⟩ :=
  if_pos hkey

theorem slot_lt (h : plan.Inv slots first w places made) (hkey : key ∈ plan.keys) :
    (slots key).index < w.slots.size :=
  h.represents.allotted key _ (view_of_mem hkey) rfl

theorem slot_setSlot_of_ne (h : plan.Inv slots first w places made) (hkey : key ∈ plan.keys)
    (slot : Slot) {other : Key} (hother : other ∈ plan.keys) (hne : other ≠ key) :
    (w.setSlot (slots key) slot).slot (slots other) = w.slot (slots other) := by
  refine World.slot_setSlot_of_ne w slot fun heq => hne ?_
  exact (h.represents.own key other _ _ (view_of_mem hkey) rfl (view_of_mem hother) rfl heq).symm

theorem providerOf_eq (h : plan.Inv slots first w places made) (hkey : key ∈ plan.keys) :
    w.providerOf plan.id key =
      (.ok (.singleton (slots key) key key.type (.completed key.type (plan.routine key))), w) := by
  rw [World.providerOf, h.represents.find key, view_of_mem hkey]
  rfl

/-! ### The discipline -/

variable (plan slots first) in
/-- Threads keep to the places of the plan, related to the world by `Inv`, and sleep only where a
slot that they wait for is busy. -/
def discipline : Discipline ρ σ π Place where
  stack := Place.stack
  holds w places := ∃ made, plan.Inv slots first w places made
  asleep w place := ∃ key ∈ plan.keys, place.phase = .waiting key ∧ w.slot (slots key) = .busy
  holds_switchTo := by
    rintro w places thread stack ⟨made, h⟩
    exact ⟨made, h.of_same rfl rfl rfl⟩
  asleep_of_switchTo := fun h => h

variable {makes outer : List Key} {known : List (Key × Ref)}

theorem Lined.init (h : plan.Lined (makes ++ [key])) : plan.Lined makes where
  nodup := (List.nodup_append.1 h.nodup).1
  subset other hother := h.subset other (List.mem_append_left _ hother)
  needs := (List.pairwise_append.1 h.needs).1

theorem Lined.mem (h : plan.Lined (makes ++ [key])) : key ∈ plan.keys :=
  h.subset key (by simp)

theorem Lined.not_mem (h : plan.Lined (makes ++ [key])) : key ∉ makes := by
  intro hmem
  exact (List.nodup_append.1 h.nodup).2.2 key hmem key (by simp) rfl

theorem Lined.needs_last (h : plan.Lined (makes ++ [key])) {other : Key} (hother : other ∈ makes) :
    Relation.TransGen plan.Needs other key :=
  (List.pairwise_append.1 h.needs).2.2 other hother key (by simp)

theorem Lined.push (h : plan.Lined makes) (hkey : key ∈ plan.keys) (hnot : key ∉ makes)
    (hneeds : ∀ other ∈ makes, Relation.TransGen plan.Needs other key) :
    plan.Lined (makes ++ [key]) where
  nodup := ResolveStack.nodup_of_push h.nodup (ResolveStack.push_eq_ok_iff.2 ⟨hnot, rfl⟩)
  subset other hother := by
    rcases List.mem_append.1 hother with hold | hlast
    · exact h.subset other hold
    · rw [List.mem_singleton.1 hlast]
      exact hkey
  needs := by
    rw [List.pairwise_append]
    refine ⟨h.needs, List.pairwise_singleton .., ?_⟩
    intro other hother last hlast
    rw [List.mem_singleton.1 hlast]
    exact hneeds other hother

theorem update_place (hplace : places me = p) : Function.update places me p = places := by
  rw [← hplace]
  exact Function.update_eq_self me places

theorem update_view {β : Type} (f : Place → β) (hplace : places me = p) :
    Function.update (fun thread => f (places thread)) me (f p) = fun thread => f (places thread) := by
  rw [← hplace]
  exact Function.update_eq_self me fun thread => f (places thread)

/-! ### On and off the stack -/

theorem obeys_note (event : LogEvent) :
    (Run.change (World.note · event)).Obeys (σ := σ) (plan.discipline slots first) me p
      fun _ next => next = p := by
  refine Run.Obeys.change p ?_ rfl
  rintro w places ⟨made, h⟩ hplace hthread hstack
  rw [update_place hplace]
  exact ⟨hthread, hstack, made, h.of_same rfl rfl rfl⟩

theorem obeys_pushKey (hkey : key ∈ plan.keys) (hlined : plan.Lined makes)
    (hneeds : ∀ other ∈ makes, Relation.TransGen plan.Needs other key) :
    (Run.now (World.pushKey · key)).Obeys (σ := σ) (plan.discipline slots first) me
      ⟨makes, .idle, known⟩ fun reply next =>
        (reply = .ok () ∧ key ∉ makes ∧ next = ⟨makes, .entered key, known⟩) ∨
          ((∃ chain, reply = .error (.cyclicBinding chain)) ∧ plan.Doomed key ∧
            next = ⟨makes, .idle, known⟩) := by
  refine Run.Obeys.now ?_
  rintro w places ⟨made, h⟩ hplace hthread (hstack : w.stack = makes)
  have hknown := h.known me
  rw [hplace] at hknown
  by_cases hmem : key ∈ makes
  -- the key needs those that are being made above it, and they need the key
  · rw [World.pushKey_of_mem hstack hmem]
    refine ⟨hthread, ⟨makes, .idle, known⟩, hstack, ⟨made, ?_⟩,
      .inr ⟨⟨_, rfl⟩, doomed_of_cycle (hneeds key hmem), rfl⟩⟩
    rw [update_place hplace]
    exact h.of_same rfl rfl rfl
  · rw [World.pushKey_of_not_mem hstack hmem]
    refine ⟨hthread, _, rfl, ⟨made, ?_⟩, .inl ⟨rfl, hmem, rfl⟩⟩
    -- the place moves along with the stack
    have hmove := h.moveTo (q := ⟨makes, .entered key, known⟩) hplace
      (hlined.push hkey hmem hneeds) rfl rfl rfl rfl hknown
    exact hmove.of_same rfl rfl rfl

theorem obeys_popKey :
    (Run.change World.popKey).Obeys (σ := σ) (plan.discipline slots first) me
      ⟨makes, .entered key, known⟩ fun _ next => next = ⟨makes, .idle, known⟩ := by
  refine Run.Obeys.change ⟨makes, .idle, known⟩ ?_ rfl
  rintro w places ⟨made, h⟩ hplace hthread (hstack : w.stack = makes ++ [key])
  have hlined := h.lined me
  have hknown := h.known me
  rw [hplace] at hlined hknown
  -- the key on top is the one that was pushed, so what is left is what there was
  refine ⟨hthread, ?_, made, ?_⟩
  · show w.stack.pop = makes
    rw [hstack, ResolveStack.pop_append_singleton]
  · have hmove := h.moveTo (q := ⟨makes, .idle, known⟩) hplace (Lined.init hlined) rfl rfl rfl rfl
      hknown
    exact hmove.of_same rfl rfl rfl

theorem obeys_providerOf (hkey : key ∈ plan.keys) :
    (Run.now (World.providerOf · plan.id key)).Obeys (σ := σ) (π := π)
      (plan.discipline slots first) me p fun reply next => next = p ∧
        reply = .ok (.singleton (slots key) key key.type
          (.completed key.type (plan.routine key))) := by
  refine Run.Obeys.now ?_
  rintro w places ⟨made, h⟩ hplace hthread hstack
  rw [providerOf_eq h hkey]
  refine ⟨hthread, p, hstack, ⟨made, ?_⟩, rfl, rfl⟩
  rw [update_place hplace]
  exact h

theorem obeys_hooksOf (type : ValueType) :
    (Run.now fun w : World ρ σ π => ((w.injector plan.id).hooksOf type, w)).Obeys
      (plan.discipline slots first) me p fun hooks next => hooks = [] ∧ next = p := by
  refine Run.Obeys.now ?_
  rintro w places ⟨made, h⟩ hplace hthread hstack
  refine ⟨hthread, p, hstack, ⟨made, ?_⟩, h.hooks type, rfl⟩
  rw [update_place hplace]
  exact h

/-! ### Waiting for a key -/

/-- What is kept for a key, by `Kept`, may be learned at any time: `Place.learn` changes nothing
that others see. -/
theorem Inv.learn (h : plan.Inv slots first w places made) (hplace : places me = p) {object : Ref}
    (hkept : plan.Kept first made key object) :
    plan.Inv slots first w (Function.update places me (p.learn key object)) made := by
  have hknown : ∀ q ∈ (p.learn key object).known, plan.Kept first made q.1 q.2 := by
    rintro q (_ | ⟨_, hq⟩)
    · exact hkept
    · refine h.known me q ?_
      rwa [hplace]
  have hlined := h.lined me
  rw [hplace] at hlined
  exact h.moveTo hplace hlined rfl rfl rfl rfl hknown

theorem obeys_slot (hkey : key ∈ plan.keys) :
    (Run.now fun w : World ρ σ π => (w.slot (slots key), w)).Obeys
      (plan.discipline slots first) me p fun slot next =>
        (∃ object, slot = .filled object ∧ next = p.learn key object) ∨
          ((∀ object, slot ≠ .filled object) ∧ next = p) := by
  refine Run.Obeys.now ?_
  rintro w places ⟨made, h⟩ hplace hthread hstack
  by_cases hfilled : ∃ object, w.slot (slots key) = .filled object
  · obtain ⟨object, hobject⟩ := hfilled
    have hkept := h.slots.filled key hkey object hobject
    exact ⟨hthread, p.learn key object, hstack, ⟨made, h.learn hplace hkept⟩,
      .inl ⟨object, hobject, rfl⟩⟩
  · refine ⟨hthread, p, hstack, ⟨made, ?_⟩, .inr ⟨fun object ho => hfilled ⟨object, ho⟩, rfl⟩⟩
    rw [update_place hplace]
    exact h

theorem Place.stack_of_awaits {q : Place} (h : q.awaits = some key) :
    q.stack = q.makes ++ [key] := by
  obtain ⟨makes, phase, known⟩ := q
  cases phase with
  | waiting other =>
    cases h
    rfl
  | holding other =>
    cases h
    rfl
  | _ => cases h

/-- A walk through the graph of waits, by `WaitGraph.Leads`, is a path of `Needs`. -/
theorem Inv.needs_of_leads (h : plan.Inv slots first w places made) {other : Key}
    (hleads : (w.injector plan.id).waits.Leads key other) :
    Relation.TransGen plan.Needs key other := by
  obtain ⟨thread, hproducing, hawaiting⟩ := hleads
  have hmakes := (h.waits.producing key thread).1 hproducing
  have hlined := h.lined thread
  rw [Place.stack_of_awaits ((h.waits.awaiting thread).symm.trans hawaiting)] at hlined
  exact hlined.needs_last hmakes

theorem Inv.doomed_of_meets (h : plan.Inv slots first w places made)
    (hplace : places me = ⟨makes, .entered key, known⟩)
    (hmeets : (w.injector plan.id).waits.Meets me key) : plan.Doomed key := by
  obtain ⟨last, hwalk, hlast⟩ := hmeets
  -- `key` needs `last` along the walk, and `last`, which `me` makes, needs `key` along the stack
  have hforth : Relation.ReflTransGen plan.Needs key last := by
    clear hlast
    induction hwalk with
    | refl => exact .refl
    | tail _ hstep ih => exact ih.trans (h.needs_of_leads hstep).to_reflTransGen
  have hmakes := (h.waits.producing last me).1 hlast
  have hlined := h.lined me
  rw [hplace] at hmakes hlined
  exact doomed_of_cycle (.trans_right hforth (Lined.needs_last hlined hmakes))

theorem obeys_awaitKey :
    (Run.now (World.awaitKey · plan.id key)).Obeys (σ := σ) (π := π)
      (plan.discipline slots first) me ⟨makes, .entered key, known⟩ fun reply next =>
        (reply = .ok () ∧ next = ⟨makes, .waiting key, known⟩) ∨
          ((∃ chain, reply = .error (.cyclicBinding chain)) ∧ plan.Doomed key ∧
            next = ⟨makes, .entered key, known⟩) := by
  refine Run.Obeys.now ?_
  rintro w places ⟨made, h⟩ hplace hthread hstack
  have hlined := h.lined me
  rw [hplace] at hlined
  cases hawait : (w.injector plan.id).waits.await me key with
  | error fault =>
    obtain ⟨chain, hchain, rfl⟩ := WaitGraph.await_eq_error_iff.1 hawait
    -- the waits lead along needs, so a chain of them that comes back is a cycle of needs
    have hdoomed := h.doomed_of_meets hplace (WaitGraph.meets_of_chainTo hchain)
    have hraise : w.awaitKey plan.id key = w.raise (.cyclicBinding (chain ++ [key])) := by
      rw [World.awaitKey, hthread, hawait]
    rw [hraise]
    refine ⟨hthread, _, hstack, ⟨made, ?_⟩, .inr ⟨⟨_, rfl⟩, hdoomed, rfl⟩⟩
    rw [update_place hplace]
    exact h.of_same rfl rfl rfl
  | ok waiting =>
    have hset : w.awaitKey plan.id key = (.ok (), w.setWaits plan.id waiting) := by
      rw [World.awaitKey, hthread, hawait]
    rw [hset]
    refine ⟨hthread, ⟨makes, .waiting key, known⟩, hstack, ⟨made, ?_⟩, .inl ⟨rfl, rfl⟩⟩
    refine h.setWaits hplace waiting ?_ hlined rfl rfl rfl
    show WaitsMatch waiting (Function.update (fun thread => (places thread).makes) me
      (Place.makes ⟨makes, .entered key, known⟩)) _
    rw [update_view Place.makes hplace]
    exact h.waits.await hawait

theorem obeys_stopAwaiting {phase : Phase} (hphase : phase = .waiting key ∨ phase = .entered key) :
    (Run.change (World.stopAwaiting · plan.id key)).Obeys (σ := σ) (π := π)
      (plan.discipline slots first) me ⟨makes, phase, known⟩
      fun _ next => next = ⟨makes, .entered key, known⟩ := by
  refine Run.Obeys.change ⟨makes, .entered key, known⟩ ?_ rfl
  rintro w places ⟨made, h⟩ hplace hthread hstack
  -- after a slot was taken and given back, the wait has been forgotten already
  have hboth : Place.stack ⟨makes, phase, known⟩ = makes ++ [key] ∧
      (Place.awaits ⟨makes, phase, known⟩ = some key ∨
        Place.awaits ⟨makes, phase, known⟩ = none) ∧
      Place.held ⟨makes, .entered key, known⟩ = Place.held ⟨makes, phase, known⟩ ∧
      Place.ready ⟨makes, .entered key, known⟩ = Place.ready ⟨makes, phase, known⟩ := by
    rcases hphase with rfl | rfl
    · exact ⟨rfl, .inl rfl, rfl, rfl⟩
    · exact ⟨rfl, .inr rfl, rfl, rfl⟩
  obtain ⟨hstacked, hawaits, hheld, hready⟩ := hboth
  have hlined := h.lined me
  rw [hplace, hstacked] at hlined
  rw [← hplace] at hawaits
  have hwaits := h.waits.stopAwaiting hawaits
  refine ⟨hthread, hstack.trans hstacked, made, ?_⟩
  rw [World.stopAwaiting, hthread]
  refine h.setWaits (q := ⟨makes, .entered key, known⟩) hplace _ ?_ hlined hheld hready rfl
  show WaitsMatch _ (Function.update (fun thread => (places thread).makes) me
    (Place.makes ⟨makes, phase, known⟩)) _
  rw [update_view Place.makes hplace]
  exact hwaits

/-! ### Making the value of a key -/

theorem obeys_takeSlot (hkey : key ∈ plan.keys) :
    (Engine.takeSlot (slots key)).Obeys (ρ := ρ) (σ := σ) (π := π) (plan.discipline slots first) me
      ⟨makes, .waiting key, known⟩ fun reply next =>
        (∃ object, reply = some object ∧ next = ⟨makes, .waiting key, (key, object) :: known⟩) ∨
          (reply = none ∧ next = ⟨makes, .holding key, known⟩) := by
  refine Run.Obeys.step ?_
  rintro w places ⟨made, h⟩ hplace hthread hstack
  cases hslot : w.slot (slots key) with
  | filled object =>
    have hkept := h.slots.filled key hkey object hslot
    exact .inl ⟨some object, w, rfl, hthread, ⟨makes, .waiting key, (key, object) :: known⟩, hstack,
      ⟨made, h.learn hplace hkept⟩, .inl ⟨object, rfl, rfl⟩⟩
  -- the one step that may have to wait
  | busy => exact .inr ⟨rfl, key, hkey, rfl, hslot⟩
  | empty =>
    have hlined := h.lined me
    have hknown := h.known me
    rw [hplace] at hlined hknown
    refine .inl ⟨none, _, rfl, hthread, ⟨makes, .holding key, known⟩, hstack, ⟨made, ?_⟩,
      .inr ⟨rfl, rfl⟩⟩
    refine h.setSlot hplace key .busy ?_ hlined rfl rfl hknown
    have hbusy := World.slot_setSlot_self w .busy (slot_lt h hkey)
    have htake := h.slots.take me hkey hslot hbusy
      fun other hother hne => slot_setSlot_of_ne h hkey .busy hother hne
    have hheld : (places me).held = makes := by
      rw [hplace]
      rfl
    rw [hheld] at htake
    show plan.SlotsMatch first _ _ (Function.update (fun thread => (places thread).ready) me
      (Place.ready ⟨makes, .waiting key, known⟩)) made
    rw [update_view Place.ready hplace]
    exact htake

theorem Place.mem_held {q : Place} (h : key ∈ q.makes) : key ∈ q.held := by
  obtain ⟨makes, phase, known⟩ := q
  cases phase with
  | holding other => exact List.mem_append_left _ h
  | stopped other kept => exact List.mem_append_left _ h
  | _ => exact h

/-- Nobody but the thread that has taken the slot of a key makes its value: `Place.makes` of two
threads have no key in common. -/
theorem Inv.eq_of_makes (h : plan.Inv slots first w places made) (hheld : key ∈ (places me).held)
    (thread : ThreadId) (hmakes : key ∈ (places thread).makes) : thread = me :=
  h.slots.single key thread me (Place.mem_held hmakes) hheld

theorem obeys_startProducing :
    (Run.change (World.startProducing · plan.id key)).Obeys (σ := σ) (π := π)
      (plan.discipline slots first) me ⟨makes, .holding key, known⟩
      fun _ next => next = ⟨makes ++ [key], .idle, known⟩ := by
  refine Run.Obeys.change ⟨makes ++ [key], .idle, known⟩ ?_ rfl
  rintro w places ⟨made, h⟩ hplace hthread hstack
  have hlined := h.lined me
  rw [hplace] at hlined
  have hheld : key ∈ (places me).held := by
    rw [hplace]
    exact List.mem_append_right _ (List.mem_singleton_self key)
  refine ⟨hthread, hstack, made, ?_⟩
  rw [World.startProducing, hthread]
  have hwaits := h.waits.startProducing me (h.eq_of_makes hheld)
  have hmakes : (places me).makes = makes := by rw [hplace]
  rw [hmakes] at hwaits
  exact h.setWaits (q := ⟨makes ++ [key], .idle, known⟩) hplace _ hwaits hlined rfl rfl rfl

/-- The factory of the innermost key makes its object, of what it was given for its `needs`: the
place moves on to `Phase.made`. -/
theorem obeys_allocate {objects : List Ref}
    (hneeds : List.Forall₂ (fun need object => (need, object) ∈ known) (plan.needs key) objects) :
    (Run.now (World.allocate · (plan.content key objects))).Obeys (ρ := ρ) (σ := σ)
      (plan.discipline slots first) me ⟨outer ++ [key], .idle, known⟩
      fun object next => next = ⟨outer ++ [key], .made object, known⟩ := by
  refine Run.Obeys.now ?_
  rintro w places ⟨made, h⟩ hplace hthread hstack
  have hlined := h.lined me
  have hknown := h.known me
  rw [hplace] at hlined hknown
  have hkey : key ∈ plan.keys := Lined.mem hlined
  have hmade : (∀ need ∈ plan.needs key, ¬ plan.Doomed need) ∧
      List.Forall₂ (MadeAs first made) (plan.needs key) objects := by
    rw [← List.forall₂_and_left]
    refine hneeds.imp fun need object hmem => ?_
    have hkept := hknown (need, object) hmem
    exact ⟨hkept.2, hkept.1⟩
  -- all that the key needs could be made, so there is no cycle behind it
  have hdoomed : ¬ plan.Doomed key := by
    intro hd
    obtain ⟨need, hneed, hbad⟩ := hd.exists_need
    exact hmade.1 need hneed hbad
  have hheld : key ∈ (places me).held := by
    rw [hplace]
    exact List.mem_append_right _ (List.mem_singleton_self key)
  have hready : (places me).ready = none := by
    rw [hplace]
    rfl
  have hobject : (w.allocate (plan.content key objects)).1 = ⟨first + made.length⟩ := by
    rw [← h.produced.size]
    rfl
  have hnext : Place.ready ⟨outer ++ [key], .made ⟨first + made.length⟩, known⟩ =
      some (key, ⟨first + made.length⟩) := by
    simp [Place.ready]
  have hslots := h.slots.finish hkey hheld hready hdoomed
  rw [← hnext] at hslots
  refine ⟨hthread, ⟨outer ++ [key], .made ⟨first + made.length⟩, known⟩, hstack, ⟨made ++ [key], ?_⟩,
    by rw [hobject]⟩
  exact h.allocate hplace hmade.2 hslots hlined rfl rfl rfl rfl

/-- The phase in which the factory of the innermost key has come to its end, with an object or
without: `made` or `idle`. -/
def Phase.over : Option Ref → Phase
  | none => .idle
  | some object => .made object

theorem obeys_stopProducing (kept : Option Ref) :
    (Run.change (World.stopProducing · plan.id key)).Obeys (σ := σ) (π := π)
      (plan.discipline slots first) me ⟨outer ++ [key], Phase.over kept, known⟩
      fun _ next => next = ⟨outer, .stopped key kept, known⟩ := by
  refine Run.Obeys.change ⟨outer, .stopped key kept, known⟩ ?_ rfl
  rintro w places ⟨made, h⟩ hplace hthread hstack
  -- whether there is an object makes no difference to the stack, nor to what is held and waited for
  have hphase : Place.stack ⟨outer ++ [key], Phase.over kept, known⟩ = outer ++ [key] ∧
      Place.held ⟨outer ++ [key], Phase.over kept, known⟩ = outer ++ [key] ∧
      Place.awaits ⟨outer ++ [key], Phase.over kept, known⟩ = none ∧
      Place.ready ⟨outer ++ [key], Phase.over kept, known⟩ =
        Place.ready ⟨outer, .stopped key kept, known⟩ := by
    cases kept with
    | none => exact ⟨rfl, rfl, rfl, rfl⟩
    | some object => exact ⟨rfl, rfl, rfl, by simp [Place.ready, Phase.over]⟩
  obtain ⟨hstacked, hheld, hawaits, hready⟩ := hphase
  have hlined := h.lined me
  rw [hplace, hstacked] at hlined
  have hmine : key ∈ (places me).held := by
    rw [hplace, hheld]
    exact List.mem_append_right _ (List.mem_singleton_self key)
  have hmakes : (places me).makes = outer ++ [key] := by rw [hplace]
  have hwaits := h.waits.stopProducing hmakes hlined.not_mem (h.eq_of_makes hmine)
  refine ⟨hthread, hstack.trans hstacked, made, ?_⟩
  refine h.setWaits (q := ⟨outer, .stopped key kept, known⟩) hplace _ ?_ hlined hheld.symm
    hready.symm rfl
  have hsame := update_view Place.awaits hplace
  rw [hawaits] at hsame
  show WaitsMatch _ _ (Function.update (fun thread => (places thread).awaits) me none)
  rw [hsame]
  exact hwaits

/-- The slot is given back by `World.setSlot`, with the object that was made, if any: the phase
`stopped` is reached. -/
theorem obeys_giveBack (kept : Option Ref) (slot : Slot) (hslot : slot = kept.elim .empty .filled) :
    (Run.change (World.setSlot · (slots key) slot)).Obeys (ρ := ρ) (σ := σ) (π := π)
      (plan.discipline slots first) me ⟨makes, .stopped key kept, known⟩
      fun _ next => next = ⟨makes, .entered key,
        (kept.map fun object => (key, object)).toList ++ known⟩ := by
  refine Run.Obeys.change ⟨makes, .entered key, _⟩ ?_ rfl
  rintro w places ⟨made, h⟩ hplace hthread hstack
  have hlined := h.lined me
  have hknown := h.known me
  rw [hplace] at hlined hknown
  have hkey : key ∈ plan.keys := Lined.mem hlined
  have hheld : (places me).held = makes ++ [key] := by
    rw [hplace]
    rfl
  have hready : (places me).ready = kept.map fun object => (key, object) := by
    rw [hplace]
    cases kept with
    | none => rfl
    | some object => rfl
  have hset := World.slot_setSlot_self w slot (slot_lt h hkey)
  rw [hslot] at hset
  have hback := h.slots.giveBack hkey hheld (Lined.not_mem hlined) hready hset
    fun other hother hne => slot_setSlot_of_ne h hkey _ hother hne
  rw [hslot]
  refine ⟨hthread, hstack, made, h.setSlot hplace key _ hback hlined rfl rfl ?_⟩
  intro r hr
  -- what has been given back is the object of the key
  rcases List.mem_append.1 hr with hnew | hold
  · cases kept with
    | none => cases hnew
    | some object =>
      rw [List.mem_singleton.1 hnew]
      exact h.slots.ready_kept me key object hready
  · exact hknown r hold

end Wiring.FactoryPlan
