import Wiring.Proofs.RegistryView

/-!
# Which singletons are at work

While a thread resolves keys on its own, a singleton is taken, or recorded as being produced, only
if it is at work: it was asked for further up and has not come to an end. `World.WorksOn` says so,
and each step of a singleton keeps it: the steps that begin its work add its key, and giving the
slot back takes it off (`WorksOn.giveBack`). So a singleton that is not at work can be waited for
(`WorksOn.awaitKey`).

* **`World.Ready`** — where nothing has been resolved; `Ready.worksOn` is the start.
* **`awaitKey_of_unproduced`** and **`awaitKey_of_producing`** — the two ways in which a wait is
  decided on one thread.
-/

namespace Wiring

variable {ρ σ π : Type}

namespace World

/-- The bindings are those of `view`, and only the singletons of `opened` are at work: their slots
are the only ones that may be `Slot.busy`, and theirs the only productions on record. -/
structure WorksOn (w : World ρ σ π) (id : InjectorId) (view : RegistryView ρ) (slots : Key → SlotId)
    (opened : List Key) : Prop where
  represents : w.Represents id view slots
  producing : ∀ key thread, (w.injector id).waits.producing.get? key = some thread → key ∈ opened
  busy : ∀ key r, view key = some r → r.scope = .singleton → w.slot (slots key) = .busy → key ∈ opened

/-- The injector has the bindings of `view`, and nothing has been resolved: no slot is taken or
keeps anything. -/
structure Ready (w : World ρ σ π) (id : InjectorId) (view : RegistryView ρ)
    (slots : Key → SlotId) : Prop where
  represents : w.Represents id view slots
  hooks : ∀ type, (w.injector id).hooksOf type = []
  empty : ∀ key r, view key = some r → r.scope = .singleton → w.slot (slots key) = .empty
  idle : (w.injector id).waits.producing = .empty
  stack : w.stack = []

variable {w after : World ρ σ π} {id : InjectorId} {view : RegistryView ρ} {slots : Key → SlotId}
variable {opened : List Key} {key : Key} {r : Registration ρ}

/-- The provider that resolving a key uses by `World.providerOf` is the one of its `Registration`,
in the wrapper of its scope. -/
theorem Represents.providerOf_of_view (h : w.Represents id view slots) (hview : view key = some r) :
    w.providerOf id key = (.ok (Registration.wrapped r.scope (slots key) key r.provider), w) := by
  rw [World.providerOf, h.find key, hview]
  rfl

theorem Represents.providerOf_of_unbound (h : w.Represents id view slots) (hview : view key = none) :
    w.providerOf id key = w.raise (.unboundKey key) := by
  rw [World.providerOf, h.find key, hview]
  rfl

theorem Represents.injector_setWaits (h : w.Represents id view slots) (graph : WaitGraph) :
    (w.setWaits id graph).injector id = { w.injector id with waits := graph } :=
  injector_modifyInjector_self w _ h.known

/-- Waiting by `World.awaitKey` for a key that nobody produces closes no loop. -/
theorem awaitKey_of_unproduced (h : (w.injector id).waits.producing.get? key = none) :
    w.awaitKey id key = (.ok (), w.setWaits id { (w.injector id).waits with
      awaiting := (w.injector id).waits.awaiting.insert w.thread key }) := by
  have hchain : (w.injector id).waits.chainTo w.thread [key] key = none := by
    rw [WaitGraph.chainTo, h]
  rw [World.awaitKey, WaitGraph.await_eq_ok_iff.2 ⟨hchain, rfl⟩]

/-- A thread that produces the key itself would wait for itself, so `World.awaitKey` refuses. -/
theorem awaitKey_of_producing (h : (w.injector id).waits.producing.get? key = some w.thread) :
    w.awaitKey id key = w.raise (.cyclicBinding [key, key]) := by
  have hchain : (w.injector id).waits.chainTo w.thread [key] key = some [key] := by
    rw [WaitGraph.chainTo, h]
    exact if_pos rfl
  rw [World.awaitKey, WaitGraph.await_eq_error_iff.2 ⟨_, hchain, rfl⟩]
  rfl

namespace WorksOn

theorem of_kept (h : w.WorksOn id view slots opened) (hinjectors : after.injectors = w.injectors)
    (hslots : after.slots = w.slots) : after.WorksOn id view slots opened := by
  have hinjector : after.injector id = w.injector id := by
    rw [World.injector, hinjectors]
    rfl
  have hslot (slot : SlotId) : after.slot slot = w.slot slot := by
    rw [World.slot, hslots]
    rfl
  refine ⟨?_, ?_, ?_⟩
  · refine h.represents.of_bindings_eq ?_ ?_ (Nat.le_of_eq (congrArg Array.size hslots).symm)
    · rw [hinjectors]
      exact h.represents.known
    · rw [hinjector]
  · rw [hinjector]
    exact h.producing
  · intro key r hview hscope hbusy
    rw [hslot] at hbusy
    exact h.busy key r hview hscope hbusy

theorem mono {more : List Key} (h : w.WorksOn id view slots opened)
    (hmore : ∀ key ∈ opened, key ∈ more) : w.WorksOn id view slots more where
  represents := h.represents
  producing := fun key thread hp => hmore key (h.producing key thread hp)
  busy := fun key r hview hscope hb => hmore key (h.busy key r hview hscope hb)

theorem setWaits (h : w.WorksOn id view slots opened) (graph : WaitGraph)
    (hproducing : ∀ key thread, graph.producing.get? key = some thread → key ∈ opened) :
    (w.setWaits id graph).WorksOn id view slots opened := by
  have hinjector := h.represents.injector_setWaits graph
  refine ⟨?_, ?_, h.busy⟩
  · refine h.represents.of_bindings_eq ?_ ?_ (Nat.le_refl _)
    · simpa [World.setWaits, modifyInjector] using h.represents.known
    · rw [hinjector]
  · rw [hinjector]
    exact hproducing

/-- Nobody produces a key that is not at work, that is, not among those `opened`. -/
theorem unproduced (h : w.WorksOn id view slots opened) (hkey : key ∉ opened) :
    (w.injector id).waits.producing.get? key = none := by
  cases hproducing : (w.injector id).waits.producing.get? key with
  | none => rfl
  | some thread => exact absurd (h.producing key thread hproducing) hkey

/-- So `World.awaitKey` closes no loop there, by `awaitKey_of_unproduced`, and only the waits
change. -/
theorem awaitKey (h : w.WorksOn id view slots opened) (hkey : key ∉ opened) :
    ∃ graph, w.awaitKey id key = (.ok (), w.setWaits id graph) ∧
      (w.setWaits id graph).WorksOn id view slots opened :=
  ⟨_, awaitKey_of_unproduced (h.unproduced hkey), h.setWaits _ h.producing⟩

theorem startProducing (h : w.WorksOn id view slots opened) (hkey : key ∈ opened) :
    (w.startProducing id key).WorksOn id view slots opened := by
  refine h.setWaits _ fun other thread hproducing => ?_
  rw [WaitGraph.startProducing, Table.get?_insert] at hproducing
  split at hproducing
  case isTrue heq => rwa [← heq]
  case isFalse => exact h.producing other thread hproducing

theorem stopAwaiting (h : w.WorksOn id view slots opened) (key : Key) :
    (w.stopAwaiting id key).WorksOn id view slots opened := by
  refine h.setWaits _ ?_
  rw [WaitGraph.stopAwaiting]
  split
  · exact h.producing
  · exact h.producing

/-- The slots of the other singletons are others, so `World.setSlot` leaves what they keep alone. -/
theorem slot_setSlot_of_other (h : w.WorksOn id view slots opened) (hview : view key = some r)
    (hscope : r.scope = .singleton) (slot : Slot) {other : Key} {t : Registration ρ}
    (ht : view other = some t) (hsc : t.scope = .singleton) (hne : other ≠ key) :
    (w.setSlot (slots key) slot).slot (slots other) = w.slot (slots other) :=
  w.slot_setSlot_of_ne slot fun heq =>
    hne (h.represents.own key other r t hview hscope ht hsc heq).symm

theorem slot_setSlot (h : w.WorksOn id view slots opened) (hview : view key = some r)
    (hscope : r.scope = .singleton) (slot : Slot) :
    (w.setSlot (slots key) slot).slot (slots key) = slot :=
  w.slot_setSlot_self slot (h.represents.allotted key r hview hscope)

theorem setSlot (h : w.WorksOn id view slots opened) (hview : view key = some r)
    (hscope : r.scope = .singleton) (slot : Slot) (hbusy : slot = .busy → key ∈ opened) :
    (w.setSlot (slots key) slot).WorksOn id view slots opened := by
  refine ⟨?_, h.producing, ?_⟩
  · refine h.represents.of_bindings_eq h.represents.known rfl ?_
    simp [World.setSlot]
  · intro other t ht hsc hb
    by_cases hne : other = key
    · subst hne
      exact hbusy ((h.slot_setSlot hview hscope slot).symm.trans hb)
    · rw [h.slot_setSlot_of_other hview hscope slot ht hsc hne] at hb
      exact h.busy other t ht hsc hb

theorem get?_stopProducing {graph : WaitGraph} {other : Key} {thread : ThreadId}
    (h : (graph.stopProducing key).producing.get? other = some thread) :
    other ≠ key ∧ graph.producing.get? other = some thread := by
  rw [WaitGraph.stopProducing, Table.get?_erase] at h
  split at h
  case isTrue => cases h
  case isFalse hne => exact ⟨fun heq => hne heq.symm, h⟩

theorem stopProducing (h : w.WorksOn id view slots opened) (key : Key) :
    (w.stopProducing id key).WorksOn id view slots opened :=
  h.setWaits _ fun other thread hproducing => h.producing other thread (get?_stopProducing hproducing).2

/-- The slot of a singleton is given back, and with it the singleton's work is over: `WorksOn` holds
without its key. -/
theorem giveBack (h : w.WorksOn id view slots (opened ++ [key])) (hview : view key = some r)
    (hscope : r.scope = .singleton) {slot : Slot} (hfree : slot ≠ .busy) :
    ((w.stopProducing id key).setSlot (slots key) slot).WorksOn id view slots opened := by
  have hstopped := h.stopProducing key
  have hset := hstopped.setSlot hview hscope slot fun hbusy => absurd hbusy hfree
  have hmember (other : Key) (hmem : other ∈ opened ++ [key]) (hne : other ≠ key) :
      other ∈ opened := by
    rcases List.mem_append.1 hmem with hold | hlast
    · exact hold
    · exact absurd (List.mem_singleton.1 hlast) hne
  -- neither the graph nor the slot tells of the key any more
  refine ⟨hset.represents, ?_, ?_⟩
  · intro other thread hproducing
    have hinjector : ((w.stopProducing id key).setSlot (slots key) slot).injector id =
        { w.injector id with waits := (w.injector id).waits.stopProducing key } :=
      h.represents.injector_setWaits _
    rw [hinjector] at hproducing
    obtain ⟨hne, hbefore⟩ := get?_stopProducing hproducing
    exact hmember other (h.producing other thread hbefore) hne
  · intro other t ht hsc hbusy
    refine hmember other (hset.busy other t ht hsc hbusy) ?_
    rintro rfl
    exact hfree ((hstopped.slot_setSlot hview hscope slot).symm.trans hbusy)

end WorksOn

/-- Before anything is resolved, nothing is at work: `Ready` is `WorksOn` with no key opened. -/
theorem Ready.worksOn (h : w.Ready id view slots) : w.WorksOn id view slots [] := by
  refine ⟨h.represents, ?_, ?_⟩
  · intro key thread hproducing
    rw [h.idle] at hproducing
    cases hproducing
  · intro key r hview hscope hbusy
    rw [h.empty key r hview hscope] at hbusy
    cases hbusy

end World

end Wiring
