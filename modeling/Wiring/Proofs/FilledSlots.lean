import Wiring.Proofs.DeclaredWiring
import Wiring.Proofs.Passage

/-!
# Resolving fills slots

Where providers are instances, lookups, lists, maps and decorations by stages that leave the wiring
alone (`Provider.Inert`), resolving a key changes nothing of the wiring but slots. `World.Fills`
says what may change: a slot that was empty keeps an object now, and which slots these may be. A
resolution fills slots of singletons that the key reaches, and no others, whatever it comes to and
wherever it fails (`resolution_fills`).

The relation is between the ends of a part. In between, the slot of a singleton at work is busy and
its injector has recorded the work (`World.begun`); what the delegate does leaves both as they are,
so giving the slot back by `World.givenBack` comes to the wiring that was there before, but for that
slot.

* **`World.Stands`** — what is known at the beginning of each part: `World.Honours` on terms that
  allow everything, and a thread that waits for nothing.
* **`Stands.fills_givenBack`** — a singleton from its beginning to its end, put together of what its
  delegate fills and of its own slot.
* **`Fills.requests`** — parts follow each other, from wherever the wiring has come to.
-/

namespace Wiring

variable {ρ σ π α : Type}

/-! ### What may have changed -/

namespace World

/-- The wiring is the same, but that slots of which `may` is said have been filled where they were
`Slot.empty`. -/
structure Fills (w : World ρ σ π) (may : SlotId → Prop) (after : World ρ σ π) : Prop where
  injectors : after.injectors = w.injectors
  rosters : after.rosters = w.rosters
  catalogs : after.catalogs = w.catalogs
  places : after.slots.size = w.slots.size
  slot : ∀ slot, after.slot slot = w.slot slot ∨
    w.slot slot = .empty ∧ may slot ∧ ∃ object, after.slot slot = .filled object
  thread : after.thread = w.thread
  stack : after.stack = w.stack

/-- The slot is the one of a singleton that the key `Reaches`. -/
def Caches (w : World ρ σ π) (view : RegistryView ρ) (slots : Key → SlotId) (key : Key) (slot : SlotId) :
    Prop :=
  ∃ other r, w.Reaches view key other ∧ view other = some r ∧ r.scope = .singleton ∧ slots other = slot

variable {w between after : World ρ σ π} {may more : SlotId → Prop} {id : InjectorId} {key : Key}

namespace Fills

theorem of_eq (hinjectors : after.injectors = w.injectors) (hslots : after.slots = w.slots)
    (hrosters : after.rosters = w.rosters) (hcatalogs : after.catalogs = w.catalogs)
    (hthread : after.thread = w.thread) (hstack : after.stack = w.stack) : w.Fills may after := by
  refine ⟨hinjectors, hrosters, hcatalogs, congrArg Array.size hslots, fun slot => .inl ?_, hthread, hstack⟩
  rw [World.slot, hslots]
  rfl

theorem refl (w : World ρ σ π) (may : SlotId → Prop) : w.Fills may w :=
  .of_eq rfl rfl rfl rfl rfl rfl

theorem trans (h : w.Fills may between) (h' : between.Fills may after) : w.Fills may after where
  injectors := h'.injectors.trans h.injectors
  rosters := h'.rosters.trans h.rosters
  catalogs := h'.catalogs.trans h.catalogs
  places := h'.places.trans h.places
  slot := fun slot => by
    rcases h'.slot slot with hkept | ⟨hempty, hmay, hfilled⟩
    · rw [hkept]
      exact h.slot slot
    · -- what is empty in between was empty at the outset
      rcases h.slot slot with hkept | ⟨-, -, object, hobject⟩
      · exact .inr ⟨hkept ▸ hempty, hmay, hfilled⟩
      · cases hempty.symm.trans hobject
  thread := h'.thread.trans h.thread
  stack := h'.stack.trans h.stack

theorem mono (h : w.Fills may after) (hmore : ∀ slot, may slot → more slot) : w.Fills more after :=
  { h with slot := fun slot => (h.slot slot).imp_right fun ⟨hempty, hmay, hfilled⟩ =>
      ⟨hempty, hmore slot hmay, hfilled⟩ }

/-- What a slot keeps is never lost, nor replaced: `Fills` leaves a `Slot.filled` as it is. -/
theorem slot_of_filled (h : w.Fills may after) {slot : SlotId} {object : Ref}
    (hfilled : w.slot slot = .filled object) : after.slot slot = .filled object := by
  rcases h.slot slot with hkept | ⟨hempty, -, -⟩
  · exact hkept.trans hfilled
  · cases hempty.symm.trans hfilled

theorem busy (h : w.Fills may after) {slot : SlotId} (hbusy : after.slot slot = .busy) :
    w.slot slot = .busy := by
  rcases h.slot slot with hkept | ⟨-, -, object, hfilled⟩
  · exact hkept.symm.trans hbusy
  · cases hbusy.symm.trans hfilled

theorem note (w : World ρ σ π) (may : SlotId → Prop) (event : LogEvent) : w.Fills may (w.note event) :=
  .of_eq rfl rfl rfl rfl rfl rfl

theorem allocate (w : World ρ σ π) (may : SlotId → Prop) (content : Content π) :
    w.Fills may (w.allocate content).2 :=
  .of_eq rfl rfl rfl rfl rfl rfl

/-- The key is taken off the stack again by `World.popKey`, and the stack is what it was. -/
theorem popKey {event : LogEvent}
    (h : ((w.switchTo w.thread (w.stack ++ [key])).note event).Fills may after) :
    w.Fills may after.popKey where
  injectors := h.injectors
  rosters := h.rosters
  catalogs := h.catalogs
  places := h.places
  slot := h.slot
  thread := h.thread
  stack := by
    show ResolveStack.pop after.stack = w.stack
    rw [h.stack]
    exact ResolveStack.pop_append_singleton w.stack key

end Fills

/-! ### Waits that change and change back -/

/-- Nothing but the waits of one injector has changed, by `World.setWaits`, and they change once
more. -/
theorem injectors_setWaits_of_eq (hid : id.index < w.injectors.size) {graph : WaitGraph}
    (after : World ρ σ π) (h : after.injectors = (w.setWaits id graph).injectors)
    (f : WaitGraph → WaitGraph) :
    (after.setWaits id (f (after.injector id).waits)).injectors = (w.setWaits id (f graph)).injectors := by
  have hinjector : after.injector id = { w.injector id with waits := graph } := by
    rw [World.injector, h]
    exact injector_modifyInjector_self w _ hid
  have hwaits : (after.injector id).waits = graph := by rw [hinjector]
  rw [hwaits, setWaits, modifyInjector, h]
  refine Array.ext_getElem? fun index => ?_
  simp only [setWaits, modifyInjector, Array.getElem?_modify]
  split
  · simp [Option.map_map, Function.comp_def]
  · rfl

theorem injectors_setWaits_self (w : World ρ σ π) (id : InjectorId) :
    (w.setWaits id (w.injector id).waits).injectors = w.injectors := by
  refine Array.ext_getElem? fun index => ?_
  show (w.injectors.modify id.index _)[index]? = _
  rw [Array.getElem?_modify]
  split
  case isTrue heq =>
    subst heq
    cases hfound : w.injectors[id.index]? with
    | none => rfl
    | some injector => simp [World.injector, hfound]
  case isFalse => rfl

end World

namespace WaitGraph

variable {graph : WaitGraph} {me : ThreadId} {key : Key}

/-- A thread that waits for nothing lets itself wait for a key, and by `startProducing` produces it
instead. -/
theorem startProducing_await (hawake : graph.awaiting.get? me = none) :
    ({ graph with awaiting := graph.awaiting.insert me key } : WaitGraph).startProducing me key =
      { graph with producing := graph.producing.insert key me } := by
  rw [startProducing, Table.erase_insert _ hawake]

/-- When the production of a key is over, by `stopProducing` and `stopAwaiting`, all is as it
was. -/
theorem stopAwaiting_stopProducing (hawake : graph.awaiting.get? me = none)
    (hfree : graph.producing.get? key = none) :
    (({ graph with producing := graph.producing.insert key me } : WaitGraph).stopProducing key).stopAwaiting
      me key = graph := by
  rw [stopProducing, Table.erase_insert _ hfree, stopAwaiting, hawake]
  exact if_neg (Option.some_ne_none key).symm

end WaitGraph

/-! ### Wiring that stands -/

/-- Whatever the stage is given, it comes to an outcome and leaves the wiring alone by
`World.Fills`, as a stage for member hooks does where there are none. -/
def Host.Detached (host : Host ρ σ π) (id : InjectorId) : Stage ρ → Prop
  | .memberInjection _ => True
  | .routine routine => ∀ (w : World ρ σ π) (object : Ref), ∃ outcome after,
      host.Yields (fun answer => (host.stage routine id object).run answer) w outcome after ∧
        w.Fills (fun _ => False) after

/-- The provider is a finite tree of instances, lookups, decorations whose stages are `Detached`,
lists and maps. -/
inductive Provider.Inert (host : Host ρ σ π) (w : World ρ σ π) (id : InjectorId) : Provider ρ → Prop
  | fixed (object : Ref) : Inert host w id (.fixed object)
  | lookup (key : Key) : Inert host w id (.lookup key)
  | decorating {delegate : Provider ρ} {stages : List (Stage ρ)} (hdelegate : Inert host w id delegate)
      (hstages : ∀ stage ∈ stages, host.Detached id stage) : Inert host w id (.decorating delegate stages)
  | list {roster : RosterId} (hentries : ∀ entry ∈ (w.roster roster).entries, Inert host w id entry.provider) :
      Inert host w id (.list roster)
  | map {catalog : CatalogId} (hrows : ∀ row ∈ (w.catalog catalog).entries.rows, Inert host w id row.2) :
      Inert host w id (.map catalog)

namespace World

/-- What is known while keys are resolved: the wiring is that of the base, `opened` are the singletons at
work, and the thread waits for nothing. What singletons have kept is all one, by `Terms.free`. -/
structure Stands (w : World ρ σ π) (l : Layout ρ σ π) (opened : List Key) : Prop
    extends w.Honours l .free opened where
  awake : (w.injector l.id).waits.awaiting.get? w.thread = none

variable {w made after : World ρ σ π} {l : Layout ρ σ π} {opened : List Key} {may : SlotId → Prop}
variable {key : Key} {r : Registration ρ}

namespace Stands

theorem of_fills (h : w.Stands l opened) (hfills : w.Fills may after) : after.Stands l opened := by
  have hinjector : after.injector l.id = w.injector l.id := by
    rw [World.injector, hfills.injectors]
    rfl
  exact {
    represents := by
      refine h.represents.of_bindings_eq ?_ ?_ (Nat.le_of_eq hfills.places.symm)
      · rw [hfills.injectors]
        exact h.represents.known
      · rw [hinjector]
    producing := by
      rw [hinjector]
      exact h.producing
    busy := fun key r hview hscope hbusy => h.busy key r hview hscope (hfills.busy hbusy)
    hooks := by
      rw [hinjector]
      exact h.hooks
    objects := trivial
    rosters := hfills.rosters.trans h.rosters
    catalogs := hfills.catalogs.trans h.catalogs
    filled := fun _ _ _ _ _ _ => trivial
    awake := by
      rw [hinjector, hfills.thread]
      exact h.awake }

/-- A key is put on the stack and noted, and the wiring `Stands` as before. -/
theorem pushed (h : w.Stands l opened) (stack : ResolveStack) (event : LogEvent) :
    ((w.switchTo w.thread stack).note event).Stands l opened :=
  ⟨(h.toHonours.switchTo w.thread stack).note event, h.awake⟩

end Stands

/-! ### Singletons at work -/

/-- The running thread waits for a singleton and takes its slot, and its delegate begins to work. -/
def begun (w : World ρ σ π) (id : InjectorId) (slot : SlotId) (key : Key) : World ρ σ π :=
  let waits := (w.injector id).waits
  (w.setWaits id { waits with awaiting := waits.awaiting.insert w.thread key }).beginning id slot key key.type

theorem Stands.injectors_begun (h : w.Stands l opened) (slot : SlotId) (key : Key) :
    (w.begun l.id slot key).injectors =
      (w.setWaits l.id { (w.injector l.id).waits with
        producing := (w.injector l.id).waits.producing.insert key w.thread }).injectors := by
  rw [← WaitGraph.startProducing_await h.awake]
  exact injectors_setWaits_of_eq h.represents.known (World.setSlot _ slot .busy) rfl
    (·.startProducing w.thread key)

theorem Stands.begun (h : w.Stands l opened) (hview : l.view key = some r)
    (hscope : r.scope = .singleton) : (w.begun l.id (l.slots key) key).Stands l (opened ++ [key]) := by
  have hwaiting := h.toHonours.of_worksOn (h.toWorksOn.setWaits { (w.injector l.id).waits with
    awaiting := (w.injector l.id).waits.awaiting.insert w.thread key } h.producing)
  have hinjector : (w.begun l.id (l.slots key) key).injector l.id = { w.injector l.id with
      waits := { (w.injector l.id).waits with
        producing := (w.injector l.id).waits.producing.insert key w.thread } } := by
    rw [World.injector, h.injectors_begun]
    exact h.represents.injector_setWaits _
  refine ⟨hwaiting.beginning hview hscope key.type, ?_⟩
  rw [hinjector]
  exact h.awake

/-- What was recorded for the work of a singleton by `begun` is gone when it is over, by
`givenBack`. -/
theorem Stands.injectors_givenBack (h : w.Stands l opened) (hidle : key ∉ opened) {slot : SlotId}
    (hmade : (w.begun l.id slot key).Fills may made) (outcome : Except Fault Ref) :
    (made.givenBack l.id slot key outcome).injectors = w.injectors := by
  have hstopped := injectors_setWaits_of_eq h.represents.known made
    (hmade.injectors.trans (h.injectors_begun slot key)) (·.stopProducing key)
  have hback := injectors_setWaits_of_eq h.represents.known
    ((made.stopProducing l.id key).setSlot slot (.keeping outcome)) hstopped (·.stopAwaiting w.thread key)
  rw [WaitGraph.stopAwaiting_stopProducing h.awake (h.unproduced hidle), injectors_setWaits_self] at hback
  have hthread : made.thread = w.thread := hmade.thread
  rw [← hback, ← hthread]
  rfl

/-- From before a singleton begins its work until it has given its slot back, that slot may have
been filled, and what its delegate may fill, from `begun` to `givenBack`. -/
theorem Stands.fills_givenBack (h : w.Stands l opened) (hview : l.view key = some r)
    (hscope : r.scope = .singleton) (hidle : key ∉ opened) (hempty : w.slot (l.slots key) = .empty)
    (hmay : may (l.slots key)) (hmade : (w.begun l.id (l.slots key) key).Fills may made)
    (outcome : Except Fault Ref) : w.Fills may (made.givenBack l.id (l.slots key) key outcome) := by
  have hplaces : made.slots.size = w.slots.size := hmade.places.trans Array.size_setIfInBounds
  refine ⟨h.injectors_givenBack hidle hmade outcome, hmade.rosters, hmade.catalogs,
    Array.size_setIfInBounds.trans hplaces, fun slot => ?_, hmade.thread, hmade.stack⟩
  show (made.setSlot (l.slots key) (.keeping outcome)).slot slot = w.slot slot ∨ _ ∧ _ ∧
    ∃ object, (made.setSlot (l.slots key) (.keeping outcome)).slot slot = .filled object
  by_cases hslot : l.slots key = slot
  · subst hslot
    have hallotted : (l.slots key).index < made.slots.size :=
      hplaces ▸ h.represents.allotted key r hview hscope
    rw [slot_setSlot_self made _ hallotted]
    cases outcome with
    | error _ => exact .inl hempty.symm
    | ok object => exact .inr ⟨hempty, hmay, object, rfl⟩
  · have hbegun : (w.begun l.id (l.slots key) key).slot slot = w.slot slot :=
      slot_setSlot_of_ne w .busy hslot
    rw [slot_setSlot_of_ne made _ hslot, ← hbegun]
    exact hmade.slot slot

end World

/-! ### Parts -/

/-- The part comes to an end by `Host.Ends`, and no slots but such have been filled. -/
def Host.Fills (host : Host ρ σ π) (may : SlotId → Prop)
    (part : ((request : Request ρ σ π) → Run ρ σ π request.Answer) → Run ρ σ π α) (w : World ρ σ π) :
    Prop :=
  host.Ends (fun _ => True) part w fun _ after => w.Fills may after

/-- Wherever the wiring `Stands`, with that stack, the request fills no slots but such. -/
def Host.FillsOn (host : Host ρ σ π) (l : Layout ρ σ π) (opened : List Key) (stack : ResolveStack)
    (may : SlotId → Prop) (request : Request ρ σ π) : Prop :=
  ∀ w : World ρ σ π, w.Stands l opened → w.stack = stack →
    host.Fills may (fun answer => answer request) w

variable {host : Host ρ σ π} {l : Layout ρ σ π} {w u after : World ρ σ π} {opened : List Key}
variable {stack : ResolveStack} {may : SlotId → Prop} {key : Key} {r : Registration ρ}
variable {part : ((request : Request ρ σ π) → Run ρ σ π request.Answer) → Run ρ σ π α}

theorem Host.Yields.fills {a : α} (h : host.Yields part w a after) (hfills : w.Fills may after) :
    host.Fills may part w := by
  obtain ⟨enough, h⟩ := h
  exact ⟨enough, a, after, hfills, fun fuel hfuel => ⟨h fuel hfuel, fun _ _ => trivial⟩⟩

/-- What a part fills after others is filled by all of them, since `Fills` is transitive. -/
theorem World.Fills.then (h : w.Fills may u) (hpart : host.Fills may part u) :
    host.Ends (fun _ => True) part u fun _ after => w.Fills may after :=
  hpart.mono fun _ _ hafter => h.trans hafter

theorem complete_fills {id : InjectorId} (hhooks : ∀ type, (w.injector id).hooksOf type = [])
    {stage : Stage ρ} (hstage : host.Detached id stage) (object : Ref) :
    host.Fills may (fun answer => Engine.complete host answer id stage object) w := by
  cases stage with
  | routine routine =>
    obtain ⟨outcome, after, hyields, hfills⟩ := hstage w object
    exact Host.Yields.fills hyields (hfills.mono fun _ hnone => hnone.elim)
  | memberInjection type =>
    have hinject : host.Yields (fun answer => answer (.injectMembers id type object)) w (.ok ()) w :=
      yields_injectMembers hhooks type object
    have hcomplete : host.Yields
        (fun answer => Engine.complete host answer id (.memberInjection type) object) w (.ok object) w :=
      .bind hinject (.pure _ w)
    exact hcomplete.fills (.refl w may)

/-- Where the wiring has come to by `Fills`, the request fills what it may. -/
theorem World.Fills.requests {request : Request ρ σ π} (hu : w.Fills may u)
    (h : host.FillsOn l opened stack may request) (hw : w.Stands l opened) (hstack : w.stack = stack) :
    host.Ends (fun _ => True) (fun answer => answer request) u fun _ after => w.Fills may after :=
  hu.then (h u (hw.of_fills hu) (hu.stack.trans hstack))

theorem list_fills {roster : RosterId}
    (hentries : ∀ entry ∈ (l.base.roster roster).entries,
      host.FillsOn l opened stack may (.produce l.id entry.provider)) :
    host.FillsOn l opened stack may (.produce l.id (.list roster)) := by
  intro w hw hstack
  refine .of_step (fun _ _ => rfl) (.assembleList (fun _ _ => trivial)
    (fun v event hv => hv.trans (.note v may event)) (fun v content hv => hv.trans (.allocate v may content))
    (.refl w may) fun entry hentry u hu => ?_)
  rw [hw.roster_eq] at hentry
  exact hu.requests (hentries entry hentry) hw hstack

theorem map_fills {catalog : CatalogId}
    (hrows : ∀ row ∈ (l.base.catalog catalog).entries.rows,
      host.FillsOn l opened stack may (.produce l.id row.2)) :
    host.FillsOn l opened stack may (.produce l.id (.map catalog)) := by
  intro w hw hstack
  refine .of_step (fun _ _ => rfl) (.assembleMap (fun _ _ => trivial)
    (fun v content hv => hv.trans (.allocate v may content)) (.refl w may) fun row hrow u hu => ?_)
  rw [hw.catalog_eq] at hrow
  exact hu.requests (hrows row hrow) hw hstack

/-- An `Inert` provider fills what may be filled, if the keys that it asks for do. Induction on the
rules of `Inert`. -/
theorem produce_fills {provider : Provider ρ} (hinert : provider.Inert host l.base l.id)
    (hkeys : ∀ key, provider.Contains l.base (.lookup key) →
      host.FillsOn l opened stack may (.resolve l.id key)) :
    host.FillsOn l opened stack may (.produce l.id provider) := by
  induction hinert with
  | fixed object => exact fun w _ _ => .of_step (fun _ _ => rfl) (.pure (.refl w may))
  | lookup key => exact fun w hw hstack => .of_step (fun _ _ => rfl) (hkeys key (.self _) w hw hstack)
  | decorating _ hstages ih =>
    intro w hw hstack
    have hdelegate := ih (fun key hcontains => hkeys key (.delegate hcontains)) w hw hstack
    refine .of_step (fun _ _ => rfl) (.bind hdelegate fun outcome between hbetween => ?_)
    cases outcome with
    | error _ => exact .pure hbetween
    | ok object =>
      refine .through hbetween fun stage hstage object u hu => ?_
      exact hu.then (complete_fills (hw.of_fills hu).hooks (hstages stage hstage) object)
  | list _ ih =>
    exact list_fills fun entry hentry => ih entry hentry fun key hcontains =>
      hkeys key (.entry hentry hcontains)
  | map _ ih =>
    exact map_fills fun row hrow => ih row hrow fun key hcontains => hkeys key (.row hrow hcontains)

/-! ### Keys -/

/-- The effective provider of a key fills what its tree does, and the slot of the key if that is a
singleton, by `Stands.fills_givenBack`. -/
theorem effective_fills (hview : l.view key = some r) (hidle : key ∉ opened)
    (hmay : r.scope = .singleton → may (l.slots key))
    (hproduce : ∀ more, (∀ other ∈ more, other ∈ opened ++ [key]) →
      host.FillsOn l more stack may (.produce l.id r.provider)) :
    host.FillsOn l opened stack may
      (.produce l.id (Registration.wrapped r.scope (l.slots key) key r.provider)) := by
  cases hscope : r.scope with
  | noScope => exact hproduce opened fun other hother => List.mem_append_left _ hother
  | singleton =>
    intro w hw hstack
    cases hslot : w.slot (l.slots key) with
    | filled object => exact Host.Yields.fills (.produce (.single_of_filled hslot)) (.refl w may)
    | busy => exact absurd (hw.busy key r hview hscope hslot) hidle
    | empty =>
      -- the delegate works where the slot is taken, and its part of the frame is seen from there
      have hawait := World.awaitKey_of_unproduced (hw.unproduced hidle)
      obtain ⟨⟨outcome, made, hyields, hmade⟩, -⟩ :=
        (hproduce _ (fun _ hother => hother) _ (hw.begun hview hscope) hstack).yields
      exact Host.Yields.fills (.produce (.single_of_empty hslot hawait hslot hyields))
        (hw.fills_givenBack hview hscope hidle hslot (hmay hscope) hmade outcome)

variable {bound : List Key} {room : Nat} {base above : ResolveStack} {root : Key}

/-- Resolving a key that the root `Reaches` fills slots of singletons that the root reaches. The
induction is on the room that the stack leaves for bound keys above the first ones. -/
theorem resolve_fills
    (hinert : ∀ key r, l.base.Reaches l.view root key → l.view key = some r →
      r.provider.Inert host l.base l.id)
    (hbound : ∀ key r, l.view key = some r → key ∈ bound) (hfits : ResolveStack.Fits bound room above)
    (hopened : ∀ other ∈ opened, other ∈ base ++ above) (hreach : l.base.Reaches l.view root key) :
    host.FillsOn l opened (base ++ above) (l.base.Caches l.view l.slots root) (.resolve l.id key) := by
  induction room using Nat.strong_induction_on generalizing above opened key with
  | _ room ih =>
    intro w hw hstack
    by_cases hkey : key ∈ w.stack
    -- so a singleton at work is not asked for again
    · exact Host.Yields.fills (.resolve_of_refused (World.pushKey_of_mem rfl hkey)) (.note w _ _)
    · have hpush := World.pushKey_of_not_mem rfl hkey
      have hpushed := hw.pushed (w.stack ++ [key]) (.resolving key)
      cases hview : l.view key with
      | none =>
        have hprovider := hpushed.represents.providerOf_of_unbound hview
        exact Host.Yields.fills (.resolve_of_unbound hpush hprovider)
          (World.Fills.popKey (.note _ _ _))
      | some r =>
        have hprovider := hpushed.represents.providerOf_of_view hview
        rw [hstack] at hkey
        have hfresh : key ∉ above := fun hmem => hkey (List.mem_append_right _ hmem)
        obtain ⟨less, rfl, hmore⟩ := hfits.push (hbound key r hview) hfresh
        have hidle : key ∉ opened := fun hmem => hkey (hopened key hmem)
        -- what the tree looks up, the root reaches by way of the key
        have hdeeper (next : Key) (hcontains : r.provider.Contains l.base (.lookup next)) (more : List Key)
            (hsub : ∀ other ∈ more, other ∈ opened ++ [key]) :
            host.FillsOn l more (base ++ (above ++ [key])) (l.base.Caches l.view l.slots root)
              (.resolve l.id next) := by
          refine ih less (Nat.lt_succ_self less) hmore (fun other hother => ?_)
            (hreach.tail ⟨r, hview, hcontains⟩)
          rw [← List.append_assoc]
          exact List.mem_append.2 ((List.mem_append.1 (hsub other hother)).imp_left (hopened other))
        have heffective := effective_fills hview hidle (fun hscope => ⟨key, r, hreach, hview, hscope, rfl⟩)
          fun more hsub => produce_fills (hinert key r hreach hview) fun next hcontains =>
            hdeeper next hcontains more hsub
        have hstacked : (w.switchTo w.thread (w.stack ++ [key])).stack = base ++ (above ++ [key]) := by
          rw [← List.append_assoc, ← hstack]
          rfl
        obtain ⟨⟨outcome, made, hyields, hmade⟩, -⟩ := (heffective _ hpushed hstacked).yields
        exact Host.Yields.fills (.resolve_of_bound hpush hprovider hyields) (World.Fills.popKey hmade)

variable {id : InjectorId} {view : RegistryView ρ} {slots : Key → SlotId}

/-- In wiring without hooks whose stages leave it alone (`Provider.Inert`), resolving a key comes to
an end, and nothing of the wiring has changed but slots of singletons that the key reaches, which
were empty and are filled now. What has been kept before is kept still. The key may be resolved in
the middle of others, as long as all singletons at work are on the stack. -/
theorem resolution_fills (hworks : w.WorksOn id view slots w.stack)
    (hawake : (w.injector id).waits.awaiting.get? w.thread = none)
    (hhooks : ∀ type, (w.injector id).hooksOf type = [])
    (hinert : ∀ other r, w.Reaches view key other → view other = some r → r.provider.Inert host w id) :
    ∃ outcome after, host.Yields (fun answer => answer (.resolve id key)) w outcome after ∧
      w.Fills (w.Caches view slots key) after ∧
        ∀ slot object, w.slot slot = .filled object → after.slot slot = .filled object := by
  let l : Layout ρ σ π := ⟨w, id, view, slots⟩
  have hfits : ResolveStack.Fits (w.injector id).bindings.keys (w.injector id).bindings.keys.length [] :=
    ⟨List.nodup_nil, nofun, Nat.le_of_eq (Nat.zero_add _).symm⟩
  have hstands : w.Stands l w.stack := ⟨⟨hworks, hhooks, trivial, rfl, rfl, fun _ _ _ _ _ _ => trivial⟩, hawake⟩
  have hfills : host.FillsOn l w.stack (w.stack ++ []) (w.Caches view slots key) (.resolve id key) :=
    resolve_fills (l := l) hinert (fun _ _ => hworks.represents.mem_keys) hfits
      (fun other hother => List.mem_append_left _ hother) .refl
  obtain ⟨⟨outcome, after, hyields, hafter⟩, -⟩ := (hfills w hstands (List.append_nil _).symm).yields
  exact ⟨outcome, after, hyields, hafter, fun _ _ => hafter.slot_of_filled⟩

/-! ### Cups -/

def cup (number : Nat) : Key := .ofObject (.plain "Cup") number

def cups : Key := ⟨.list (.plain "Cup"), none⟩

def cupMap : Key := ⟨.map (.plain "Cup"), none⟩

/-- One of its stages gives a new cup, and the other breaks what it is given. -/
def cupHost : Host Bool Unit Unit where
  make _ _ := pure (.ok default)
  stage glazes _ _ := .ask (.act (.allocate (.plain ()))) fun next =>
    pure (if glazes then .ok next else .error (.custom .providerFailed "broken"))
  hook _ _ _ := pure (.ok ())
  kind _ := default
  imports _ := []
  configure _ _ := pure (.ok ())

/-- The second cup is made of the first by a stage of `cupHost`, and so is the third, which breaks.
The fourth is the list, and the fifth is bound apart. -/
def cupTable : World Bool Unit Unit × RegistryView Bool :=
  World.registerAll ⟨0⟩
    [.bindInstance (cup 1) (.plain ()),
      .bindProvider (cup 2) (.decorating (.lookup (cup 1)) [.routine true]) .singleton,
      .bindProvider (cup 3) (.decorating (.lookup (cup 2)) [.memberInjection (.plain "Cup"), .routine false])
        .singleton,
      .bindProvider (cup 4) (.lookup cups) .singleton, .bindProvider (cup 5) (.lookup (cup 1)) .singleton,
      .listBuilder cups, .mapBuilder cupMap]
    ({ injectors := #[{}], stack := [cup 6], memory := () }, fun _ => none)

/-- The fifth cup of `cupTable` is there already. The list has the second, the third and the fifth,
the map has the fourth, and the sixth is being resolved. -/
def cupWorld : World Bool Unit Unit :=
  let w := cupTable.1.setSlot ⟨3⟩ (.filled ⟨0⟩)
  let w := w.enrol ⟨0⟩ (cup 12) (.lookup (cup 2))
  let w := w.enrol ⟨0⟩ (cup 13) (.lookup (cup 3))
  let w := w.enrol ⟨0⟩ (cup 15) (.lookup (cup 5))
  w.putEntry ⟨0⟩ "all" (.lookup (cup 4))

theorem cupTable_cases {key : Key} {r : Registration Bool} (h : cupTable.2 key = some r) :
    key ∈ [cup 1, cup 2, cup 3, cup 4, cup 5, cups, cupMap] := by
  by_contra hmem
  simp only [List.mem_cons, List.not_mem_nil, or_false, not_or] at hmem
  obtain ⟨h1, h2, h3, h4, h5, hlist, hmap⟩ := hmem
  simp [cupTable, World.registerAll, RegistryCall.after, h1, h2, h3, h4, h5, hlist, hmap] at h

theorem cupWorld_worksOn : ∃ slots, cupWorld.WorksOn ⟨0⟩ cupTable.2 slots cupWorld.stack := by
  have hstart : World.RegistryHistory ⟨0⟩
      ({ injectors := #[{}], stack := [cup 6], memory := () } : World Bool Unit Unit) fun _ => none :=
    .start _ Nat.zero_lt_one rfl
  have hcups : World.RegistryHistory ⟨0⟩ cupWorld cupTable.2 :=
    (hstart.registerAll _).meanwhile (by decide) rfl (Nat.le_refl _)
  obtain ⟨slots, hrep⟩ := hcups.represents
  have hslots : cupWorld.slots = #[.empty, .empty, .empty, .filled ⟨0⟩] := rfl
  have hidle (slot : SlotId) : cupWorld.slot slot ≠ .busy := by
    rw [World.slot, hslots]
    cases hcontent : (#[.empty, .empty, .empty, .filled ⟨0⟩] : Array Slot)[slot.index]? with
    | none => decide
    | some content =>
      have hnone : ∀ content ∈ (#[.empty, .empty, .empty, .filled ⟨0⟩] : Array Slot), content ≠ .busy := by
        decide
      exact hnone content (Array.mem_of_getElem? hcontent)
  refine ⟨slots, hrep, fun key thread hproducing => ?_, fun _ _ _ _ hbusy => absurd hbusy (hidle _)⟩
  cases hproducing

theorem cupHost_detached (glazes : Bool) : cupHost.Detached ⟨0⟩ (.routine glazes) :=
  fun w _ => ⟨_, _, .of_performs (.act (.done _ _)), .allocate w _ (.plain ())⟩

theorem cupTable_inert (key : Key) (r : Registration Bool) (h : cupTable.2 key = some r) :
    r.provider.Inert cupHost cupWorld ⟨0⟩ := by
  have hkey := cupTable_cases h
  simp only [List.mem_cons, List.not_mem_nil, or_false] at hkey
  rcases hkey with rfl | rfl | rfl | rfl | rfl | rfl | rfl
  · cases (show some _ = some r from h)
    exact .fixed _
  · cases (show some _ = some r from h)
    refine .decorating (.lookup _) fun stage hstage => ?_
    obtain rfl := List.mem_singleton.1 hstage
    exact cupHost_detached true
  · cases (show some _ = some r from h)
    refine .decorating (.lookup _) fun stage hstage => ?_
    rcases hstage with _ | ⟨_, _ | ⟨_, hstage⟩⟩
    · trivial
    · exact cupHost_detached false
    · cases hstage
  · cases (show some _ = some r from h)
    exact .lookup _
  · cases (show some _ = some r from h)
    exact .lookup _
  · cases (show some _ = some r from h)
    refine .list fun entry hentry => ?_
    rcases hentry with _ | ⟨_, _ | ⟨_, _ | ⟨_, hentry⟩⟩⟩
    · exact .lookup _
    · exact .lookup _
    · exact .lookup _
    · cases hentry
  · cases (show some _ = some r from h)
    refine .map fun row hrow => ?_
    rcases hrow with _ | ⟨_, hrow⟩
    · exact .lookup _
    · cases hrow

/-- The third cup breaks, and with it the list and the map, so resolving `cupMap` fails. -/
theorem resolution_fills_of_broken :
    ∃ slots, cupWorld.WorksOn ⟨0⟩ cupTable.2 slots cupWorld.stack ∧
      (cupWorld.injector ⟨0⟩).waits.awaiting.get? cupWorld.thread = none ∧
      (∀ type, (cupWorld.injector ⟨0⟩).hooksOf type = []) ∧
      (∀ other r, cupWorld.Reaches cupTable.2 cupMap other → cupTable.2 other = some r →
        r.provider.Inert cupHost cupWorld ⟨0⟩) ∧
      ∃ outcome after, cupHost.Yields (fun answer => answer (.resolve ⟨0⟩ cupMap)) cupWorld outcome after ∧
        cupWorld.Fills (cupWorld.Caches cupTable.2 slots cupMap) after ∧
          ∀ slot object, cupWorld.slot slot = .filled object → after.slot slot = .filled object := by
  obtain ⟨slots, hworks⟩ := cupWorld_worksOn
  have hinert : ∀ other r, cupWorld.Reaches cupTable.2 cupMap other → cupTable.2 other = some r →
      r.provider.Inert cupHost cupWorld ⟨0⟩ := fun other r _ => cupTable_inert other r
  exact ⟨slots, hworks, rfl, fun _ => rfl, hinert, resolution_fills hworks rfl (fun _ => rfl) hinert⟩

/-- The second cup has been made on the way, and the fifth has stayed. -/
example : ((cupHost.answer 20 (.resolve ⟨0⟩ cupMap)).run cupWorld).toOption.map
    (fun (outcome, after) => (outcome, after.slots)) =
      some (.error (.custom .providerFailed "broken"), #[.filled ⟨1⟩, .empty, .empty, .filled ⟨0⟩]) := by cbv

end Wiring
