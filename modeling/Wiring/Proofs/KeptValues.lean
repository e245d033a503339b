import Wiring.Proofs.WorkingSingletons
import Wiring.Proofs.Yields

/-!
# What singletons have kept

While a thread resolves keys on its own, `World.WorksOn` says which singletons are at work. What the
others have kept depends on the wiring: in one development it is the value that a key unwinds to, in
another just an object. So what may be kept is a parameter, `Terms`, with the two laws that are needed of
it, and `World.Honours` adds to `WorksOn` that there are no hooks, that the collections are those of the
world before, and that a filled slot holds what the terms allow. Each change that resolving makes keeps
it: `Honours.beginning` and `Honours.givenBack` are the two ends of a singleton's work, and
`Honours.of_kept` is for all that leaves the wiring alone.
-/

namespace Wiring

variable {ρ σ π : Type}

/-- Where keys are resolved: the world before anything is, an injector, and the bindings and slots that
`World.Represents` reads off it. -/
structure Layout (ρ σ π : Type) where
  base : World ρ σ π
  id : InjectorId
  view : RegistryView ρ
  slots : Key → SlotId

/-- What a singleton may keep (`Suits`), and how objects may change without making that wrong
(`Later`). -/
structure Terms (ρ σ π : Type) where
  Later : World ρ σ π → World ρ σ π → Prop
  Suits : World ρ σ π → Key → Ref → Prop
  of_objects : ∀ {w after : World ρ σ π}, after.objects = w.objects → Later w after
  trans : ∀ {w between after : World ρ σ π}, Later w between → Later between after → Later w after
  mono : ∀ {w after : World ρ σ π} {key : Key} {object : Ref}, Later w after → Suits w key object →
    Suits after key object

/-- The terms that allow everything, for a development to which it is all one what singletons keep. -/
def Terms.free : Terms ρ σ π where
  Later _ _ := True
  Suits _ _ _ := True
  of_objects _ := trivial
  trans _ _ := trivial
  mono _ _ := trivial

/-- A slot that is given back is free: `Slot.keeping` fills it or empties it. -/
theorem Slot.keeping_ne_busy (outcome : Except Fault Ref) : Slot.keeping outcome ≠ .busy := by
  cases outcome with
  | ok _ => exact nofun
  | error _ => exact nofun

namespace World

/-- What is known while keys are resolved: only the singletons of `opened` are at work, and a singleton
has kept only what `terms.Suits` allows. -/
structure Honours (w : World ρ σ π) (l : Layout ρ σ π) (terms : Terms ρ σ π) (opened : List Key) : Prop
    extends w.WorksOn l.id l.view l.slots opened where
  hooks : ∀ type, (w.injector l.id).hooksOf type = []
  objects : terms.Later l.base w
  rosters : w.rosters = l.base.rosters
  catalogs : w.catalogs = l.base.catalogs
  filled : ∀ key r, l.view key = some r → r.scope = .singleton → ∀ object,
    w.slot (l.slots key) = .filled object → terms.Suits w key object

variable {w made after : World ρ σ π} {l : Layout ρ σ π} {terms : Terms ρ σ π} {opened : List Key}
variable {key : Key} {r : Registration ρ}

/-- Before anything is resolved all slots are empty, so whatever the terms are, they are honoured. -/
theorem Ready.honours (h : w.Ready l.id l.view l.slots) (hbase : l.base = w) : w.Honours l terms [] := by
  subst hbase
  refine ⟨h.worksOn, h.hooks, terms.of_objects rfl, rfl, rfl, ?filled⟩
  case filled =>
    intro key r hview hscope object hfilled
    rw [h.empty key r hview hscope] at hfilled
    cases hfilled

namespace Honours

/-- The terms are honoured as long as injectors, slots and collections stay and the objects change as
`terms.Later` allows, whatever becomes of the stack, the thread and the log. -/
theorem of_kept (h : w.Honours l terms opened) (hlater : terms.Later w after)
    (hinjectors : after.injectors = w.injectors) (hslots : after.slots = w.slots)
    (hrosters : after.rosters = w.rosters) (hcatalogs : after.catalogs = w.catalogs) :
    after.Honours l terms opened := by
  refine ⟨h.toWorksOn.of_kept hinjectors hslots, ?hooks, terms.trans h.objects hlater,
    hrosters.trans h.rosters, hcatalogs.trans h.catalogs, ?filled⟩
  case hooks =>
    rw [World.injector, hinjectors]
    exact h.hooks
  case filled =>
    intro key r hview hscope object hobject
    rw [World.slot, hslots] at hobject
    exact terms.mono hlater (h.filled key r hview hscope object hobject)

theorem note (h : w.Honours l terms opened) (event : LogEvent) : (w.note event).Honours l terms opened :=
  h.of_kept (terms.of_objects rfl) rfl rfl rfl rfl

theorem switchTo (h : w.Honours l terms opened) (thread : ThreadId) (stack : ResolveStack) :
    (w.switchTo thread stack).Honours l terms opened :=
  h.of_kept (terms.of_objects rfl) rfl rfl rfl rfl

theorem roster_eq (h : w.Honours l terms opened) (roster : RosterId) :
    w.roster roster = l.base.roster roster := by
  rw [World.roster, h.rosters]
  rfl

theorem catalog_eq (h : w.Honours l terms opened) (catalog : CatalogId) :
    w.catalog catalog = l.base.catalog catalog := by
  rw [World.catalog, h.catalogs]
  rfl

theorem mono {more : List Key} (h : w.Honours l terms opened) (hmore : ∀ key ∈ opened, key ∈ more) :
    w.Honours l terms more :=
  { h with toWorksOn := h.toWorksOn.mono hmore }

/-- Where only the waits change, `WorksOn` is all that has to be seen to. -/
theorem of_worksOn (h : w.Honours l terms opened) {graph : WaitGraph} {more : List Key}
    (hworks : (w.setWaits l.id graph).WorksOn l.id l.view l.slots more) :
    (w.setWaits l.id graph).Honours l terms more := by
  have hlater : terms.Later w (w.setWaits l.id graph) := terms.of_objects rfl
  refine ⟨hworks, ?hooks, terms.trans h.objects hlater, h.rosters, h.catalogs, ?filled⟩
  case hooks =>
    rw [h.represents.injector_setWaits]
    exact h.hooks
  case filled =>
    exact fun key r hview hscope object hobject =>
      terms.mono hlater (h.filled key r hview hscope object hobject)

/-- A key that is not at work can be waited for, as `WorksOn.awaitKey` says. -/
theorem awaitKey (h : w.Honours l terms opened) (hkey : key ∉ opened) :
    ∃ graph, w.awaitKey l.id key = (.ok (), w.setWaits l.id graph) ∧
      (w.setWaits l.id graph).Honours l terms opened := by
  obtain ⟨graph, hawait, hworks⟩ := h.toWorksOn.awaitKey hkey
  exact ⟨graph, hawait, h.of_worksOn hworks⟩

theorem setSlot (h : w.Honours l terms opened) (hview : l.view key = some r)
    (hscope : r.scope = .singleton) (slot : Slot) (hbusy : slot = .busy → key ∈ opened)
    (hfilled : ∀ object, slot = .filled object → terms.Suits w key object) :
    (w.setSlot (l.slots key) slot).Honours l terms opened := by
  have hlater : terms.Later w (w.setSlot (l.slots key) slot) := terms.of_objects rfl
  refine ⟨h.toWorksOn.setSlot hview hscope slot hbusy, h.hooks, terms.trans h.objects hlater, h.rosters,
    h.catalogs, ?filled⟩
  case filled =>
    intro other t ht hsc object hobject
    refine terms.mono hlater ?_
    by_cases hne : other = key
    · subst hne
      rw [h.slot_setSlot hview hscope slot] at hobject
      exact hfilled object hobject
    · rw [h.slot_setSlot_of_other hview hscope slot ht hsc hne] at hobject
      exact h.filled other t ht hsc object hobject

/-- The delegate of a singleton is asked to produce, in the world of `World.beginning`, and the key is at
work from then on. -/
theorem beginning (h : w.Honours l terms opened) (hview : l.view key = some r)
    (hscope : r.scope = .singleton) (type : ValueType) :
    (w.beginning l.id (l.slots key) key type).Honours l terms (opened ++ [key]) := by
  have hmem : key ∈ opened ++ [key] := List.mem_append_right _ (.head _)
  have htaken := (h.mono fun _ hold => List.mem_append_left _ hold).setSlot hview hscope .busy
    (fun _ => hmem) fun _ hfilled => nomatch hfilled
  have hstarted := htaken.of_worksOn (htaken.toWorksOn.startProducing hmem)
  exact hstarted.note _

/-- When its work is over, as `World.givenBack` has it, the singleton keeps what the terms allow, or
nothing after a fault, and its key is not at work any more. -/
theorem givenBack (h : made.Honours l terms (opened ++ [key])) (hview : l.view key = some r)
    (hscope : r.scope = .singleton) {outcome : Except Fault Ref}
    (hsuits : ∀ object, outcome = .ok object → terms.Suits made key object) :
    (made.givenBack l.id (l.slots key) key outcome).Honours l terms opened := by
  have hfree := Slot.keeping_ne_busy outcome
  have hstopped : (made.stopProducing l.id key).Honours l terms (opened ++ [key]) :=
    h.of_worksOn (h.toWorksOn.stopProducing key)
  have hlater : terms.Later made (made.stopProducing l.id key) := terms.of_objects rfl
  have hkept (object : Ref) (hobject : Slot.keeping outcome = .filled object) :
      terms.Suits (made.stopProducing l.id key) key object := by
    cases outcome with
    | error _ => cases hobject
    | ok _ =>
      cases hobject
      exact terms.mono hlater (hsuits _ rfl)
  have hset := hstopped.setSlot hview hscope _ (fun hbusy => absurd hbusy hfree) hkept
  have hback : ((made.stopProducing l.id key).setSlot (l.slots key) (.keeping outcome)).Honours l terms
      opened := { hset with toWorksOn := h.toWorksOn.giveBack hview hscope hfree }
  exact hback.of_worksOn (hback.toWorksOn.stopAwaiting key)

end Honours

end World

end Wiring
