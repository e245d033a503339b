import Wiring.Proofs.Passage
import Wiring.Proofs.WorkingSingletons

/-!
# Declared wiring that may change

What is bound in an injector is declared if it is made from instances, lookups, decorations,
singletons, lists and maps. Lists, maps and singletons share places of the world, and what lies
there may change, by stages too. So what is known of the places is kept apart (`Places`), as are the
places of a heap in the typing of a store: the element type of a list or map, and the key under
which the production of a singleton is recorded. A provider is declared as one of a type with
respect to the places (`Provider.DeclaredAs`), and the world follows if all that lies in the known
places is declared in turn (`World.Follows`).

A list lies in a place of a type above those of its entries. That is why no list is an entry of
itself, whatever is added to it, unless a lookup stands in between.

* **`World.Upholds`** — what every operation does: the places that were known stay so, and others
  may have come (`Places.Within`).
* **`Follows.take`** and **`Follows.giveBack`** — a singleton at work is recorded, and is not any
  more.
* **`Follows.of_awaitKey`** — a thread is let wait only where it does not produce the key itself.
-/

namespace Wiring

variable {ρ σ π : Type}

/-! ### Providers -/

/-- What declared wiring is made from: the keys that are ever `bound`, and the routines that may be
`stages` and `hooks`. -/
structure Blueprint (ρ : Type) where
  bound : List Key
  stages : ρ → Prop
  hooks : ρ → Prop

/-- The stage is one of the `Blueprint`; a stage for member hooks always is. -/
def Blueprint.Has (b : Blueprint ρ) : Stage ρ → Prop
  | .memberInjection _ => True
  | .routine routine => b.stages routine

/-- What is known of the places that providers share, of each kind of place by its number. -/
structure Places where
  /-- The type of the entries of a list, if the list is a known place. -/
  rosters : RosterId → Option ValueType
  /-- The type of the entries of a map, if the map is a known place. -/
  catalogs : CatalogId → Option ValueType
  /-- The key under which the production of a singleton is recorded, if its slot is known. -/
  slots : SlotId → Option Key

namespace Places

variable {p q r : Places}

/-- All that was known in `p` is known still in `q`. -/
structure Within (p q : Places) : Prop where
  rosters : ∀ roster type, p.rosters roster = some type → q.rosters roster = some type
  catalogs : ∀ catalog type, p.catalogs catalog = some type → q.catalogs catalog = some type
  slots : ∀ slot key, p.slots slot = some key → q.slots slot = some key

theorem Within.refl (p : Places) : p.Within p :=
  ⟨fun _ _ h => h, fun _ _ h => h, fun _ _ h => h⟩

theorem Within.trans (h : p.Within q) (h' : q.Within r) : p.Within r where
  rosters := fun roster type hp => h'.rosters roster type (h.rosters roster type hp)
  catalogs := fun catalog type hp => h'.catalogs catalog type (h.catalogs catalog type hp)
  slots := fun slot key hp => h'.slots slot key (h.slots slot key hp)

/-- One more singleton is known, by its slot and its key. -/
def withSlot (p : Places) (slot : SlotId) (key : Key) : Places :=
  { p with slots := fun other => if other = slot then some key else p.slots other }

theorem within_withSlot {slot : SlotId} (h : p.slots slot = none) (key : Key) :
    p.Within (p.withSlot slot key) := by
  refine ⟨fun _ _ h => h, fun _ _ h => h, fun other name hother => ?_⟩
  have hne : other ≠ slot := by
    rintro rfl
    rw [h] at hother
    cases hother
  exact (if_neg hne).trans hother

end Places

/-- The provider is one of the type, made from nothing but instances, lookups, decorations by the
stages of the `Blueprint`, singletons, lists and maps in known `Places`. -/
inductive Provider.DeclaredAs (b : Blueprint ρ) (p : Places) : ValueType → Provider ρ → Prop
  | fixed (type : ValueType) (object : Ref) : DeclaredAs b p type (.fixed object)
  | lookup (type : ValueType) (key : Key) : DeclaredAs b p type (.lookup key)
  | decorating {type : ValueType} {delegate : Provider ρ} {stages : List (Stage ρ)}
      (hdelegate : DeclaredAs b p type delegate) (hstages : ∀ stage ∈ stages, b.Has stage) :
      DeclaredAs b p type (.decorating delegate stages)
  | singleton {slot : SlotId} {key : Key} {type : ValueType} {delegate : Provider ρ}
      (hslot : p.slots slot = some key) (hdelegate : DeclaredAs b p type delegate) :
      DeclaredAs b p type (.singleton slot key type delegate)
  | list {roster : RosterId} {element : ValueType} (hroster : p.rosters roster = some element) :
      DeclaredAs b p (.list element) (.list roster)
  | map {catalog : CatalogId} {element : ValueType} (hcatalog : p.catalogs catalog = some element) :
      DeclaredAs b p (.map element) (.map catalog)

theorem Provider.DeclaredAs.mono {b : Blueprint ρ} {p q : Places} {type : ValueType}
    {provider : Provider ρ} (h : provider.DeclaredAs b p type) (hwithin : p.Within q) :
    provider.DeclaredAs b q type := by
  induction h with
  | fixed type object => exact .fixed type object
  | lookup type key => exact .lookup type key
  | decorating _ hstages ih => exact .decorating ih hstages
  | singleton hslot _ ih => exact .singleton (hwithin.slots _ _ hslot) ih
  | list hroster => exact .list (hwithin.rosters _ _ hroster)
  | map hcatalog => exact .map (hwithin.catalogs _ _ hcatalog)

/-- All providers of the binding are declared by `Provider.DeclaredAs`, its `base` and what it has
been `decorated` to. -/
structure Binding.DeclaredAs (b : Blueprint ρ) (p : Places) (type : ValueType) (binding : Binding ρ) :
    Prop where
  base : binding.base.DeclaredAs b p type
  decorated : binding.decorated.DeclaredAs b p type
  effective : binding.effective.DeclaredAs b p type

theorem Binding.DeclaredAs.mono {b : Blueprint ρ} {p q : Places} {type : ValueType}
    {binding : Binding ρ} (h : binding.DeclaredAs b p type) (hwithin : p.Within q) :
    binding.DeclaredAs b q type :=
  ⟨h.base.mono hwithin, h.decorated.mono hwithin, h.effective.mono hwithin⟩

/-! ### Worlds -/

namespace World

/-- What is bound in the injector and what lies in the known `Places` is declared. A singleton whose
delegate is at work is recorded with this injector, and for the thread that runs. -/
structure Follows (w : World ρ σ π) (b : Blueprint ρ) (id : InjectorId) (p : Places) : Prop where
  known : id.index < w.injectors.size
  bound : ∀ key binding, (w.injector id).bindings.get? key = some binding →
    key ∈ b.bound ∧ binding.key = key ∧ binding.DeclaredAs b p key.type
  hooks : ∀ type, ∀ hook ∈ (w.injector id).hooksOf type, b.hooks hook
  rosters : ∀ roster element, p.rosters roster = some element →
    ∀ entry ∈ (w.roster roster).entries, entry.provider.DeclaredAs b p element
  catalogs : ∀ catalog element, p.catalogs catalog = some element →
    ∀ row ∈ (w.catalog catalog).entries.rows, row.2.DeclaredAs b p element
  allotted : ∀ slot key, p.slots slot = some key → slot.index < w.slots.size
  recorded : ∀ slot key, p.slots slot = some key → w.slot slot = .busy →
    (w.injector id).waits.producing.get? key = some w.thread

/-- From one world to another the wiring stays declared by `Follows`, the stack comes to be what it
was, and no singleton has been left at work. -/
structure Upholds (b : Blueprint ρ) (id : InjectorId) (w : World ρ σ π) (p : Places)
    (after : World ρ σ π) (q : Places) : Prop where
  follows : after.Follows b id q
  within : p.Within q
  stack : after.stack = w.stack
  busy : ∀ slot key, q.slots slot = some key → after.slot slot = .busy →
    p.slots slot = some key ∧ w.slot slot = .busy

variable {b : Blueprint ρ} {id : InjectorId} {w between after : World ρ σ π} {p q r : Places}
variable {slot : SlotId} {key : Key}

theorem Upholds.trans (h : Upholds b id w p between q) (h' : Upholds b id between q after r) :
    Upholds b id w p after r where
  follows := h'.follows
  within := h.within.trans h'.within
  stack := h'.stack.trans h.stack
  busy := fun slot key hslot hbusy =>
    have ⟨hbefore, hwas⟩ := h'.busy slot key hslot hbusy
    h.busy slot key hbefore hwas

/-- A new slot content is there by `World.slot`, if there is such a slot, and else nothing is. -/
theorem slot_setSlot_self_ne_busy {content : Slot} (hcontent : content ≠ .busy) :
    (w.setSlot slot content).slot slot ≠ .busy := by
  by_cases hslot : slot.index < w.slots.size
  · rwa [slot_setSlot_self w content hslot]
  · simp [World.setSlot, World.slot, hslot]

namespace Follows

/-- What `Follows` says is a matter of injectors, slots, rosters and catalogs, and of which thread
runs. -/
theorem of_eq (h : w.Follows b id p) (hinjectors : after.injectors = w.injectors)
    (hslots : after.slots = w.slots) (hrosters : after.rosters = w.rosters)
    (hcatalogs : after.catalogs = w.catalogs) (hthread : after.thread = w.thread) :
    after.Follows b id p := by
  have hinjector : after.injector id = w.injector id := by
    rw [World.injector, hinjectors]
    rfl
  refine ⟨?known, ?bound, ?hooks, ?rosters, ?catalogs, ?allotted, ?recorded⟩
  case known =>
    rw [hinjectors]
    exact h.known
  case bound =>
    rw [hinjector]
    exact h.bound
  case hooks =>
    rw [hinjector]
    exact h.hooks
  case rosters =>
    intro roster element hroster
    rw [World.roster, hrosters]
    exact h.rosters roster element hroster
  case catalogs =>
    intro catalog element hcatalog
    rw [World.catalog, hcatalogs]
    exact h.catalogs catalog element hcatalog
  case allotted =>
    rw [hslots]
    exact h.allotted
  case recorded =>
    intro slot key hslot hbusy
    rw [World.slot, hslots] at hbusy
    rw [hinjector, hthread]
    exact h.recorded slot key hslot hbusy

/-- The injector alone changes, by `World.modifyInjector`, to one whose bindings and hooks are
declared. -/
theorem modifyInjector (h : w.Follows b id p) (f : Injector ρ → Injector ρ)
    (hbound : ∀ key binding, (f (w.injector id)).bindings.get? key = some binding →
      key ∈ b.bound ∧ binding.key = key ∧ binding.DeclaredAs b p key.type)
    (hhooks : ∀ type, ∀ hook ∈ (f (w.injector id)).hooksOf type, b.hooks hook)
    (hrecorded : ∀ slot key, p.slots slot = some key → w.slot slot = .busy →
      (f (w.injector id)).waits.producing.get? key = some w.thread) :
    (w.modifyInjector id f).Follows b id p := by
  have hinjector : (w.modifyInjector id f).injector id = f (w.injector id) :=
    injector_modifyInjector_self w f h.known
  exact {
    known := by simpa [World.modifyInjector] using h.known
    bound := by rwa [hinjector]
    hooks := by rwa [hinjector]
    rosters := h.rosters
    catalogs := h.catalogs
    allotted := h.allotted
    recorded := by rwa [hinjector] }

theorem upholds (h : w.Follows b id p) : Upholds b id w p w p :=
  ⟨h, .refl p, rfl, fun _ _ hslot hbusy => ⟨hslot, hbusy⟩⟩

theorem note (h : w.Follows b id p) (event : LogEvent) : Upholds b id w p (w.note event) p :=
  ⟨h.of_eq rfl rfl rfl rfl rfl, .refl p, rfl, fun _ _ hslot hbusy => ⟨hslot, hbusy⟩⟩

theorem allocate (h : w.Follows b id p) (content : Content π) :
    Upholds b id w p (w.allocate content).2 p :=
  ⟨h.of_eq rfl rfl rfl rfl rfl, .refl p, rfl, fun _ _ hslot hbusy => ⟨hslot, hbusy⟩⟩

/-! ### Bindings -/

/-- Who asks for a key by `World.providerOf` is given a declared provider or a fault. -/
theorem providerOf (h : w.Follows b id p) (key : Key) :
    (∃ fault, w.providerOf id key = (.error fault, w.note (.fault fault))) ∨
      key ∈ b.bound ∧ ∃ provider, provider.DeclaredAs b p key.type ∧
        w.providerOf id key = (.ok provider, w) := by
  rw [World.providerOf]
  split
  case h_1 fault _ => exact .inl ⟨fault, rfl⟩
  case h_2 => exact .inl ⟨.unboundKey key, rfl⟩
  case h_3 binding hfind =>
    obtain ⟨hkey, -, hdeclared⟩ := h.bound key binding (Injector.get?_of_find hfind)
    exact .inr ⟨hkey, binding.effective, hdeclared.effective, rfl⟩

/-- A declared binding is stored by `World.setBinding`. -/
theorem setBinding (h : w.Follows b id p) {binding : Binding ρ} (hkey : key ∈ b.bound)
    (hown : binding.key = key) (hbinding : binding.DeclaredAs b p key.type) :
    Upholds b id w p (w.setBinding id key binding) p := by
  refine ⟨h.modifyInjector _ ?_ h.hooks h.recorded, .refl p, rfl,
    fun _ _ hslot hbusy => ⟨hslot, hbusy⟩⟩
  intro other stored hstored
  rw [Table.get?_insert] at hstored
  split at hstored
  case isTrue heq =>
    cases hstored
    exact heq ▸ ⟨hkey, hown, hbinding⟩
  case isFalse => exact h.bound other stored hstored

/-- A new slot is made for a singleton by `World.newSlot`, and is known from then on by
`withSlot`. -/
theorem newSlot (h : w.Follows b id p) (key : Key) :
    Upholds b id w p w.newSlot.2 (p.withSlot w.newSlot.1 key) := by
  have hnone : p.slots w.newSlot.1 = none := by
    cases hsome : p.slots w.newSlot.1 with
    | none => rfl
    | some name => exact absurd (h.allotted _ name hsome) (Nat.lt_irrefl _)
  have hwithin := Places.within_withSlot hnone key
  have hspares : w.Spares (fun _ _ => False) w.newSlot.2 := .newSlot w
  have hempty : w.slot w.newSlot.1 = .empty := slot_of_size_le w (Nat.le_refl _)
  have hbusy (slot : SlotId) (name : Key) (hname : (p.withSlot w.newSlot.1 key).slots slot = some name)
      (hbusy : w.newSlot.2.slot slot = .busy) : p.slots slot = some name ∧ w.slot slot = .busy := by
    rw [hspares.slot] at hbusy
    have hne : slot ≠ w.newSlot.1 := by
      rintro rfl
      rw [hempty] at hbusy
      cases hbusy
    exact ⟨(if_neg hne).symm.trans hname, hbusy⟩
  refine ⟨⟨h.known, ?bound, h.hooks, ?rosters, ?catalogs, ?allotted, ?recorded⟩, hwithin, rfl, hbusy⟩
  case bound =>
    intro name binding hget
    obtain ⟨hkey, hown, hdeclared⟩ := h.bound name binding hget
    exact ⟨hkey, hown, hdeclared.mono hwithin⟩
  case rosters =>
    exact fun roster element hroster entry hentry =>
      (h.rosters roster element hroster entry hentry).mono hwithin
  case catalogs =>
    exact fun catalog element hcatalog row hrow =>
      (h.catalogs catalog element hcatalog row hrow).mono hwithin
  case allotted =>
    intro slot name hname
    show slot.index < (w.slots.push .empty).size
    rw [Array.size_push]
    by_cases hnew : slot = w.newSlot.1
    · rw [hnew]
      exact Nat.lt_succ_self _
    · exact Nat.lt_succ_of_lt (h.allotted slot name ((if_neg hnew).symm.trans hname))
  case recorded =>
    intro slot name hname hb
    obtain ⟨hbefore, hwas⟩ := hbusy slot name hname hb
    exact h.recorded slot name hbefore hwas

/-- A binding is stored in a new wrapper of a scope by `World.rewrap`, a singleton in a slot of its
own. -/
theorem rewrap (h : w.Follows b id p) (binding : Binding ρ) (scope : Scope)
    (hkey : binding.key ∈ b.bound) (hbase : binding.base.DeclaredAs b p binding.key.type)
    (hdecorated : binding.decorated.DeclaredAs b p binding.key.type) :
    ∃ q, Upholds b id w p (w.rewrap id binding scope) q := by
  cases scope with
  | noScope => exact ⟨p, h.setBinding hkey rfl ⟨hbase, hdecorated, hdecorated⟩⟩
  | singleton =>
    have hnew := h.newSlot binding.key
    have hdecorated := hdecorated.mono hnew.within
    have hwrapped : Provider.DeclaredAs b (p.withSlot w.newSlot.1 binding.key) binding.key.type
        (.singleton w.newSlot.1 binding.key binding.key.type binding.decorated) :=
      .singleton (if_pos rfl) hdecorated
    exact ⟨_, hnew.trans (hnew.follows.setBinding hkey rfl
      ⟨hbase.mono hnew.within, hdecorated, hwrapped⟩)⟩

/-- A stage of the `Blueprint` is added to what a key is bound to, by `World.decorate`. -/
theorem decorate (h : w.Follows b id p) (key : Key) {stage : Stage ρ} (hstage : b.Has stage) :
    ∃ q, Upholds b id w p (w.decorate id key stage).2 q := by
  rw [World.decorate]
  split
  case h_1 fault _ => exact ⟨p, h.note (.fault fault)⟩
  case h_2 => exact ⟨p, h.note (.fault (.bindingNotFound key))⟩
  case h_3 binding hfind =>
    obtain ⟨hkey, rfl, hdeclared⟩ := h.bound key binding (Injector.get?_of_find hfind)
    have hnoted := h.note (.decorating binding.key)
    have hdecorated : (Provider.decorating binding.decorated [stage]).DeclaredAs b p binding.key.type :=
      .decorating hdeclared.decorated fun other hother => by rwa [List.mem_singleton.1 hother]
    let stored : Binding ρ := { binding with decorated := .decorating binding.decorated [stage] }
    obtain ⟨q, hq⟩ := hnoted.follows.rewrap stored binding.scope hkey hdeclared.base hdecorated
    exact ⟨q, hnoted.trans hq⟩

/-! ### Singletons -/

/-- Waits change, by `World.setWaits`, and what is at work is still recorded. -/
theorem setWaits (h : w.Follows b id p) (graph : WaitGraph)
    (hrecorded : ∀ slot key, p.slots slot = some key → w.slot slot = .busy →
      graph.producing.get? key = some w.thread) :
    (w.setWaits id graph).Follows b id p :=
  h.modifyInjector _ h.bound h.hooks hrecorded

theorem setSlot (h : w.Follows b id p) (content : Slot)
    (hrecorded : content = .busy → ∀ key, p.slots slot = some key →
      (w.injector id).waits.producing.get? key = some w.thread) :
    (w.setSlot slot content).Follows b id p := by
  refine ⟨h.known, h.bound, h.hooks, h.rosters, h.catalogs, ?_, ?_⟩
  · simpa [World.setSlot] using h.allotted
  intro other key hother hbusy
  by_cases hne : slot = other
  · subst hne
    refine hrecorded ?_ key hother
    by_contra hcontent
    exact slot_setSlot_self_ne_busy hcontent hbusy
  · rw [slot_setSlot_of_ne w content hne] at hbusy
    exact h.recorded other key hother hbusy

/-- Who is let wait by `World.awaitKey` has changed nothing but what is waited for, and does not
produce the key. -/
theorem of_awaitKey (h : w.Follows b id p) (hawait : w.awaitKey id key = (.ok (), between)) :
    Upholds b id w p between p ∧ (∀ slot, between.slot slot = w.slot slot) ∧
      (between.injector id).waits.producing.get? key ≠ some between.thread := by
  have hfree : (w.injector id).waits.producing.get? key ≠ some w.thread := by
    intro hproducing
    rw [awaitKey_of_producing hproducing] at hawait
    cases hawait
  rw [World.awaitKey] at hawait
  split at hawait
  case h_1 => cases hawait
  case h_2 graph hgraph =>
    cases hawait
    obtain ⟨-, rfl⟩ := WaitGraph.await_eq_ok_iff.1 hgraph
    refine ⟨⟨h.setWaits _ h.recorded, .refl p, rfl, fun _ _ hslot hbusy => ⟨hslot, hbusy⟩⟩,
      fun _ => rfl, ?_⟩
    rw [World.setWaits, injector_modifyInjector_self w _ h.known]
    exact hfree

theorem of_awaitKey_error {fault : Fault} (h : w.Follows b id p)
    (hawait : w.awaitKey id key = (.error fault, after)) : Upholds b id w p after p := by
  rw [World.awaitKey] at hawait
  split at hawait
  case h_1 =>
    cases hawait
    exact h.note _
  case h_2 => cases hawait

/-- A singleton takes its slot, and its production is recorded by `World.startProducing`. -/
theorem take (h : w.Follows b id p) (hslot : p.slots slot = some key) :
    ((w.setSlot slot .busy).startProducing id key).Follows b id p := by
  have hinsert (other : Key)
      (hother : (w.injector id).waits.producing.get? other = some w.thread ∨ other = key) :
      ((w.injector id).waits.startProducing w.thread key).producing.get? other = some w.thread := by
    rw [WaitGraph.startProducing, Table.get?_insert]
    split
    case isTrue => rfl
    case isFalse hne => exact hother.resolve_right (Ne.symm hne)
  have hstarted : (w.startProducing id key).Follows b id p :=
    h.setWaits _ fun other name hother hbusy => hinsert name (.inl (h.recorded other name hother hbusy))
  -- the slot could as well be taken once the production is recorded
  refine hstarted.setSlot .busy fun _ name hname => ?_
  obtain rfl := Option.some.inj (hslot.symm.trans hname)
  show ((w.setWaits id _).injector id).waits.producing.get? key = some w.thread
  rw [World.setWaits, injector_modifyInjector_self w _ h.known]
  exact hinsert key (.inr rfl)

/-- A singleton gives its slot back and its production is over, while no other one is recorded under
the same key; the worlds are those of `World.givenBack`. -/
theorem giveBack (h : w.Follows b id p) {content : Slot} (hcontent : content ≠ .busy)
    (hothers : ∀ other, p.slots other = some key → (w.setSlot slot content).slot other ≠ .busy) :
    (((w.stopProducing id key).setSlot slot content).stopAwaiting id key).Follows b id p := by
  have hset : (w.setSlot slot content).Follows b id p :=
    h.setSlot content fun hbusy => absurd hbusy hcontent
  -- the slot could as well be given back before the production is over
  have hstopped : ((w.setSlot slot content).stopProducing id key).Follows b id p := by
    refine hset.setWaits _ fun other name hother hbusy => ?_
    rw [WaitGraph.stopProducing, Table.get?_erase]
    split
    case isTrue heq => exact absurd hbusy (hothers other (heq ▸ hother))
    case isFalse => exact hset.recorded other name hother hbusy
  refine hstopped.setWaits _ fun other name hother hbusy => ?_
  rw [WaitGraph.stopAwaiting]
  split
  · exact hstopped.recorded other name hother hbusy
  · exact hstopped.recorded other name hother hbusy

end Follows

/-- A key is put on the stack, and taken off by `World.popKey` after all that was done meanwhile. -/
theorem Upholds.popKey (h : Upholds b id (w.switchTo w.thread (w.stack ++ [key])) p after q) :
    Upholds b id w p after.popKey q where
  follows := h.follows.of_eq rfl rfl rfl rfl rfl
  within := h.within
  stack := by
    show ResolveStack.pop after.stack = w.stack
    rw [h.stack]
    exact ResolveStack.pop_append_singleton w.stack key
  busy := h.busy

end World

end Wiring
