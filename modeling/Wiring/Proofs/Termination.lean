import Wiring.Proofs.DeclaredPlaces
import Wiring.Proofs.Meaning

/-!
# Resolving declared wiring comes to an end

Resolving leads from key to key through the bindings, whatever they are bound to, so no measure of
the providers decreases. What decreases is the room that the stack leaves for bound keys
(`ResolveStack.Fits`): a key is put on it once. With a key on the stack a provider is left after
finitely many steps, for its type decreases from a list to its entries and its size from a wrapper
to its delegate. So resolving comes to an end, and of the keys that are not bound only one at a time
is put on the stack, above all others (`declared_terminates`).

Stages and hooks that resolve nothing may change the wiring meanwhile (`Code.Modest`), as long as it
stays declared and the keys that they bind are some of a given list. If they bound ever new keys,
these could lead on for ever.

* **`Host.Settles`** — comes to an end with so many keys on the stack at most, and leaves the wiring
  declared.
* **`produce_settles`** — induction on the type; `produce_settles_of_entries` is the induction on
  the provider within.
* **`resolve_settles`** — induction on the room that the stack leaves.
-/

namespace Wiring

variable {ρ σ π α : Type}

/-! ### Stages and hooks -/

/-- The code resolves nothing, by `Code.Acts`, and leaves the wiring declared, whatever it changes
of it. -/
structure Code.Modest (code : Code ρ σ π α) (b : Blueprint ρ) (id : InjectorId) : Prop where
  acts : code.Acts
  upholds : ∀ (w : World ρ σ π) p a after, w.Follows b id p → code.Performs w a after →
    ∃ q, w.Upholds b id p after q

/-- The stages and hooks of the `Blueprint` are modest, by `Code.Modest`. -/
structure Host.Modest (host : Host ρ σ π) (b : Blueprint ρ) (id : InjectorId) : Prop where
  stage : ∀ routine, b.stages routine → ∀ object, (host.stage routine id object).Modest b id
  hook : ∀ routine, b.hooks routine → ∀ object, (host.hook routine id object).Modest b id

/-! ### Parts -/

/-- The part comes to an end by `Host.Ends` with never more than `limit` keys on the stack, and the
wiring is declared still by `World.Upholds`. -/
def Host.Settles (host : Host ρ σ π) (b : Blueprint ρ) (id : InjectorId) (limit : Nat)
    (part : ((request : Request ρ σ π) → Run ρ σ π request.Answer) → Run ρ σ π α)
    (w : World ρ σ π) (p : Places) : Prop :=
  host.Ends (fun v => v.stack.length ≤ limit) part w fun _ after => ∃ q, w.Upholds b id p after q

/-- On that stack, the provider `Settles` wherever it is declared as one of the type. -/
def Host.SettlesAs (host : Host ρ σ π) (b : Blueprint ρ) (id : InjectorId) (limit : Nat)
    (stack : ResolveStack) (type : ValueType) (provider : Provider ρ) : Prop :=
  ∀ (w : World ρ σ π) p, w.Follows b id p → w.stack = stack → provider.DeclaredAs b p type →
    host.Settles b id limit (fun answer => answer (.produce id provider)) w p

/-- On that stack, all keys settle: `Request.resolve` of each `Settles`. -/
def Host.SettlesKeys (host : Host ρ σ π) (b : Blueprint ρ) (id : InjectorId) (limit : Nat)
    (stack : ResolveStack) : Prop :=
  ∀ (w : World ρ σ π) p key, w.Follows b id p → w.stack = stack →
    host.Settles b id limit (fun answer => answer (.resolve id key)) w p

variable {host : Host ρ σ π} {b : Blueprint ρ} {id : InjectorId} {limit : Nat}
variable {w : World ρ σ π} {p : Places} {stack : ResolveStack}

theorem Code.Modest.settles {code : Code ρ σ π α} (h : code.Modest b id) (hw : w.Follows b id p)
    (hlimit : w.stack.length ≤ limit) :
    host.Settles b id limit (fun answer => code.run answer) w p := by
  refine (h.acts.ends fun v hv => by rwa [hv.stack]).mono ?_
  rintro a after ⟨hperforms, -⟩
  exact h.upholds w p a after hw hperforms

/-- What `Settles` from where the wiring has come to by `Upholds`, settles. -/
theorem World.Upholds.settles
    {part : ((request : Request ρ σ π) → Run ρ σ π request.Answer) → Run ρ σ π α} {u : World ρ σ π}
    {q : Places} (hu : w.Upholds b id p u q) (h : host.Settles b id limit part u q) :
    host.Ends (fun v => v.stack.length ≤ limit) part u fun _ after => ∃ r, w.Upholds b id p after r :=
  h.mono fun _ _ ⟨r, hafter⟩ => ⟨r, hu.trans hafter⟩

/-! ### Stages -/

theorem injectMembers_settles (hhost : host.Modest b id) (hw : w.Follows b id p)
    (hlimit : w.stack.length ≤ limit) (type : ValueType) (object : Ref) :
    host.Settles b id limit (fun answer => answer (.injectMembers id type object)) w p := by
  refine .of_step (fun _ _ => rfl) (.next_now rfl hlimit (.through ⟨p, hw.upholds⟩ ?_))
  rintro hook hhook _ u ⟨q, hu⟩
  have hmodest := hhost.hook hook (hw.hooks type hook hhook) object
  exact hu.settles (hmodest.settles hu.follows (hu.stack ▸ hlimit))

theorem complete_settles (hhost : host.Modest b id) (hw : w.Follows b id p)
    (hlimit : w.stack.length ≤ limit) {stage : Stage ρ} (hstage : b.Has stage) (object : Ref) :
    host.Settles b id limit (fun answer => Engine.complete host answer id stage object) w p := by
  cases stage with
  | routine routine => exact (hhost.stage routine hstage object).settles hw hlimit
  | memberInjection type =>
    refine .bind (injectMembers_settles hhost hw hlimit type object) fun outcome after hafter => ?_
    cases outcome with
    | error _ => exact .pure hafter
    | ok _ => exact .pure hafter

/-! ### Providers -/

/-- A provider of the type settles where the wiring has come to by `Upholds`, for it is declared
there still. -/
theorem World.Upholds.produces {u : World ρ σ π} {q : Places} {type : ValueType} {provider : Provider ρ}
    (hu : w.Upholds b id p u q) (htype : host.SettlesAs b id limit stack type provider)
    (hstack : w.stack = stack) (hdeclared : provider.DeclaredAs b p type) :
    host.Ends (fun v => v.stack.length ≤ limit) (fun answer => answer (.produce id provider)) u
      fun _ after => ∃ r, w.Upholds b id p after r :=
  hu.settles (htype u q hu.follows (hu.stack.trans hstack) (hdeclared.mono hu.within))

theorem list_settles {element : ValueType} {roster : RosterId}
    (helement : ∀ provider, host.SettlesAs b id limit stack element provider) (hw : w.Follows b id p)
    (hstack : w.stack = stack) (hlimit : stack.length ≤ limit)
    (hroster : p.rosters roster = some element) :
    host.Settles b id limit (fun answer => Engine.assembleList answer id roster) w p := by
  refine .assembleList ?_ ?_ ?_ ⟨p, hw.upholds⟩ ?_
  · rintro v ⟨q, hv⟩
    exact (hv.stack.trans hstack) ▸ hlimit
  · rintro v event ⟨q, hv⟩
    exact ⟨q, hv.trans (hv.follows.note event)⟩
  · rintro v content ⟨q, hv⟩
    exact ⟨q, hv.trans (hv.follows.allocate content)⟩
  · rintro entry hentry u ⟨q, hu⟩
    exact hu.produces (helement _) hstack (hw.rosters roster element hroster entry hentry)

theorem map_settles {element : ValueType} {catalog : CatalogId}
    (helement : ∀ provider, host.SettlesAs b id limit stack element provider) (hw : w.Follows b id p)
    (hstack : w.stack = stack) (hlimit : stack.length ≤ limit)
    (hcatalog : p.catalogs catalog = some element) :
    host.Settles b id limit (fun answer => Engine.assembleMap answer id catalog) w p := by
  refine .assembleMap ?_ ?_ ⟨p, hw.upholds⟩ ?_
  · rintro v ⟨q, hv⟩
    exact (hv.stack.trans hstack) ▸ hlimit
  · rintro v content ⟨q, hv⟩
    exact ⟨q, hv.trans (hv.follows.allocate content)⟩
  · rintro row hrow u ⟨q, hu⟩
    exact hu.produces (helement _) hstack (hw.catalogs catalog element hcatalog row hrow)

/-- A delegate at work gives the slot back by `World.givenBack`, whatever it comes to. -/
theorem initialise_settles {slot : SlotId} {key : Key} {type : ValueType} {delegate : Provider ρ}
    (hdelegate : host.SettlesAs b id limit stack type delegate) (hw : w.Follows b id p)
    (hstack : w.stack = stack) (hlimit : stack.length ≤ limit) (hslot : p.slots slot = some key)
    (hdeclared : delegate.DeclaredAs b p type)
    (hfree : (w.injector id).waits.producing.get? key ≠ some w.thread) :
    host.Ends (fun v => v.stack.length ≤ limit)
      (fun answer => Engine.initialise answer id slot key type delegate) (w.setSlot slot .busy)
      fun _ after => ∃ q, w.Upholds b id p (after.stopAwaiting id key) q := by
  have hwithin : w.stack.length ≤ limit := hstack ▸ hlimit
  have htaken := (hw.take hslot).note (.creatingSingleton slot type)
  have hmade := hdelegate _ p htaken.follows hstack hdeclared
  refine .next_change hwithin (.next_change hwithin (.bind hmade ?_))
  rintro outcome made ⟨q, hu⟩
  have hmadeWithin : made.stack.length ≤ limit := hu.stack ▸ hwithin
  have hback (content : Slot) (hcontent : content ≠ .busy) :
      w.Upholds b id p (((made.stopProducing id key).setSlot slot content).stopAwaiting id key) q := by
    have hbusy (other : SlotId) (name : Key) (hother : q.slots other = some name)
        (hbusy : (made.setSlot slot content).slot other = .busy) :
        p.slots other = some name ∧ w.slot other = .busy := by
      have hne : slot ≠ other := by
        rintro rfl
        exact World.slot_setSlot_self_ne_busy hcontent hbusy
      rw [World.slot_setSlot_of_ne _ _ hne] at hbusy
      obtain ⟨hbefore, hwas⟩ := hu.busy other name hother hbusy
      exact ⟨hbefore, (World.slot_setSlot_of_ne w .busy hne).symm.trans hwas⟩
    -- what is busy then was busy before the slot was taken, so it is recorded under another key
    refine ⟨hu.follows.giveBack hcontent fun other hother hb => ?_, hu.within, hu.stack, hbusy⟩
    obtain ⟨hbefore, hwas⟩ := hbusy other key hother hb
    exact hfree (hw.recorded other key hbefore hwas)
  cases outcome with
  | error _ => exact .next_change hmadeWithin (.next_change hmadeWithin (.pure ⟨q, hback .empty nofun⟩))
  | ok object =>
    exact .next_change hmadeWithin (.next_change hmadeWithin (.pure ⟨q, hback (.filled object) nofun⟩))

/-- A singleton gives the object that it has kept, or is refused, or its delegate is at work. It
never has to wait: where its slot is taken, the thread itself is recorded as the producer, by
`World.Follows`. -/
theorem single_settles {slot : SlotId} {key : Key} {type : ValueType} {delegate : Provider ρ}
    (hdelegate : host.SettlesAs b id limit stack type delegate) (hw : w.Follows b id p)
    (hstack : w.stack = stack) (hlimit : stack.length ≤ limit) (hslot : p.slots slot = some key)
    (hdeclared : delegate.DeclaredAs b p type) :
    host.Settles b id limit (fun answer => Engine.single answer id slot key type delegate) w p := by
  have hwithin : w.stack.length ≤ limit := hstack ▸ hlimit
  refine .next_now rfl hwithin ?_
  cases hcontent : w.slot slot with
  | filled object => exact .pure ⟨p, hw.upholds⟩
  -- the thread waits for itself then, and that is refused
  | busy =>
    have hrefused := World.awaitKey_of_producing (hw.recorded slot key hslot hcontent)
    exact .next_now hrefused hwithin (.pure ⟨p, hw.note _⟩)
  | empty =>
    cases hawait : w.awaitKey id key with
    | mk granted between =>
      cases granted with
      | error fault =>
        have hraised := hw.of_awaitKey_error hawait
        exact .next_now hawait (hraised.stack ▸ hwithin) (.pure ⟨p, hraised⟩)
      | ok =>
        obtain ⟨hu, hslots, hfree⟩ := hw.of_awaitKey hawait
        have hbetween : between.stack.length ≤ limit := hu.stack ▸ hwithin
        have hempty : between.slot slot = .empty := (hslots slot).trans hcontent
        have hinitialise := initialise_settles hdelegate hu.follows (hu.stack.trans hstack) hlimit hslot
          hdeclared hfree
        refine .next_now hawait hbetween (.bind (.next (Engine.run_takeSlot_of_empty hempty) hbetween
          hinitialise) ?_)
        rintro outcome made ⟨q, hback⟩
        exact .next_change (hback.stack ▸ hbetween) (.pure ⟨q, hu.trans hback⟩)

/-- A provider settles where keys do, and those that lie in its lists and maps. Induction on the
rules of `Provider.DeclaredAs`. -/
theorem produce_settles_of_entries (hhost : host.Modest b id)
    (hkeys : host.SettlesKeys b id limit stack) (hlimit : stack.length ≤ limit) {type : ValueType}
    (hentries : ∀ element, type = .list element ∨ type = .map element →
      ∀ provider, host.SettlesAs b id limit stack element provider)
    (provider : Provider ρ) : host.SettlesAs b id limit stack type provider := by
  -- a wrapper settles where its delegate does, and a list or map where providers of its entries do
  induction provider with
  | fixed object => exact fun w p hw _ _ => .of_step (fun _ _ => rfl) (.pure ⟨p, hw.upholds⟩)
  | factory type routine => exact fun w p _ _ hdeclared => nomatch hdeclared
  | lookup key => exact fun w p hw hstack _ => .of_step (fun _ _ => rfl) (hkeys w p key hw hstack)
  | decorating delegate stages ih =>
    intro w p hw hstack hdeclared
    cases hdeclared with
    | decorating hdelegate hstages =>
      refine .of_step (fun _ _ => rfl) (.bind (ih w p hw hstack hdelegate) ?_)
      rintro outcome u ⟨q, hu⟩
      cases outcome with
      | error _ => exact .pure ⟨q, hu⟩
      | ok object =>
        refine .through ⟨q, hu⟩ ?_
        rintro stage hstage object v ⟨r, hv⟩
        have hwithin : v.stack.length ≤ limit := (hv.stack.trans hstack) ▸ hlimit
        exact hv.settles (complete_settles hhost hv.follows hwithin (hstages stage hstage) object)
  | singleton slot key type delegate ih =>
    intro w p hw hstack hdeclared
    cases hdeclared with
    | singleton hslot hdelegate =>
      exact .of_step (fun _ _ => rfl) (single_settles ih hw hstack hlimit hslot hdelegate)
  | list roster =>
    intro w p hw hstack hdeclared
    cases hdeclared with
    | list hroster =>
      exact .of_step (fun _ _ => rfl) (list_settles (hentries _ (.inl rfl)) hw hstack hlimit hroster)
  | map catalog =>
    intro w p hw hstack hdeclared
    cases hdeclared with
    | map hcatalog =>
      exact .of_step (fun _ _ => rfl) (map_settles (hentries _ (.inr rfl)) hw hstack hlimit hcatalog)

/-- Induction on the `ValueType`, for the entries of a list or map are of a type below. -/
theorem produce_settles (hhost : host.Modest b id) (hkeys : host.SettlesKeys b id limit stack)
    (hlimit : stack.length ≤ limit) (type : ValueType) (provider : Provider ρ) :
    host.SettlesAs b id limit stack type provider := by
  induction type generalizing provider with
  | plain name =>
    refine produce_settles_of_entries hhost hkeys hlimit ?_ provider
    rintro element (h | h) <;> cases h
  | list element ih =>
    refine produce_settles_of_entries hhost hkeys hlimit ?_ provider
    rintro other (h | h) <;> cases h
    exact ih
  | map element ih =>
    refine produce_settles_of_entries hhost hkeys hlimit ?_ provider
    rintro other (h | h) <;> cases h
    exact ih

/-! ### Keys -/

/-- A key is refused or put on the stack by `World.pushKey`, and taken off again when its provider
has settled. -/
theorem resolve_settles_of_provider {key : Key} (hw : w.Follows b id p)
    (hlimit : w.stack.length < limit)
    (hprovider : ∀ provider, key ∉ w.stack → key ∈ b.bound →
      host.SettlesAs b id limit (w.stack ++ [key]) key.type provider) :
    host.Settles b id limit (fun answer => answer (.resolve id key)) w p := by
  refine .of_step (fun _ _ => rfl) ?_
  by_cases hkey : key ∈ w.stack
  · exact .next_now (World.pushKey_of_mem rfl hkey) (Nat.le_of_lt hlimit) (.pure ⟨p, hw.note _⟩)
  · have hpush := World.pushKey_of_not_mem rfl hkey
    have hpushed : (w.stack ++ [key]).length ≤ limit := by
      rw [List.length_append, List.length_singleton]
      exact hlimit
    have hfollows : (w.switchTo w.thread (w.stack ++ [key])).Follows b id p :=
      hw.of_eq rfl rfl rfl rfl rfl
    have hnoted := hfollows.note (.resolving key)
    refine .next_now hpush hpushed (.next_change hpushed ?_)
    -- whatever the provider comes to, the key is taken off again
    have hpop (outcome : Except Fault Ref) (made : World ρ σ π)
        (hmade : ∃ q, World.Upholds b id (w.switchTo w.thread (w.stack ++ [key])) p made q) :
        host.Ends (fun v => v.stack.length ≤ limit)
          (fun _ => Run.change (·.popKey) >>= fun _ => pure outcome) made
          fun _ after => ∃ q, w.Upholds b id p after q := by
      obtain ⟨q, hmade⟩ := hmade
      exact .next_change (hmade.popKey.stack ▸ Nat.le_of_lt hlimit) (.pure ⟨q, hmade.popKey⟩)
    rcases hnoted.follows.providerOf key with ⟨fault, hfault⟩ | ⟨hbound, provider, hdeclared, hfound⟩
    · have hraised := hnoted.trans (hnoted.follows.note (.fault fault))
      exact .next_now hfault hpushed (.bind (.pure ⟨p, hraised⟩) hpop)
    · have hproduce := hprovider provider hkey hbound _ p hnoted.follows rfl hdeclared
      exact .next_now hfound hpushed (.bind (hnoted.settles hproduce) hpop)

/-- A key settles on every stack of distinct bound keys above the first ones. Induction on the room
that it leaves by `ResolveStack.Fits`. -/
theorem resolve_settles (hhost : host.Modest b id) (base : ResolveStack) {room : Nat}
    {above : ResolveStack} (hfits : ResolveStack.Fits b.bound room above) :
    host.SettlesKeys b id (base.length + b.bound.length + 1) (base ++ above) := by
  induction room using Nat.strong_induction_on generalizing above with
  | _ room ih =>
    intro w p key hw hstack
    have habove : above.length ≤ b.bound.length :=
      (List.subperm_of_subset hfits.nodup hfits.subset).length_le
    refine resolve_settles_of_provider hw ?_ fun provider hkey hbound => ?_
    · rw [hstack, List.length_append]
      omega
    · rw [hstack] at hkey ⊢
      have hfresh : key ∉ above := fun hmem => hkey (List.mem_append_right _ hmem)
      obtain ⟨less, rfl, hmore⟩ := hfits.push hbound hfresh
      have hkeys := ih less (Nat.lt_succ_self less) hmore
      rw [← List.append_assoc] at hkeys
      refine produce_settles hhost hkeys ?_ key.type provider
      rw [List.append_assoc, List.length_append]
      have hroom := (List.subperm_of_subset hmore.nodup hmore.subset).length_le
      omega

/-! ### Requests -/

/-- Run alone, the request is answered by `Host.Yields`, and on the way to the answer the stack has
never more than `limit` keys. -/
structure Host.Terminates (host : Host ρ σ π) (request : Request ρ σ π) (w : World ρ σ π) (limit : Nat) :
    Prop where
  answered : ∃ reply after, host.Yields (fun answer => answer request) w reply after
  bounded : ∀ fuel v, (host.answer fuel request).Visits w v → v.stack.length ≤ limit

/-- Whatever is on the stack, resolving a key of declared wiring comes to an end by
`Host.Terminates`, and so does a get on a declared provider. The stack grows by the bound keys and
one more at most. -/
theorem declared_terminates (hhost : host.Modest b id) (hw : w.Follows b id p) :
    (∀ key, host.Terminates (.resolve id key) w (w.stack.length + b.bound.length + 1)) ∧
      ∀ type provider, provider.DeclaredAs b p type →
        host.Terminates (.produce id provider) w (w.stack.length + b.bound.length + 1) := by
  have hfits : ResolveStack.Fits b.bound b.bound.length [] :=
    ⟨List.nodup_nil, nofun, Nat.le_of_eq (Nat.zero_add _).symm⟩
  have hkeys : host.SettlesKeys b id (w.stack.length + b.bound.length + 1) w.stack := by
    simpa using resolve_settles hhost w.stack hfits
  have hterminates {request : Request ρ σ π}
      (h : host.Settles b id (w.stack.length + b.bound.length + 1) (fun answer => answer request) w p) :
      host.Terminates request w (w.stack.length + b.bound.length + 1) := by
    obtain ⟨⟨reply, after, hyields, -⟩, hbounded⟩ := h.yields
    exact ⟨⟨reply, after, hyields⟩, hbounded⟩
  refine ⟨fun key => hterminates (hkeys w p key hw rfl), fun type provider hdeclared => hterminates ?_⟩
  exact produce_settles hhost hkeys (by omega) type provider w p hw rfl hdeclared

/-! ### Knots -/

def knot (number : Nat) : Key := .ofObject (.plain "Knot") number

def knots : Key := ⟨.list (.plain "Knot"), none⟩

def knotMap : Key := ⟨.map (.plain "Knot"), none⟩

/-- Its stage adds itself to the second knot once more, each time that it runs. -/
def knotHost : Host Unit Unit Unit where
  make _ _ := pure (.ok default)
  stage _ _ object := .ask (.act (.decorate ⟨0⟩ (knot 2) (.routine ()))) fun _ => pure (.ok object)
  hook _ _ _ := pure (.error (.custom .providerFailed "tied"))
  kind _ := default
  imports _ := []
  configure _ _ := pure (.ok ())

/-- The first knot looks itself up, the next two look each other up, and list and map have
themselves and each other as entries. The fifth knot is not bound, and the sixth is on the stack
already. -/
def knotWorld : World Unit Unit Unit :=
  let w : World Unit Unit Unit :=
    { objects := #[.plain ()], injectors := #[{}], stack := [knot 6], memory := () }
  let w := w.bind ⟨0⟩ (knot 0) (.lookup (knot 0)) .singleton
  let w := w.bind ⟨0⟩ (knot 1) (.lookup (knot 2)) .noScope
  let w := w.bind ⟨0⟩ (knot 2) (.decorating (.lookup (knot 1)) [.routine ()]) .singleton
  let w := ((w.openList ⟨0⟩ knots).2.openMap ⟨0⟩ knotMap).2
  let w := w.enrol ⟨0⟩ (knot 10) (.decorating (.fixed ⟨0⟩) [.routine ()])
  let w := w.enrol ⟨0⟩ (knot 11) (.lookup (knot 2))
  let w := w.enrol ⟨0⟩ (knot 12) (.lookup knots)
  let w := w.putEntry ⟨0⟩ "list" (.lookup knots)
  let w := w.putEntry ⟨0⟩ "map" (.lookup knotMap)
  let w := w.putEntry ⟨0⟩ "nothing" (.lookup (knot 5))
  w.addHook ⟨0⟩ (.plain "Knot") ()

def knotBlueprint : Blueprint Unit where
  bound := (knotWorld.injector ⟨0⟩).bindings.keys
  stages _ := True
  hooks _ := True

def knotPlaces : Places where
  rosters roster := if roster = ⟨0⟩ then some (.plain "Knot") else none
  catalogs catalog := if catalog = ⟨0⟩ then some (.plain "Knot") else none
  slots slot := if slot = ⟨0⟩ then some (knot 0) else if slot = ⟨1⟩ then some (knot 2) else none

example : knotBlueprint.bound = [knot 0, knot 1, knot 2, knots, knotMap] := rfl

theorem knotHost_modest : knotHost.Modest knotBlueprint ⟨0⟩ where
  stage _ _ object :=
    { acts := .ask rfl fun _ => .done _
      upholds := fun w p a after hw hperforms => by
        cases hperforms with
        | act hdone =>
          cases hdone
          exact hw.decorate (knot 2) trivial }
  hook _ _ object :=
    { acts := .done _
      upholds := fun w p a after hw hperforms => by
        cases hperforms
        exact ⟨p, hw.upholds⟩ }

theorem knotWorld_follows : knotWorld.Follows knotBlueprint ⟨0⟩ knotPlaces where
  known := Nat.zero_lt_one
  bound key binding hget := by
    have hrow := Table.mem_rows_of_get? hget
    refine ⟨List.mem_map_of_mem hrow, ?_⟩
    have hlookup (number other : Nat) :
        (Provider.lookup (knot other)).DeclaredAs knotBlueprint knotPlaces (knot number).type :=
      .lookup _ _
    have hstaged : (Provider.decorating (.lookup (knot 1)) [.routine ()]).DeclaredAs knotBlueprint
        knotPlaces (knot 2).type := by
      refine .decorating (.lookup _ _) fun stage hstage => ?_
      obtain rfl := List.mem_singleton.1 hstage
      trivial
    have hlist : (Provider.list ⟨0⟩).DeclaredAs knotBlueprint knotPlaces knots.type := .list rfl
    have hmap : (Provider.map ⟨0⟩).DeclaredAs knotBlueprint knotPlaces knotMap.type := .map rfl
    rcases hrow with _ | ⟨_, _ | ⟨_, _ | ⟨_, _ | ⟨_, _ | ⟨_, hrow⟩⟩⟩⟩⟩
    · exact ⟨rfl, hlookup 0 0, hlookup 0 0, .singleton rfl (hlookup 0 0)⟩
    · exact ⟨rfl, hlookup 1 2, hlookup 1 2, hlookup 1 2⟩
    · exact ⟨rfl, hstaged, hstaged, .singleton rfl hstaged⟩
    · exact ⟨rfl, hlist, hlist, hlist⟩
    · exact ⟨rfl, hmap, hmap, hmap⟩
    · cases hrow
  hooks _ _ _ := trivial
  rosters roster element hroster entry hentry := by
    obtain ⟨rfl, rfl⟩ : roster = ⟨0⟩ ∧ .plain "Knot" = element := by simpa [knotPlaces] using hroster
    rcases hentry with _ | ⟨_, _ | ⟨_, _ | ⟨_, hentry⟩⟩⟩
    · refine .decorating (.fixed _ _) fun stage hstage => ?_
      obtain rfl := List.mem_singleton.1 hstage
      trivial
    · exact .lookup _ _
    · exact .lookup _ _
    · cases hentry
  catalogs catalog element hcatalog row hrow := by
    obtain ⟨rfl, rfl⟩ : catalog = ⟨0⟩ ∧ .plain "Knot" = element := by simpa [knotPlaces] using hcatalog
    rcases hrow with _ | ⟨_, _ | ⟨_, _ | ⟨_, hrow⟩⟩⟩
    · exact .lookup _ _
    · exact .lookup _ _
    · exact .lookup _ _
    · cases hrow
  allotted slot key hslot := by
    show slot.index < 2
    simp only [knotPlaces] at hslot
    split at hslot
    case isTrue heq => simp [heq]
    case isFalse =>
      split at hslot
      case isTrue heq => simp [heq]
      case isFalse => cases hslot
  recorded slot key hslot hbusy := by
    have hslots : knotWorld.slots = Array.replicate 2 .empty := rfl
    rw [World.slot, hslots, Array.getElem?_replicate] at hbusy
    split at hbusy
    case isTrue => cases hbusy
    case isFalse => cases hbusy

/-- Every key comes to an end in `knotWorld`, and every provider that is made of the like. -/
theorem declared_terminates_of_knots :
    knotHost.Modest knotBlueprint ⟨0⟩ ∧ knotWorld.Follows knotBlueprint ⟨0⟩ knotPlaces ∧
      (∀ key, knotHost.Terminates (.resolve ⟨0⟩ key) knotWorld
        (knotWorld.stack.length + knotBlueprint.bound.length + 1)) ∧
      ∀ type provider, provider.DeclaredAs knotBlueprint knotPlaces type →
        knotHost.Terminates (.produce ⟨0⟩ provider) knotWorld
          (knotWorld.stack.length + knotBlueprint.bound.length + 1) :=
  ⟨knotHost_modest, knotWorld_follows, declared_terminates knotHost_modest knotWorld_follows⟩

/-- The first entry of the list is made, and its stage runs. The second leads into the knot. -/
example : ((knotHost.answer 20 (.resolve ⟨0⟩ knots)).run knotWorld).toOption.map (·.1) =
    some (.error (.cyclicBinding [knot 6, knots, knot 2, knot 1, knot 2])) := by cbv

end Wiring
