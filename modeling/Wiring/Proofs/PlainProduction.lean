import Wiring.Proofs.KeptValues
import Wiring.Proofs.PlainWiring

/-!
# What plain wiring produces

A provider of plain wiring produces what it means, provided that the keys it asks for resolve to
what is expected of them (`produce_comes`). Nothing is said of the keys themselves here, so this
holds for whatever resolving them does to the singletons. What singletons have kept is what their keys
unwind to: `World.Coherent` is `World.Honours` on these terms.

* **`Host.Comes`** and **`Host.Serves`** — a part comes to what is expected, in one world and
  wherever what is known holds.
* **`inTurn_comes`** and **`through_comes`** — entries one after the other, and stages one after the
  other; lists (`assembleList_comes`) and maps (`assembleMap_comes`) are made of the first.
-/

namespace Wiring

variable {ρ σ π : Type}

/-! ### What is known -/

/-- A `Layout`, with what its keys mean; nothing of this changes while keys are resolved. -/
structure Setting (ρ σ π : Type) extends Layout ρ σ π where
  table : Meanings π

namespace World

/-- What the object holds is what the key unwinds to, by `Meanings.unwind` at some depth. -/
def Suits (w : World ρ σ π) (s : Setting ρ σ π) (key : Key) (object : Ref) : Prop :=
  ∃ depth value, w.Holds object value ∧ s.table.unwind depth key = .ok value

theorem Suits.mono {w after : World ρ σ π} {s : Setting ρ σ π} {key : Key} {object : Ref}
    (h : w.Suits s key object) (hafter : w.Extends after) : after.Suits s key object := by
  obtain ⟨depth, value, hholds, hunwind⟩ := h
  exact ⟨depth, value, hholds.mono hafter, hunwind⟩

end World

/-- A singleton keeps what its key unwinds to; objects may be added, as `World.Extends` says, but what is
there stays as it is. -/
def Setting.terms (s : Setting ρ σ π) : Terms ρ σ π where
  Later := World.Extends
  Suits w key object := w.Suits s key object
  of_objects := World.extends_of_objects
  trans := World.Extends.trans
  mono hlater hsuits := hsuits.mono hlater

namespace World

/-- What is known while keys of plain wiring are resolved. `opened` are the singletons at work. -/
abbrev Coherent (w : World ρ σ π) (s : Setting ρ σ π) (opened : List Key) : Prop :=
  w.Honours s.toLayout s.terms opened

theorem Coherent.of_grows {w after : World ρ σ π} {s : Setting ρ σ π} {opened : List Key}
    (h : w.Coherent s opened) (hgrows : w.Grows after) : after.Coherent s opened :=
  h.of_kept hgrows.objects hgrows.injectors hgrows.slots hgrows.rosters hgrows.catalogs

end World

namespace Host

/-- The part comes to the outcome that is expected, by `World.Shows`, and leaves the stack as it
was. What is known by `World.Coherent` holds still. -/
def Comes (host : Host ρ σ π) (s : Setting ρ σ π) (opened : List Key)
    (part : ((request : Request ρ σ π) → Run ρ σ π request.Answer) → Run ρ σ π (Except Fault Ref))
    (w : World ρ σ π) (expected : Except Fault (Value π)) : Prop :=
  ∃ outcome after, host.Yields part w outcome after ∧ after.Coherent s opened ∧ w.Extends after ∧
    after.stack = w.stack ∧ after.Shows outcome expected

/-- Wherever what is known by `World.Coherent` holds, with that stack, the request comes to what is
expected by `Comes`. -/
def Serves (host : Host ρ σ π) (s : Setting ρ σ π) (opened : List Key) (stack : ResolveStack)
    (part : ((request : Request ρ σ π) → Run ρ σ π request.Answer) → Run ρ σ π (Except Fault Ref))
    (expected : Except Fault (Value π)) : Prop :=
  ∀ w : World ρ σ π, w.Coherent s opened → w.stack = stack → host.Comes s opened part w expected

end Host

variable {host : Host ρ σ π} {s : Setting ρ σ π} {w : World ρ σ π} {opened : List Key}
variable {stack : ResolveStack}

/-! ### Stages -/

/-- Without hooks there is nothing to be done to the members of an object: `Request.injectMembers`
leaves the world as it is. -/
theorem yields_injectMembers {id : InjectorId} (hhooks : ∀ type, (w.injector id).hooksOf type = [])
    (type : ValueType) (object : Ref) :
    host.Yields (fun answer => answer (.injectMembers id type object)) w (.ok ()) w := by
  refine .injectMembers (.bind (.now rfl) ?_)
  rw [hhooks type]
  exact .pure _ w

/-- Stages, led through by `Run.through`, come to what they mean by `Host.StagesMean`. -/
theorem through_comes {stages : List (Stage ρ)} {f : Value π → Except Fault (Value π)}
    (hstages : host.StagesMean stages f) (hcoherent : w.Coherent s opened)
    {object : Ref} {value : Value π} (hholds : w.Holds object value) :
    host.Comes s opened
      (fun answer => Run.through (Engine.complete host answer s.id) stages object) w (f value) := by
  induction hstages generalizing w object value with
  | nil => exact ⟨.ok object, w, .pure _ w, hcoherent, .refl w, rfl, .ok hholds⟩
  | memberInjection _ ih =>
    rename_i type stages f _
    obtain ⟨outcome, after, hyields, hrest⟩ := ih hcoherent hholds
    -- there are no hooks, so nothing is injected
    have hinject : host.Yields (fun answer => answer (.injectMembers s.id type object)) w (.ok ()) w :=
      yields_injectMembers hcoherent.hooks type object
    refine ⟨outcome, after, ?_, hrest⟩
    exact .bind (.bind hinject (.pure (.ok object : Except Fault Ref) w)) hyields
  | routine hpure _ ih =>
    rename_i routine stages f g _
    obtain ⟨outcome, between, hperforms, hgrows, hshows⟩ := hpure s.id w object value hholds
    have hfirst : host.Yields (fun answer => (host.stage routine s.id object).run answer) w outcome
        between := .of_performs hperforms
    have hbetween := hcoherent.of_grows hgrows
    show host.Comes s opened _ w ((f value).bind g)
    generalize f value = expected at hshows ⊢
    cases hshows with
    | error halike =>
      exact ⟨_, between, .bind hfirst (.pure _ between), hbetween, hgrows.objects, hgrows.stack,
        .error halike⟩
    | ok hnext =>
      obtain ⟨last, after, hyields, hafter, hextends, hstack, hlast⟩ := ih hbetween hnext
      exact ⟨last, after, .bind hfirst hyields, hafter, hgrows.objects.trans hextends,
        hstack.trans hgrows.stack, hlast⟩

/-! ### Lists and maps -/

/-- Providers that come to what is expected of each come to all of it by `Run.inTurn`, up to the
first fault, as `collect` has it. -/
theorem inTurn_comes {α : Type} {provider : α → Provider ρ} {items : List α}
    {expected : List (Except Fault (Value π))} (hlength : items.length = expected.length)
    (hitems : ∀ (index : Nat) (item : α) (result : Except Fault (Value π)),
      items[index]? = some item → expected[index]? = some result →
      host.Serves s opened stack (fun answer => answer (.produce s.id (provider item))) result)
    (hcoherent : w.Coherent s opened) (hstack : w.stack = stack) :
    ∃ outcome after,
      host.Yields (fun answer => Run.inTurn (fun item => answer (.produce s.id (provider item))) items)
        w outcome after ∧
      after.Coherent s opened ∧ w.Extends after ∧ after.stack = w.stack ∧
      Accord (List.Forall₂ after.Holds) outcome (collect expected) := by
  induction items generalizing w expected with
  | nil =>
    rw [List.length_nil] at hlength
    rw [List.eq_nil_of_length_eq_zero hlength.symm]
    exact ⟨.ok [], w, .pure _ w, hcoherent, .refl w, rfl, .ok .nil⟩
  | cons item rest ih =>
    cases expected with
    | nil => cases hlength
    | cons result results =>
      obtain ⟨outcome, between, hfirst, hbetween, hextends, hkept, hshows⟩ :=
        hitems 0 item result rfl rfl w hcoherent hstack
      cases hshows with
      | error halike =>
        exact ⟨_, between, .bind hfirst (.pure _ between), hbetween, hextends, hkept,
          .error halike⟩
      | ok hholds =>
        -- the rest starts where this one has left the world, and adds to it
        have hrest := ih (Nat.succ.inj hlength) (fun index => hitems (index + 1)) hbetween
          (hkept.trans hstack)
        obtain ⟨outcomes, after, hyields, hafter, hmore, hlast, hagree⟩ := hrest
        show ∃ outcome after, _ ∧ _ ∧ _ ∧ _ ∧
          Accord _ outcome ((collect results).map (_ :: ·))
        generalize collect results = collected at hagree ⊢
        cases hagree with
        | error halike =>
          exact ⟨_, after, .bind hfirst (.bind hyields (.pure _ after)), hafter,
            hextends.trans hmore, hlast.trans hkept, .error halike⟩
        | ok hall =>
          exact ⟨_, after, .bind hfirst (.bind hyields (.pure _ after)), hafter,
            hextends.trans hmore, hlast.trans hkept, .ok (.cons (hholds.mono hmore) hall)⟩

variable {resolve : Key → Except Fault (Value π)} {parts : List (Meaning π)}

/-- The results of parts are what is expected in turn, for `Meaning.all` collects them. -/
theorem serves_of_parts {α : Type} {provider : α → Provider ρ} {items : List α}
    (hitems : ∀ (index : Nat) (item : α) (part : Meaning π),
      items[index]? = some item → parts[index]? = some part →
      host.Serves s opened stack (fun answer => answer (.produce s.id (provider item)))
        (part.result resolve)) :
    ∀ (index : Nat) (item : α) (result : Except Fault (Value π)), items[index]? = some item →
      (parts.map (·.result resolve))[index]? = some result →
      host.Serves s opened stack (fun answer => answer (.produce s.id (provider item))) result := by
  intro index item result hitem hresult
  rw [List.getElem?_map] at hresult
  obtain ⟨part, hpart, rfl⟩ := Option.map_eq_some_iff.1 hresult
  exact hitems index item part hitem hpart

/-- A list comes to what its entries come to, in the order of `Roster.order`. -/
theorem assembleList_comes {roster : RosterId} {entries : List (Entry (Provider ρ))}
    (horder : (s.base.roster roster).order = .ok entries) (hlength : entries.length = parts.length)
    (hentries : ∀ (index : Nat) (entry : Entry (Provider ρ)) (part : Meaning π),
      entries[index]? = some entry → parts[index]? = some part →
      host.Serves s opened stack (fun answer => answer (.produce s.id entry.provider))
        (part.result resolve))
    (hcoherent : w.Coherent s opened) (hstack : w.stack = stack) :
    host.Comes s opened (fun answer => Engine.assembleList answer s.id roster) w
      ((Meaning.all parts .list).result resolve) := by
  have hordered : w.ordered roster = (.ok entries, w) :=
    World.ordered_of_ok (hcoherent.roster_eq roster ▸ horder)
  have hlength' : entries.length = (parts.map (·.result resolve)).length := by
    rw [List.length_map, hlength]
  have hturn := inTurn_comes hlength' (serves_of_parts hentries)
    (hcoherent.note (.producingList (w.roster roster).list entries.length)) hstack
  obtain ⟨outcome, between, hyields, hbetween, hextends, hkept, hagree⟩ := hturn
  show host.Comes s opened _ w ((collect (parts.map (·.result resolve))).map .list)
  generalize collect (parts.map (·.result resolve)) = collected at hagree ⊢
  cases hagree with
  | error halike =>
    exact ⟨_, between, .bind (.now hordered) (.bind (.change _ w) (.bind hyields (.pure _ between))),
      hbetween, hextends, hkept, .error halike⟩
  | @ok objects values hall =>
    -- the list itself is one more object, and those in it hold what they held
    have hgrows := between.grows_allocate (.list objects)
    have hlast : (between.allocate (.list objects)).2.Holds (between.allocate (.list objects)).1
        (.list values) :=
      World.holds_list (between.content?_allocate _) (hall.imp fun _ _ h => h.mono hgrows.objects)
    exact ⟨_, _, .bind (.now hordered) (.bind (.change _ w) (.bind hyields
      (.bind (.now rfl) (.pure _ _)))), hbetween.of_grows hgrows, hextends.trans hgrows.objects,
      hkept, .ok hlast⟩

/-- A map comes to what its entries come to, under their names, in the order of
`Catalog.entries`. -/
theorem assembleMap_comes {catalog : CatalogId}
    (hlength : (s.base.catalog catalog).entries.rows.length = parts.length)
    (hrows : ∀ (index : Nat) (row : String × Provider ρ) (part : Meaning π),
      (s.base.catalog catalog).entries.rows[index]? = some row → parts[index]? = some part →
      host.Serves s opened stack (fun answer => answer (.produce s.id row.2)) (part.result resolve))
    (hcoherent : w.Coherent s opened) (hstack : w.stack = stack) :
    host.Comes s opened (fun answer => Engine.assembleMap answer s.id catalog) w
      ((Meaning.all parts fun values =>
        .map ((s.base.catalog catalog).entries.names.zip values)).result resolve) := by
  have hread : (((w.catalog catalog).entries.rows, w) : _ × World ρ σ π) =
      ((s.base.catalog catalog).entries.rows, w) := by
    rw [hcoherent.catalog_eq]
  have hlength' : (s.base.catalog catalog).entries.rows.length =
      (parts.map (·.result resolve)).length := by
    rw [List.length_map, hlength]
  obtain ⟨outcome, between, hyields, hbetween, hextends, hkept, hagree⟩ :=
    inTurn_comes hlength' (serves_of_parts hrows) hcoherent hstack
  show host.Comes s opened _ w ((collect (parts.map (·.result resolve))).map _)
  generalize collect (parts.map (·.result resolve)) = collected at hagree ⊢
  cases hagree with
  | error halike =>
    exact ⟨_, between, .bind (.now hread) (.bind hyields (.pure _ between)), hbetween, hextends,
      hkept, .error halike⟩
  | @ok objects values hall =>
    let content : Content π := .map ⟨(s.base.catalog catalog).entries.names.zip objects⟩
    have hgrows := between.grows_allocate content
    have hlast := World.holds_map (between.content?_allocate content)
      (hall.imp fun _ _ h => h.mono hgrows.objects)
    exact ⟨_, _, .bind (.now hread) (.bind hyields (.bind (.now rfl) (.pure _ _))),
      hbetween.of_grows hgrows, hextends.trans hgrows.objects, hkept, .ok hlast⟩

/-! ### Providers -/

/-- A provider of plain wiring comes to what it means by `Provider.Means`, if the keys that it asks
for by `Meaning.uses` come to what is expected of them. Induction on the rules of `Means`. -/
theorem produce_comes {provider : Provider ρ} {m : Meaning π}
    (hmeans : provider.Means host s.base m)
    (hresolve : ∀ key, m.uses key →
      host.Serves s opened stack (fun answer => answer (.resolve s.id key)) (resolve key)) :
    host.Serves s opened stack (fun answer => answer (.produce s.id provider))
      (m.result resolve) := by
  induction hmeans with
  | fixed hholds =>
    intro w hcoherent _
    exact ⟨_, w, .produce (.pure _ w), hcoherent, .refl w, rfl,
      .ok (hholds.mono hcoherent.objects)⟩
  -- the one case that asks for a key; all others pass on what their parts ask for
  | lookup key =>
    intro w hcoherent hstack
    obtain ⟨outcome, after, hyields, hrest⟩ := hresolve key rfl w hcoherent hstack
    exact ⟨outcome, after, .produce hyields, hrest⟩
  | decorating _ hstages ih =>
    rename_i delegate stages m f _
    intro w hcoherent hstack
    obtain ⟨outcome, between, hfirst, hbetween, hextends, hkept, hshows⟩ :=
      ih hresolve w hcoherent hstack
    show host.Comes s opened _ w ((m.result resolve).bind f)
    generalize m.result resolve = expected at hshows ⊢
    cases hshows with
    | error halike =>
      exact ⟨_, between, .produce (.bind hfirst (.pure _ between)), hbetween, hextends, hkept,
        .error halike⟩
    | ok hholds =>
      obtain ⟨last, after, hyields, hafter, hmore, hlast, hshows⟩ :=
        through_comes hstages hbetween hholds
      exact ⟨last, after, .produce (.bind hfirst hyields), hafter, hextends.trans hmore,
        hlast.trans hkept, hshows⟩
  | list horder hlength _ ih =>
    intro w hcoherent hstack
    have hentries := assembleList_comes horder hlength (fun index entry part hentry hpart =>
      ih index entry part hentry hpart fun key huses =>
        hresolve key ⟨part, List.mem_of_getElem? hpart, huses⟩) hcoherent hstack
    obtain ⟨outcome, after, hyields, hrest⟩ := hentries
    exact ⟨outcome, after, .produce hyields, hrest⟩
  | disordered horder halike =>
    rename_i roster fault other
    intro w hcoherent _
    have hordered : w.ordered roster = (.error fault, w.note (.fault fault)) :=
      World.ordered_of_error (hcoherent.roster_eq roster ▸ horder)
    exact ⟨_, _, .produce (.bind (.now hordered) (.pure _ _)), hcoherent.note _,
      World.extends_of_objects rfl, rfl, .error halike⟩
  | map hlength _ ih =>
    intro w hcoherent hstack
    have hrows := assembleMap_comes hlength (fun index row part hrow hpart =>
      ih index row part hrow hpart fun key huses =>
        hresolve key ⟨part, List.mem_of_getElem? hpart, huses⟩) hcoherent hstack
    obtain ⟨outcome, after, hyields, hrest⟩ := hrows
    exact ⟨outcome, after, .produce hyields, hrest⟩

end Wiring
