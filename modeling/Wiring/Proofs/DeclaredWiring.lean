import Wiring.Proofs.Defects
import Wiring.Proofs.PlainProduction
import Wiring.Proofs.RegistryHistory

/-!
# Resolving declared wiring

Wiring is declared where providers are instances, lookups, decorations that always succeed, lists
and maps (`Provider.Declared`). Resolving a key of such wiring is the walk through the trees that
are bound (`resolve_explores`): it gives an object where the walk is `World.Clear`, and else the
fault of the first defect that the walk `World.Meets`. A singleton that has kept an object cuts the
walk short, and what it cuts off is clear on every way that leads there (`World.Clear.of_bound`). So
resolving succeeds just if no defect can be reached (`resolution_exact`).

What singletons have kept is known by `World.Sustains`, which is `World.Honours` on the terms of a
clear walk.

* **`Host.Explores`** — a part comes to what `World.Reports` tells of the walk; `produce_explores`
  is for providers and `resolve_explores` for keys.
* **`World.Keeps`** — what stages have to leave alone, so that the walk can be told in the world
  before.
-/

namespace Wiring

variable {ρ σ π : Type}

namespace World

def Has (w : World ρ σ π) (object : Ref) : Prop :=
  object.index < w.objects.size

/-- The wiring is left alone and no object goes away by `World.Has`, whatever becomes of what
objects hold. -/
structure Keeps (w after : World ρ σ π) : Prop where
  objects : w.objects.size ≤ after.objects.size
  injectors : after.injectors = w.injectors
  slots : after.slots = w.slots
  rosters : after.rosters = w.rosters
  catalogs : after.catalogs = w.catalogs
  stack : after.stack = w.stack

end World

/-! ### Declared wiring -/

/-- The stage succeeds on every object and leaves the wiring alone by `World.Keeps`. -/
def Host.Succeeds (host : Host ρ σ π) (id : InjectorId) : Stage ρ → Prop
  | .memberInjection _ => True
  | .routine routine => ∀ (w : World ρ σ π) (object : Ref), w.Has object → ∃ next after,
      host.Yields (fun answer => (host.stage routine id object).run answer) w (.ok next) after ∧
        w.Keeps after ∧ after.Has next

/-- The provider is a finite tree of instances, lookups, decorations whose stages `Succeeds`, lists
and maps. -/
inductive Provider.Declared (host : Host ρ σ π) (w : World ρ σ π) (id : InjectorId) :
    Provider ρ → Prop
  | fixed {object : Ref} (hobject : w.Has object) : Declared host w id (.fixed object)
  | lookup (key : Key) : Declared host w id (.lookup key)
  | decorating {delegate : Provider ρ} {stages : List (Stage ρ)}
      (hdelegate : Declared host w id delegate) (hstages : ∀ stage ∈ stages, host.Succeeds id stage) :
      Declared host w id (.decorating delegate stages)
  | list {roster : RosterId}
      (hentries : ∀ entry ∈ (w.roster roster).entries, Declared host w id entry.provider) :
      Declared host w id (.list roster)
  | map {catalog : CatalogId}
      (hrows : ∀ row ∈ (w.catalog catalog).entries.rows, Declared host w id row.2) :
      Declared host w id (.map catalog)

/-- A singleton has kept an object only if the walk through its tree was clear, in the sense of
`World.Clear`, on some way to it. What objects hold may change, as long as none goes away. -/
def Layout.terms (l : Layout ρ σ π) : Terms ρ σ π where
  Later w after := w.objects.size ≤ after.objects.size
  Suits w key object := w.Has object ∧ ∃ path, l.base.Clear l.view path (.lookup key)
  of_objects hobjects := Nat.le_of_eq (congrArg Array.size hobjects).symm
  trans := Nat.le_trans
  mono hlater := fun ⟨hhas, hclear⟩ => ⟨Nat.lt_of_lt_of_le hhas hlater, hclear⟩

namespace World

/-- What is known while keys of declared wiring are resolved. `opened` are the singletons at work. -/
abbrev Sustains (w : World ρ σ π) (l : Layout ρ σ π) (opened : List Key) : Prop :=
  w.Honours l l.terms opened

variable {w after : World ρ σ π} {l : Layout ρ σ π} {opened path : List Key} {key : Key}
variable {r : Registration ρ} {object : Ref}

theorem Has.mono (h : w.Has object) (hobjects : w.objects.size ≤ after.objects.size) :
    after.Has object :=
  Nat.lt_of_lt_of_le h hobjects

theorem Sustains.of_keeps (h : w.Sustains l opened) (hkeeps : w.Keeps after) : after.Sustains l opened :=
  h.of_kept hkeeps.objects hkeeps.injectors hkeeps.slots hkeeps.rosters hkeeps.catalogs

theorem Sustains.allocate (h : w.Sustains l opened) (content : Content π) :
    (w.allocate content).2.Sustains l opened := by
  have hobjects : w.objects.size ≤ (w.allocate content).2.objects.size := by simp [World.allocate]
  exact h.of_kept hobjects rfl rfl rfl rfl

/-- The outcome is the one that the walk through the tree tells: an object if it is `Clear`, and
else the fault of the first defect that it `Meets`. -/
inductive Reports (w : World ρ σ π) (l : Layout ρ σ π) (path : List Key) (provider : Provider ρ) :
    Except Fault Ref → Prop
  | ok {object : Ref} (hobject : w.Has object) (hclear : l.base.Clear l.view path provider) :
      Reports w l path provider (.ok object)
  | error {fault : Fault} (hmeets : l.base.Meets l.view path provider fault) :
      Reports w l path provider (.error fault)

theorem Reports.mono {provider : Provider ρ} {outcome : Except Fault Ref}
    (h : w.Reports l path provider outcome) (hobjects : w.objects.size ≤ after.objects.size) :
    after.Reports l path provider outcome := by
  cases h with
  | ok hobject hclear => exact .ok (hobject.mono hobjects) hclear
  | error hmeets => exact .error hmeets

end World

/-- Wherever what is known by `World.Sustains` holds, with the keys of `path` on the stack, the part
comes to an outcome that the walk `Reports`, and what is known holds still. -/
def Host.Explores (host : Host ρ σ π) (l : Layout ρ σ π) (opened path : List Key)
    (part : ((request : Request ρ σ π) → Run ρ σ π request.Answer) → Run ρ σ π (Except Fault Ref))
    (provider : Provider ρ) : Prop :=
  ∀ w : World ρ σ π, w.Sustains l opened → w.stack = path → ∃ outcome after,
    host.Yields part w outcome after ∧ after.Sustains l opened ∧ after.stack = path ∧
      after.Reports l path provider outcome

variable {host : Host ρ σ π} {l : Layout ρ σ π} {w : World ρ σ π} {opened path : List Key}
variable {key : Key} {r : Registration ρ} {provider : Provider ρ}

/-! ### Trees -/

/-- Stages that succeed by `Host.Succeeds` give an object, led through by `Run.through`. -/
theorem through_succeeds {stages : List (Stage ρ)} (hstages : ∀ stage ∈ stages, host.Succeeds l.id stage)
    (hsustains : w.Sustains l opened) (hstack : w.stack = path) {object : Ref} (hobject : w.Has object) :
    ∃ last after,
      host.Yields (fun answer => Run.through (Engine.complete host answer l.id) stages object) w
        (.ok last) after ∧
      after.Sustains l opened ∧ after.stack = path ∧ after.Has last := by
  induction stages generalizing w object with
  | nil => exact ⟨object, w, .pure _ w, hsustains, hstack, hobject⟩
  | cons stage stages ih =>
    have hrest := fun later hlater => hstages later (.tail _ hlater)
    cases stage with
    | memberInjection type =>
      obtain ⟨last, after, hyields, hafter⟩ := ih hrest hsustains hstack hobject
      have hinject : host.Yields (fun answer => answer (.injectMembers l.id type object)) w (.ok ()) w :=
        yields_injectMembers hsustains.hooks type object
      exact ⟨last, after, .bind (.bind hinject (.pure (.ok object : Except Fault Ref) w)) hyields, hafter⟩
    | routine routine =>
      obtain ⟨next, between, hfirst, hkeeps, hnext⟩ := hstages _ (.head _) w object hobject
      obtain ⟨last, after, hyields, hafter⟩ :=
        ih hrest (hsustains.of_keeps hkeeps) (hkeeps.stack.trans hstack) hnext
      exact ⟨last, after, .bind hfirst hyields, hafter⟩

/-- What the walk through several trees one after the other tells: all are `Clear`, or it is the
fault of the first that is not. -/
inductive World.ReportsAll {α : Type} (l : Layout ρ σ π) (path : List Key) (provider : α → Provider ρ)
    (items : List α) : Except Fault (List Ref) → Prop
  | ok {objects : List Ref} (hclear : ∀ item ∈ items, l.base.Clear l.view path (provider item)) :
      ReportsAll l path provider items (.ok objects)
  | error {before after : List α} {item : α} {fault : Fault} (hitems : items = before ++ item :: after)
      (hbefore : ∀ item ∈ before, l.base.Clear l.view path (provider item))
      (hmeets : l.base.Meets l.view path (provider item) fault) :
      ReportsAll l path provider items (.error fault)

/-- Providers that explore their trees explore them by `Run.inTurn`, up to the first defect. -/
theorem inTurn_explores {α : Type} {provider : α → Provider ρ} {items : List α}
    (hitems : ∀ item ∈ items,
      host.Explores l opened path (fun answer => answer (.produce l.id (provider item))) (provider item))
    (hsustains : w.Sustains l opened) (hstack : w.stack = path) :
    ∃ outcome after,
      host.Yields (fun answer => Run.inTurn (fun item => answer (.produce l.id (provider item))) items)
        w outcome after ∧
      after.Sustains l opened ∧ after.stack = path ∧ World.ReportsAll l path provider items outcome := by
  induction items generalizing w with
  | nil => exact ⟨.ok [], w, .pure _ w, hsustains, hstack, .ok fun _ hitem => nomatch hitem⟩
  | cons item rest ih =>
    obtain ⟨outcome, between, hfirst, hbetween, hkept, hreports⟩ := hitems item (.head _) w hsustains hstack
    cases hreports with
    | error hmeets =>
      have hnone : ∀ item ∈ [], l.base.Clear l.view path (provider item) := fun _ hitem => nomatch hitem
      exact ⟨_, between, .bind hfirst (.pure _ between), hbetween, hkept,
        .error (List.nil_append (item :: rest)).symm hnone hmeets⟩
    | ok _ hclear =>
      obtain ⟨outcomes, after, hyields, hafter, hlast, hall⟩ :=
        ih (fun later hlater => hitems later (.tail _ hlater)) hbetween hkept
      -- this item is clear, so the first defect of the rest is the first of all
      cases hall with
      | @error before later found fault hsplit hbefore hmeets =>
        have hmore : item :: rest = (item :: before) ++ found :: later := congrArg (item :: ·) hsplit
        exact ⟨_, after, .bind hfirst (.bind hyields (.pure _ after)), hafter, hlast,
          .error hmore (List.forall_mem_cons.2 ⟨hclear, hbefore⟩) hmeets⟩
      | ok hclears =>
        exact ⟨_, after, .bind hfirst (.bind hyields (.pure _ after)), hafter, hlast,
          .ok (List.forall_mem_cons.2 ⟨hclear, hclears⟩)⟩

/-- A list explores its entries in the order of `Roster.order`, unless their order contradicts
itself. -/
theorem list_explores {roster : RosterId}
    (hentries : ∀ entry ∈ (l.base.roster roster).entries, host.Explores l opened path
      (fun answer => answer (.produce l.id entry.provider)) entry.provider) :
    host.Explores l opened path (fun answer => answer (.produce l.id (.list roster)))
      (.list roster) := by
  intro w hsustains hstack
  have hroster := hsustains.roster_eq roster
  cases horder : (l.base.roster roster).order with
  | error fault =>
    exact ⟨_, _, .produce (.bind (.now (World.ordered_of_error (hroster ▸ horder))) (.pure _ _)), hsustains.note _, hstack,
      .error (.disordered horder)⟩
  | ok entries =>
    have hordered : w.ordered roster = (.ok entries, w) := World.ordered_of_ok (hroster ▸ horder)
    have hmem {entry : Entry (Provider ρ)} (hentry : entry ∈ entries) :
        entry ∈ (l.base.roster roster).entries := (Roster.order_perm horder).mem_iff.1 hentry
    obtain ⟨outcome, between, hyields, hbetween, hkept, hall⟩ :=
      inTurn_explores (fun entry hentry => hentries entry (hmem hentry))
        (hsustains.note (.producingList (w.roster roster).list entries.length)) hstack
    cases hall with
    | error hsplit hbefore hmeets =>
      exact ⟨_, between, .produce (.bind (.now hordered) (.bind (.change _ w) (.bind hyields
        (.pure _ between)))), hbetween, hkept, .error (.entry (hsplit ▸ horder) hbefore hmeets)⟩
    | @ok objects hclear =>
      exact ⟨_, _, .produce (.bind (.now hordered) (.bind (.change _ w) (.bind hyields
        (.bind (.now rfl) (.pure _ _))))), hbetween.allocate (.list objects), hkept,
        .ok (by simp [World.Has]) (.list horder hclear)⟩

theorem map_explores {catalog : CatalogId}
    (hrows : ∀ row ∈ (l.base.catalog catalog).entries.rows, host.Explores l opened path
      (fun answer => answer (.produce l.id row.2)) row.2) :
    host.Explores l opened path (fun answer => answer (.produce l.id (.map catalog)))
      (.map catalog) := by
  intro w hsustains hstack
  have hread : (((w.catalog catalog).entries.rows, w) : _ × World ρ σ π) =
      ((l.base.catalog catalog).entries.rows, w) := by
    rw [hsustains.catalog_eq]
  obtain ⟨outcome, between, hyields, hbetween, hkept, hall⟩ := inTurn_explores hrows hsustains hstack
  cases hall with
  | error hsplit hbefore hmeets =>
    exact ⟨_, between, .produce (.bind (.now hread) (.bind hyields (.pure _ between))), hbetween,
      hkept, .error (.row hsplit hbefore hmeets)⟩
  | @ok objects hclear =>
    exact ⟨_, _, .produce (.bind (.now hread) (.bind hyields (.bind (.now rfl) (.pure _ _)))),
      hbetween.allocate _, hkept, .ok (by simp [World.Has]) (.map hclear)⟩

/-- A provider of declared wiring explores its tree, if the keys that it asks for explore theirs.
Induction on the rules of `Provider.Declared`. -/
theorem produce_explores (hdeclared : provider.Declared host l.base l.id)
    (hresolve : ∀ key, provider.Contains l.base (.lookup key) →
      host.Explores l opened path (fun answer => answer (.resolve l.id key)) (.lookup key)) :
    host.Explores l opened path (fun answer => answer (.produce l.id provider)) provider := by
  -- over the tree of the provider; the keys that it asks for have trees of their own
  induction hdeclared with
  | @fixed object hobject =>
    intro w hsustains hstack
    exact ⟨_, w, .produce (.pure _ w), hsustains, hstack,
      .ok (hobject.mono hsustains.objects) (.fixed path object)⟩
  | lookup key =>
    intro w hsustains hstack
    obtain ⟨outcome, after, hyields, hrest⟩ := hresolve key (.self _) w hsustains hstack
    exact ⟨outcome, after, .produce hyields, hrest⟩
  | decorating _ hstages ih =>
    intro w hsustains hstack
    obtain ⟨outcome, between, hfirst, hbetween, hkept, hreports⟩ :=
      ih (fun key hcontains => hresolve key (.delegate hcontains)) w hsustains hstack
    cases hreports with
    | error hmeets =>
      exact ⟨_, between, .produce (.bind hfirst (.pure _ between)), hbetween, hkept,
        .error (.decorating hmeets)⟩
    | ok hobject hclear =>
      obtain ⟨last, after, hyields, hafter, hlast, hhas⟩ :=
        through_succeeds hstages hbetween hkept hobject
      exact ⟨_, after, .produce (.bind hfirst hyields), hafter, hlast, .ok hhas (.decorating hclear)⟩
  | list _ ih =>
    exact list_explores fun entry hentry =>
      ih entry hentry fun key hcontains => hresolve key (.entry hentry hcontains)
  | map _ ih =>
    exact map_explores fun row hrow =>
      ih row hrow fun key hcontains => hresolve key (.row hrow hcontains)

/-! ### Keys -/

/-- What is bound under a key that was clear on another way is clear on this one, by
`Clear.of_path`: it would not have been if the key led back to a key of this way. -/
theorem World.Clear.of_bound {other : List Key} (hclear : l.base.Clear l.view other (.lookup key))
    (hview : l.view key = some r)
    (hleads : ∀ passed ∈ path, Relation.TransGen (l.base.DependsOn l.view) passed key) :
    l.base.Clear l.view (path ++ [key]) r.provider := by
  have hsound := (hclear.sound.2 key (.self _) key .refl).2
  cases hclear with
  | lookup _ hview' hbelow =>
    obtain rfl := Option.some.inj (hview.symm.trans hview')
    refine hbelow.of_path fun next hcontains passed hreach hpassed => ?_
    have hdepends : l.base.DependsOn l.view key next := ⟨r, hview, hcontains⟩
    have hself : Relation.TransGen (l.base.DependsOn l.view) key key := by
      rcases List.mem_append.1 hpassed with hmem | hlast
      · exact .trans (.head' hdepends hreach) (hleads passed hmem)
      · rw [List.mem_singleton.1 hlast] at hreach
        exact .head' hdepends hreach
    exact hsound (.cyclic hself)

/-- The effective provider of a bound key explores the tree of the key, whether it is a singleton
that has kept an object or not, by `Clear.of_bound`. -/
theorem effective_explores (hview : l.view key = some r) (hkey : key ∉ path)
    (hopened : ∀ other ∈ opened, other ∈ path)
    (hleads : ∀ passed ∈ path, Relation.TransGen (l.base.DependsOn l.view) passed key)
    (hproduce : ∀ more, (∀ other ∈ more, other ∈ path ++ [key]) →
      host.Explores l more (path ++ [key]) (fun answer => answer (.produce l.id r.provider)) r.provider) :
    host.Explores l opened (path ++ [key])
      (fun answer => answer (.produce l.id (Registration.wrapped r.scope (l.slots key) key r.provider)))
      r.provider := by
  have hold : ∀ other ∈ opened, other ∈ path ++ [key] :=
    fun other hother => List.mem_append_left _ (hopened other hother)
  cases hscope : r.scope with
  | noScope => exact hproduce opened hold
  | singleton =>
    intro w hsustains hstack
    have hidle : key ∉ opened := fun hmem => hkey (hopened key hmem)
    cases hslot : w.slot (l.slots key) with
    -- a singleton at work would be on the path
    | busy => exact absurd (hsustains.busy key r hview hscope hslot) hidle
    | filled object =>
      -- the object was kept on the way to some other key, and what was clear there is clear here
      obtain ⟨hobject, other, hclear⟩ := hsustains.filled key r hview hscope object hslot
      exact ⟨_, w, .produce (.single_of_filled hslot), hsustains, hstack,
        .ok hobject (hclear.of_bound hview hleads)⟩
    | empty =>
      obtain ⟨graph, hawait, hwaiting⟩ := hsustains.awaitKey hidle
      have hall : ∀ other ∈ opened ++ [key], other ∈ path ++ [key] := by
        intro other hother
        rcases List.mem_append.1 hother with hopen | hlast
        · exact hold other hopen
        · exact List.mem_append_right _ hlast
      obtain ⟨outcome, made, hyields, hmade, hkept, hreports⟩ :=
        hproduce _ hall _ (hwaiting.beginning hview hscope key.type) hstack
      have hsuits (object : Ref) (hobject : outcome = .ok object) : l.terms.Suits made key object := by
        subst hobject
        cases hreports with
        | ok hhas hclear => exact ⟨hhas, path, .lookup hkey hview hclear⟩
      exact ⟨outcome, _, .produce (.single_of_empty hslot hawait hslot hyields),
        hmade.givenBack hview hscope hsuits, hkept, hreports.mono (Nat.le_refl _)⟩

variable {bound : List Key} {room : Nat}

/-- Resolving a key explores the tree that is bound under it. The induction is on the room that the
stack leaves for bound keys, by `ResolveStack.Fits`. -/
theorem resolve_explores
    (hdeclared : ∀ key r, l.view key = some r → r.provider.Declared host l.base l.id)
    (hbound : ∀ key r, l.view key = some r → key ∈ bound) (hfits : ResolveStack.Fits bound room path)
    (hopened : ∀ other ∈ opened, other ∈ path)
    (hleads : ∀ passed ∈ path, Relation.TransGen (l.base.DependsOn l.view) passed key) :
    host.Explores l opened path (fun answer => answer (.resolve l.id key)) (.lookup key) := by
  induction room using Nat.strong_induction_on generalizing path opened key with
  | _ room ih =>
    intro w hsustains hstack
    by_cases hkey : key ∈ path
    · have hpush := World.pushKey_of_mem hstack hkey
      exact ⟨_, _, .resolve_of_refused hpush, hsustains.note _, hstack, .error (.cycle hkey)⟩
    · have hpush := World.pushKey_of_not_mem hstack hkey
      have hpushed := (hsustains.switchTo w.thread (path ++ [key])).note (.resolving key)
      cases hview : l.view key with
      | none =>
        have hprovider := hpushed.represents.providerOf_of_unbound hview
        refine ⟨_, _, .resolve_of_unbound hpush hprovider, (hpushed.note _).switchTo _ _, ?_,
          .error (.unbound hkey hview)⟩
        exact ResolveStack.pop_append_singleton path key
      | some r =>
        have hprovider := hpushed.represents.providerOf_of_view hview
        obtain ⟨less, rfl, hmore⟩ := hfits.push (hbound key r hview) hkey
        have heffective := effective_explores hview hkey hopened hleads fun more hsub =>
          produce_explores (hdeclared key r hview) fun next hcontains =>
            ih less (Nat.lt_succ_self less) hmore hsub ?_
        · obtain ⟨outcome, made, hyields, hmade, hkept, hreports⟩ := heffective _ hpushed rfl
          refine ⟨outcome, made.popKey, .resolve_of_bound hpush hprovider hyields,
            hmade.switchTo _ _, ?_, ?_⟩
          · show ResolveStack.pop made.stack = path
            rw [hkept, ResolveStack.pop_append_singleton]
          · cases hreports with
            | ok hobject hclear => exact .ok hobject (.lookup hkey hview hclear)
            | error hmeets => exact .error (.inner hkey hview hmeets)
        · -- the keys on the way lead to this one, and this one to those that its tree asks for
          intro passed hpassed
          have hdepends : l.base.DependsOn l.view key next := ⟨r, hview, hcontains⟩
          rcases List.mem_append.1 hpassed with hmem | hlast
          · exact (hleads passed hmem).tail hdepends
          · rw [List.mem_singleton.1 hlast]
            exact .single hdepends

variable {id : InjectorId} {view : RegistryView ρ} {slots : Key → SlotId}

/-- Resolving a key of declared wiring gives an object just if no key that it reaches is
`Defective`. Else it gives the fault of the first defect that the walk from the key `Meets`; if that
is a cycle, its chain is the way from the key to the one that comes again. -/
theorem resolution_exact (hready : w.Ready id view slots)
    (hdeclared : ∀ key r, view key = some r → r.provider.Declared host w id) (key : Key) :
    ∃ outcome after, host.Yields (fun answer => answer (.resolve id key)) w outcome after ∧
      ((∃ object, outcome = .ok object) ↔ ∀ other, w.Reaches view key other → ¬ w.Defective view other) ∧
      (∀ fault, outcome = .error fault ↔ w.Meets view [] (.lookup key) fault) ∧
      ∀ chain, outcome = .error (.cyclicBinding chain) → ∃ passed repeated,
        chain = passed ++ [repeated] ∧ passed.head? = some key ∧ passed.Nodup ∧ repeated ∈ passed ∧
          chain.IsChain (w.DependsOn view) := by
  let l : Layout ρ σ π := ⟨w, id, view, slots⟩
  have hfits : ResolveStack.Fits (w.injector id).bindings.keys (w.injector id).bindings.keys.length [] :=
    ⟨List.nodup_nil, fun _ h => (nomatch h), Nat.le_of_eq (Nat.zero_add _).symm⟩
  have hbound (key : Key) (r : Registration ρ) (hview : view key = some r) :
      key ∈ (w.injector id).bindings.keys := by
    by_contra hmem
    have hnone := Table.get?_eq_none_iff.2 hmem
    rw [hready.represents.get?_eq_some hview] at hnone
    cases hnone
  have hsustains : w.Sustains l [] := hready.honours rfl
  obtain ⟨outcome, after, hyields, -, -, hreports⟩ :=
    resolve_explores hdeclared hbound hfits (fun _ h => h) (fun _ h => nomatch h) w hsustains hready.stack
  -- either the tree of the key is clear, or the walk meets a defect, and never both
  refine ⟨outcome, after, hyields, ?_, ?_, ?_⟩
  · cases hreports with
    | ok _ hclear => exact ⟨fun _ other hreach => hclear.not_defective hreach, fun _ => ⟨_, rfl⟩⟩
    | error hmeets =>
      obtain ⟨other, hreach, hdefective⟩ := hmeets.exists_defective
      exact ⟨fun ⟨_, hok⟩ => (nomatch hok), fun hnone => absurd hdefective (hnone other hreach)⟩
  · intro fault
    cases hreports with
    | ok _ hclear => exact ⟨fun h => (nomatch h), fun hmeets => absurd hclear hmeets.not_clear⟩
    | error hmeets =>
      refine ⟨?_, fun hfirst => congrArg _ (hmeets.unique hfirst)⟩
      rintro ⟨⟩
      exact hmeets
  · rintro chain rfl
    cases hreports with
    | error hmeets => exact hmeets.chain_of_start

/-! ### Relays -/

def relay (number : Nat) : Key := .ofObject (.plain "Relay") number

def relays : Key := ⟨.list (.plain "Relay"), none⟩

def relayMap : Key := ⟨.map (.plain "Relay"), none⟩

/-- Its stages replace what they are given by a new object, so each `Succeeds`. -/
def relayHost : Host Unit Unit Unit where
  make _ _ := pure (.ok default)
  stage _ _ _ := .ask (.act (.allocate (.plain ()))) fun next => pure (.ok next)
  hook _ _ _ := pure (.ok ())
  kind _ := default
  imports _ := []
  configure _ _ := pure (.ok ())

/-- The second relay is what its stage makes of the first. The third is whatever the map of
`relayWorld` is. -/
def relayTable : World Unit Unit Unit × RegistryView Unit :=
  World.registerAll ⟨0⟩
    [.bindInstance (relay 1) (.plain ()), .bindProvider (relay 2) (.lookup (relay 1)) .singleton,
      .decorate (relay 2) (.routine ()), .bindProvider (relay 3) (.lookup relayMap) .singleton,
      .listBuilder relays, .mapBuilder relayMap]
    ({ injectors := #[{}], memory := () }, fun _ => none)

/-- The list has the second relay of `relayTable` twice, and the map has the list and the third
relay. -/
def relayWorld : World Unit Unit Unit :=
  (((relayTable.1.enrol ⟨0⟩ (relay 12) (.lookup (relay 2))).enrol ⟨0⟩ (relay 22)
    (.lookup (relay 2))).putEntry ⟨0⟩ "a" (.lookup relays)).putEntry ⟨0⟩ "b" (.lookup (relay 3))

theorem relayTable_cases {key : Key} {r : Registration Unit} (h : relayTable.2 key = some r) :
    key ∈ [relay 1, relay 2, relay 3, relays, relayMap] := by
  by_contra hmem
  simp only [List.mem_cons, List.not_mem_nil, or_false, not_or] at hmem
  obtain ⟨h1, h2, h3, hlist, hmap⟩ := hmem
  simp [relayTable, World.registerAll, RegistryCall.after, h1, h2, h3, hlist, hmap] at h

theorem relayWorld_ready : ∃ slots, relayWorld.Ready ⟨0⟩ relayTable.2 slots := by
  have hstart : World.RegistryHistory ⟨0⟩ ({ injectors := #[{}], memory := () } : World Unit Unit Unit)
      fun _ => none := .start _ Nat.zero_lt_one rfl
  have hrelay : World.RegistryHistory ⟨0⟩ relayWorld relayTable.2 :=
    (hstart.registerAll _).meanwhile (by decide) rfl (Nat.le_refl _)
  obtain ⟨slots, hrep⟩ := hrelay.represents
  have hslots : relayWorld.slots = Array.replicate 3 .empty := rfl
  have hempty (slot : SlotId) : relayWorld.slot slot = .empty := by
    rw [World.slot, hslots, Array.getElem?_replicate]
    split
    · rfl
    · rfl
  exact ⟨slots, hrep, fun _ => rfl, fun _ _ _ _ => hempty _, rfl, rfl⟩

theorem relayHost_succeeds : relayHost.Succeeds ⟨0⟩ (.routine ()) := by
  intro w object _
  refine ⟨_, (w.allocate (.plain ())).2, .of_performs (.act (.done _ _)), ?_, ?_⟩
  · exact ⟨by simp [World.allocate], rfl, rfl, rfl, rfl, rfl⟩
  · show w.objects.size < (w.objects.push _).size
    simp

theorem relayTable_declared (key : Key) (r : Registration Unit) (h : relayTable.2 key = some r) :
    r.provider.Declared relayHost relayWorld ⟨0⟩ := by
  have hkey := relayTable_cases h
  simp only [List.mem_cons, List.not_mem_nil, or_false] at hkey
  rcases hkey with rfl | rfl | rfl | rfl | rfl
  · cases (show some _ = some r from h)
    exact .fixed Nat.zero_lt_one
  · cases (show some _ = some r from h)
    refine .decorating (.lookup (relay 1)) fun stage hstage => ?_
    obtain rfl := List.mem_singleton.1 hstage
    exact relayHost_succeeds
  · cases (show some _ = some r from h)
    exact .lookup relayMap
  · cases (show some _ = some r from h)
    show Provider.Declared relayHost relayWorld ⟨0⟩ (.list ⟨0⟩)
    refine .list fun entry hentry => ?_
    have hentries : (relayWorld.roster ⟨0⟩).entries =
        [⟨relay 12, .lookup (relay 2), [], []⟩, ⟨relay 22, .lookup (relay 2), [], []⟩] := rfl
    rw [hentries] at hentry
    simp only [List.mem_cons, List.not_mem_nil, or_false] at hentry
    rcases hentry with rfl | rfl
    · exact .lookup _
    · exact .lookup _
  · cases (show some _ = some r from h)
    show Provider.Declared relayHost relayWorld ⟨0⟩ (.map ⟨0⟩)
    refine .map fun row hrow => ?_
    have hrows : (relayWorld.catalog ⟨0⟩).entries.rows =
        [("a", .lookup relays), ("b", .lookup (relay 3))] := rfl
    rw [hrows] at hrow
    simp only [List.mem_cons, List.not_mem_nil, or_false] at hrow
    rcases hrow with rfl | rfl
    · exact .lookup _
    · exact .lookup _

/-- The list is found sound, and then the third relay asks for the map, so resolving `relayMap` is a
cycle. -/
theorem resolution_exact_of_relays :
    ∃ slots, relayWorld.Ready ⟨0⟩ relayTable.2 slots ∧
      (∀ key r, relayTable.2 key = some r → r.provider.Declared relayHost relayWorld ⟨0⟩) ∧
      ∃ outcome after,
        relayHost.Yields (fun answer => answer (.resolve ⟨0⟩ relayMap)) relayWorld outcome after ∧
        ((∃ object, outcome = .ok object) ↔
          ∀ other, relayWorld.Reaches relayTable.2 relayMap other →
            ¬ relayWorld.Defective relayTable.2 other) ∧
        (∀ fault, outcome = .error fault ↔
          relayWorld.Meets relayTable.2 [] (.lookup relayMap) fault) ∧
        ∀ chain, outcome = .error (.cyclicBinding chain) → ∃ passed repeated,
          chain = passed ++ [repeated] ∧ passed.head? = some relayMap ∧ passed.Nodup ∧
            repeated ∈ passed ∧ chain.IsChain (relayWorld.DependsOn relayTable.2) := by
  obtain ⟨slots, hready⟩ := relayWorld_ready
  exact ⟨slots, hready, relayTable_declared, resolution_exact hready relayTable_declared relayMap⟩

end Wiring
