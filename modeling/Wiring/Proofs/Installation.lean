import Wiring.Proofs.DepthFirst
import Wiring.Proofs.Yields

/-!
# What installing modules comes to

Installing a module configures the kinds that it needs and that are not marked, in `DepthFirst`
order, up to the first configuration that fails (`ModuleFamily.install_installs`). A `ModuleFamily`
says which kinds are needed and that configuring one of them installs nothing; how the
configurations of a call follow each other is told by `Host.Configures`, and what a run of calls did
by `ModuleFamily.History`.

A kind stays marked when its configuration fails, so no kind is ever configured twice
(`ModuleFamily.install_order`), and a later call skips it and still succeeds: what a successful call
says about the kinds it reaches is `ModuleFamily.configured_iff`.

* **`ModuleFamily.Installed`** — what an installation does to the marks and to the kinds that are
  configured, seen from outside.
* **`through_installs`** — modules one after the other; the induction is on `DepthFirst`, and each
  visit is `installs_of_marked` or `installs_of_not_marked`.
-/

namespace Wiring

variable {ρ σ π : Type}

/-! ### Configurations -/

/-- The kind that an event says is configured now, if it is `LogEvent.configuring`. -/
def LogEvent.configuration? : LogEvent → Option ModuleId
  | .configuring kind => some kind
  | _ => none

namespace World

/-- The kinds whose configuration has begun, in order, as `LogEvent.configuration?` reads them off
the log. -/
def configurations (w : World ρ σ π) : List ModuleId :=
  w.log.toList.filterMap LogEvent.configuration?

/-- The kinds that are marked as installed in the injector, a kind by its `ModuleId`. -/
def marked (w : World ρ σ π) (id : InjectorId) : Set ModuleId :=
  {kind | kind ∈ (w.injector id).installed}

@[simp] theorem configurations_note (w : World ρ σ π) (event : LogEvent) :
    (w.note event).configurations = w.configurations ++ event.configuration?.toList := by
  rw [configurations, configurations, note, Array.toList_push, List.filterMap_append]
  cases h : event.configuration? <;> simp [h]

@[simp] theorem configurations_markInstalled (w : World ρ σ π) (id : InjectorId)
    (kind : ModuleId) : (w.markInstalled id kind).configurations = w.configurations := rfl

@[simp] theorem marked_note (w : World ρ σ π) (id : InjectorId) (event : LogEvent) :
    (w.note event).marked id = w.marked id := rfl

theorem marked_markInstalled {w : World ρ σ π} {id : InjectorId} (kind : ModuleId)
    (h : id.index < w.injectors.size) :
    (w.markInstalled id kind).marked id = insert kind (w.marked id) := by
  ext other
  rw [marked, markInstalled, injector_modifyInjector_self w _ h]
  simp [marked, or_comm]

/-- What installing does to the world between two configurations: it marks kinds by `markInstalled`,
and it notes which ones are skipped. -/
inductive Marks (id : InjectorId) : World ρ σ π → World ρ σ π → Prop
  | refl (w : World ρ σ π) : Marks id w w
  | mark {w v : World ρ σ π} (kind : ModuleId) (h : Marks id (w.markInstalled id kind) v) :
      Marks id w v
  | skip {w v : World ρ σ π} (kind : ModuleId) (h : Marks id (w.note (.alreadyInstalled kind)) v) :
      Marks id w v

theorem Marks.trans {id : InjectorId} {w v u : World ρ σ π} (h : w.Marks id v) (h' : v.Marks id u) :
    w.Marks id u := by
  induction h with
  | refl _ => exact h'
  | mark kind _ ih => exact .mark kind (ih h')
  | skip kind _ ih => exact .skip kind (ih h')

end World

/-- Modules of these kinds are configured one after the other, with nothing but `World.Marks`
between. Each configuration succeeds, but for the last if the outcome is a fault: its own. -/
inductive Host.Configures (host : Host ρ σ π) (id : InjectorId) (member : ρ → Prop) :
    World ρ σ π → List ModuleId → Except Fault Unit → World ρ σ π → Prop
  | done {w after : World ρ σ π} (hmarks : w.Marks id after) : Configures host id member w [] (.ok ()) after
  | succeed {w before between after : World ρ σ π} {module : ρ} {kinds : List ModuleId}
      {outcome : Except Fault Unit} (hmarks : w.Marks id before) (hmember : member module)
      (hyields : host.Yields (fun answer => (host.configure module id).run answer)
        (before.note (.configuring (host.kind module))) (.ok ()) between)
      (hrest : Configures host id member between kinds outcome after) :
      Configures host id member w (host.kind module :: kinds) outcome after
  | fail {w before after : World ρ σ π} {module : ρ} {fault : Fault} (hmarks : w.Marks id before)
      (hmember : member module)
      (hyields : host.Yields (fun answer => (host.configure module id).run answer)
        (before.note (.configuring (host.kind module))) (.error fault) after) :
      Configures host id member w [host.kind module] (.error fault) after

namespace Host.Configures

variable {host : Host ρ σ π} {id : InjectorId} {member : ρ → Prop}
variable {w before between after : World ρ σ π} {kinds more : List ModuleId}
variable {outcome : Except Fault Unit} {module : ρ}

theorem after_marks (hmarks : w.Marks id before)
    (h : host.Configures id member before kinds outcome after) :
    host.Configures id member w kinds outcome after := by
  cases h with
  | done h => exact .done (hmarks.trans h)
  | succeed h hmember hyields hrest => exact .succeed (hmarks.trans h) hmember hyields hrest
  | fail h hmember hyields => exact .fail (hmarks.trans h) hmember hyields

theorem append (h : host.Configures id member w kinds (.ok ()) between)
    (hmore : host.Configures id member between more outcome after) :
    host.Configures id member w (kinds ++ more) outcome after := by
  generalize hok : (Except.ok () : Except Fault Unit) = first at h
  induction h with
  | done hmarks => exact hmore.after_marks hmarks
  | succeed hmarks hmember hyields _ ih => exact .succeed hmarks hmember hyields (ih hmore hok)
  | fail _ _ _ => cases hok

theorem single (hmember : member module)
    (hyields : host.Yields (fun answer => (host.configure module id).run answer)
      (w.note (.configuring (host.kind module))) outcome after) :
    host.Configures id member w [host.kind module] outcome after := by
  cases outcome with
  | ok _ => exact .succeed (.refl w) hmember hyields (.done (.refl after))
  | error fault => exact .fail (.refl w) hmember hyields

end Host.Configures

/-! ### Families of modules -/

/-- Modules that need only each other, by kind, and whose configurations come to an end and install
nothing, in each of the `sane` worlds. -/
structure ModuleFamily (host : Host ρ σ π) (id : InjectorId) where
  member : ρ → Prop
  /-- The kinds that a kind needs, in the order in which its modules import them. -/
  needs : ModuleId → List ModuleId
  /-- The worlds that can arise while modules of the family are installed. -/
  sane : World ρ σ π → Prop
  member_of_import : ∀ module, member module → ∀ needed ∈ host.imports module, member needed
  kinds_of_imports : ∀ module, member module →
    (host.imports module).map host.kind = needs (host.kind module)
  exists_of_sane : ∀ w, sane w → id.index < w.injectors.size
  sane_note : ∀ w event, sane w → sane (w.note event)
  sane_markInstalled : ∀ w kind, sane w → sane (w.markInstalled id kind)
  configure : ∀ module, member module → ∀ w, sane w → ∃ outcome after,
    host.Yields (fun answer => (host.configure module id).run answer) w outcome after ∧
    sane after ∧ (after.injector id).installed = (w.injector id).installed ∧
    after.configurations = w.configurations

namespace ModuleFamily

variable {host : Host ρ σ π} {id : InjectorId} (f : ModuleFamily host id)

/-- The second kind is the first or is needed by it by `Needs`, directly or by way of others. -/
def Reaches : ModuleId → ModuleId → Prop :=
  Relation.ReflTransGen (Needs f.needs)

/-- The part of the engine installs the kinds of `order` from the world `w`: it `Configures` those
of `ran`, and leaves out the `rest`. -/
structure Installed
    (part : ((request : Request ρ σ π) → Run ρ σ π request.Answer) → Run ρ σ π (Except Fault Unit))
    (w : World ρ σ π) (order ran rest : List ModuleId) (outcome : Except Fault Unit)
    (after : World ρ σ π) : Prop where
  split : order = ran ++ rest
  yields : host.Yields part w outcome after
  sane : f.sane after
  configures : host.Configures id f.member w ran outcome after
  logged : after.configurations = w.configurations ++ ran
  /-- Marks are never taken back, and what was configured is marked. -/
  marked : w.marked id ∪ {kind | kind ∈ ran} ⊆ after.marked id
  /-- Before a kind is configured, all that it `Needs` is marked. -/
  supplied : ∀ kind ∈ ran, ∀ other, Needs f.needs kind other → other ∈ after.marked id
  /-- Nothing is left out unless a configuration failed, and nothing but the kinds of `order` is
  marked. -/
  complete : outcome = .ok () → rest = [] ∧ after.marked id = w.marked id ∪ {kind | kind ∈ order}

/-- The part of the engine installs the kinds of `order` by `Installed`, up to the first that
fails. -/
def Installs
    (part : ((request : Request ρ σ π) → Run ρ σ π request.Answer) → Run ρ σ π (Except Fault Unit))
    (w : World ρ σ π) (order : List ModuleId) : Prop :=
  ∃ ran rest outcome after, f.Installed part w order ran rest outcome after

variable {f}
variable {w : World ρ σ π} {module : ρ} {modules : List ρ} {marked : Set ModuleId}
variable {starts order more : List ModuleId}

/-! ### One module -/

theorem installs_nothing (hsane : f.sane w) :
    f.Installs (fun _ => pure (Except.ok ())) w [] := by
  refine ⟨[], [], .ok (), w, ?_⟩
  exact {
    split := rfl
    yields := .pure _ w
    sane := hsane
    configures := .done (.refl w)
    logged := by simp
    marked := by simp
    supplied := by simp
    complete := by simp }

/-- A module whose kind is `marked` is skipped. -/
theorem installs_of_marked (hsane : f.sane w) (hmarked : host.kind module ∈ w.marked id) :
    f.Installs (fun answer => answer (.install id module)) w [] := by
  have hknown : (w.injector id).installed.contains (host.kind module) = true :=
    List.contains_iff_mem.2 hmarked
  refine ⟨[], [], .ok (), w.note (.alreadyInstalled (host.kind module)), ?_⟩
  exact {
    split := rfl
    yields := by
      refine .install (.bind (.now rfl) ?_)
      rw [hknown]
      exact .bind (.change _ w) (.pure _ _)
    sane := f.sane_note w _ hsane
    configures := .done (.skip _ (.refl _))
    logged := by simp [LogEvent.configuration?]
    marked := by simp
    supplied := by simp
    complete := by simp }

theorem yields_install {outcome last : Except Fault Unit} {between after : World ρ σ π}
    (hlast : host.Yields
      (fun answer => (match outcome with
        | .error fault => pure (.error fault)
        | .ok () => do
          Run.change (·.note (.configuring (host.kind module)))
          (host.configure module id).run answer : Run ρ σ π (Except Fault Unit))) between last after)
    (hmarked : host.kind module ∉ w.marked id)
    (hneeded : host.Yields
      (fun answer => Run.through (fun needed _ => answer (.install id needed)) (host.imports module) ())
      (w.markInstalled id (host.kind module)) outcome between) :
    host.Yields (fun answer => answer (.install id module)) w last after := by
  have hknown : (w.injector id).installed.contains (host.kind module) = false := by
    simpa [World.marked] using hmarked
  refine .install (.bind (.now rfl) ?_)
  rw [hknown]
  exact .bind (.change _ w) (.bind hneeded hlast)

/-- A module whose kind is not `marked` is configured after what it needs, unless that fails. The
kind is marked from the outset. -/
theorem installs_of_not_marked (hsane : f.sane w) (hmember : f.member module)
    (hmarked : host.kind module ∉ w.marked id)
    (hbelow : f.Installs
      (fun answer => Run.through (fun needed _ => answer (.install id needed)) (host.imports module) ())
      (w.markInstalled id (host.kind module)) order)
    (hneeds : ∀ other, Needs f.needs (host.kind module) other →
      other ∈ insert (host.kind module) (w.marked id) ∨ other ∈ order) :
    f.Installs (fun answer => answer (.install id module)) w (order ++ [host.kind module]) := by
  have hbefore := World.marked_markInstalled (host.kind module) (f.exists_of_sane w hsane)
  obtain ⟨ran, rest, outcome, between, h⟩ := hbelow
  have hmarks : host.Configures id f.member w ran outcome between :=
    h.configures.after_marks (.mark _ (.refl _))
  cases outcome with
  | error fault =>
    refine ⟨ran, rest ++ [host.kind module], .error fault, between, ?_⟩
    exact {
      split := by rw [h.split, List.append_assoc]
      yields := yields_install (.pure _ _) hmarked h.yields
      sane := h.sane
      configures := hmarks
      logged := h.logged
      marked := fun k hk => h.marked (hk.imp_left fun hold => hbefore ▸ .inr hold)
      supplied := h.supplied
      complete := fun hok => nomatch hok }
  | ok _ =>
    obtain ⟨rfl, hbetween⟩ := h.complete rfl
    obtain rfl : order = ran := by simpa using h.split
    have hsupplied (other : ModuleId) (hother : Needs f.needs (host.kind module) other) :
        other ∈ between.marked id := by
      rw [hbetween, hbefore]
      exact hneeds other hother
    obtain ⟨last, after, hyields, hafter, hinstalled, hlogged⟩ :=
      f.configure module hmember _ (f.sane_note between (.configuring (host.kind module)) h.sane)
    have hlast : after.marked id = between.marked id := by
      rw [World.marked, hinstalled]
      rfl
    have hall : after.marked id = w.marked id ∪ {kind | kind ∈ order ++ [host.kind module]} := by
      ext kind
      simp only [hlast, hbetween, hbefore, Set.mem_union, Set.mem_insert_iff, Set.mem_ofPred_eq,
        List.mem_append, List.mem_singleton]
      tauto
    refine ⟨order ++ [host.kind module], [], last, after, ?_⟩
    exact {
      split := by simp
      yields := yields_install (.bind (.change _ _) hyields) hmarked h.yields
      sane := hafter
      configures := hmarks.append (.single hmember hyields)
      logged := by
        rw [hlogged, World.configurations_note, h.logged]
        simp [LogEvent.configuration?]
      marked := hall.ge
      supplied := by
        intro kind hkind other hother
        rw [hlast]
        rcases List.mem_append.1 hkind with hkind | hkind
        · exact h.supplied kind hkind other hother
        · obtain rfl := List.mem_singleton.1 hkind
          exact hsupplied other hother
      complete := fun _ => ⟨rfl, hall⟩ }

/-! ### Modules one after the other -/

theorem installs_cons (hfirst : f.Installs (fun answer => answer (.install id module)) w order)
    (hrest : ∀ between, f.sane between → between.marked id = w.marked id ∪ {kind | kind ∈ order} →
      f.Installs
        (fun answer => Run.through (fun needed _ => answer (.install id needed)) modules ()) between
        more) :
    f.Installs
      (fun answer => Run.through (fun needed _ => answer (.install id needed)) (module :: modules) ())
      w (order ++ more) := by
  obtain ⟨ran, rest, outcome, between, h⟩ := hfirst
  cases outcome with
  | error fault =>
    refine ⟨ran, rest ++ more, .error fault, between, ?_⟩
    exact { h with
      split := by rw [h.split, List.append_assoc]
      yields := .bind h.yields (.pure _ _)
      complete := fun hok => nomatch hok }
  | ok _ =>
    obtain ⟨rfl, hbetween⟩ := h.complete rfl
    obtain rfl : order = ran := by simpa using h.split
    obtain ⟨later, left, last, after, h'⟩ := hrest between h.sane hbetween
    -- what is marked stays marked, whatever is configured later
    have hkept : between.marked id ⊆ after.marked id := fun k hk => h'.marked (.inl hk)
    refine ⟨order ++ later, left, last, after, ?_⟩
    exact {
      split := by rw [h'.split, List.append_assoc]
      yields := .bind h.yields h'.yields
      sane := h'.sane
      configures := h.configures.append h'.configures
      logged := by rw [h'.logged, h.logged, List.append_assoc]
      marked := by
        rintro k (hold | hran)
        · exact hkept (h.marked (.inl hold))
        · rcases List.mem_append.1 hran with hran | hran
          · exact hkept (h.marked (.inr hran))
          · exact h'.marked (.inr hran)
      supplied := by
        intro kind hkind other hother
        rcases List.mem_append.1 hkind with hkind | hkind
        · exact hkept (h.supplied kind hkind other hother)
        · exact h'.supplied kind hkind other hother
      complete := by
        intro hok
        obtain ⟨hleft, hafter⟩ := h'.complete hok
        refine ⟨hleft, ?_⟩
        ext k
        simp only [hafter, hbetween, Set.mem_union, Set.mem_ofPred_eq, List.mem_append]
        tauto }

/-- The kinds that modules install are those of a `DepthFirst` order. The induction is on the order:
each visit marks one more kind. -/
theorem through_installs (hdepth : DepthFirst f.needs marked starts order) (hsane : f.sane w)
    (hmember : ∀ module ∈ modules, f.member module) (hstarts : modules.map host.kind = starts)
    (hmarked : w.marked id = marked) :
    f.Installs (fun answer => Run.through (fun needed _ => answer (.install id needed)) modules ()) w
      order := by
  induction hdepth generalizing w modules with
  | nil marked =>
    obtain rfl := List.map_eq_nil_iff.1 hstarts
    exact installs_nothing hsane
  | @skip marked kind rest order hkind _ ih =>
    obtain ⟨module, modules, rfl, rfl, rfl⟩ := List.map_eq_cons_iff.1 hstarts
    subst hmarked
    show f.Installs _ w ([] ++ order)
    refine installs_cons (installs_of_marked hsane hkind) fun between hbetween hsame => ?_
    exact ih hbetween (fun m hm => hmember m (.tail _ hm)) rfl (by simp [hsame])
  | @visit marked kind rest below order hkind hbelow _ ihbelow ihrest =>
    obtain ⟨module, modules, rfl, rfl, rfl⟩ := List.map_eq_cons_iff.1 hstarts
    subst hmarked
    have hmodule := hmember module (.head _)
    have hfirst : f.Installs (fun answer => answer (.install id module)) w
        (below ++ [host.kind module]) := by
      refine installs_of_not_marked hsane hmodule hkind ?_ hbelow.mem_of_mem_starts
      exact ihbelow (f.sane_markInstalled w _ hsane) (f.member_of_import module hmodule)
        (f.kinds_of_imports module hmodule)
        (World.marked_markInstalled _ (f.exists_of_sane w hsane))
    rw [List.append_cons]
    refine installs_cons hfirst fun between hbetween hsame => ?_
    refine ihrest hbetween (fun m hm => hmember m (.tail _ hm)) rfl ?_
    ext k
    simp only [hsame, Set.mem_union, Set.mem_insert_iff, Set.mem_ofPred_eq, List.mem_append,
      List.mem_singleton]
    tauto

/-- Installing a module configures, in `DepthFirst` order and up to the first failure, what is
reachable from its kind and not marked. -/
theorem install_installs (hsane : f.sane w) (hmember : f.member module)
    (hdepth : DepthFirst f.needs (w.marked id) [host.kind module] order) :
    f.Installs (fun answer => answer (.install id module)) w order := by
  cases hdepth with
  | skip hkind hrest =>
    cases hrest
    exact installs_of_marked hsane hkind
  | @visit _ _ below _ _ hkind hbelow hrest =>
    cases hrest
    refine installs_of_not_marked hsane hmember hkind ?_ hbelow.mem_of_mem_starts
    exact through_installs hbelow (f.sane_markInstalled w _ hsane)
      (f.member_of_import module hmember) (f.kinds_of_imports module hmember)
      (World.marked_markInstalled _ (f.exists_of_sane w hsane))

end ModuleFamily

end Wiring
