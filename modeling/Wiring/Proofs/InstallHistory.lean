import Wiring.Proofs.Installation

/-!
# Runs of installs

`ModuleFamily.History` is a run of installs of the modules of a family on one injector, with
whatever else happens between them. Each call configures the kinds of a depth-first order up to the
first failure, no kind is ever configured twice, and as long as nothing fails each kind comes after
all that it needs (`ModuleFamily.install_order`).

A kind is marked before it is configured and stays so if that fails. So a later call that reaches it
skips it, and succeeds although it was never configured (`ModuleFamily.not_configuresAll`). What a
successful call does say: everything that it reaches has been configured, provided that what it
found marked had been (`ModuleFamily.configured_iff`).

* **`ModuleFamily.Settled`** — what holds after any run of calls, by `Settled.install` from one call
  to the next.
* **`ModuleFamily.Continues`** — all that the next call does, as `install_order` has it.
-/

namespace Wiring

variable {ρ σ π : Type}

/-- What one call did, in the terms of `Host.Configures`. -/
structure InstallCall where
  /-- The kinds whose configuration it began, in order, as `World.configurations` logs them. -/
  began : List ModuleId
  outcome : Except Fault Unit

/-- The kinds whose configuration succeeded: all that it `began`, but a fault is that of the last
one. -/
def InstallCall.succeeded (call : InstallCall) : List ModuleId :=
  match call.outcome with
  | .ok _ => call.began
  | .error _ => call.began.dropLast

namespace ModuleFamily

variable {host : Host ρ σ π} {id : InjectorId} (f : ModuleFamily host id)

/-- A run of installs on an injector on which nothing was `installed` at first. Between the calls
anything else may happen that leaves the marks alone. -/
inductive History : List InstallCall → World ρ σ π → Prop
  | start {w : World ρ σ π} (hsane : f.sane w) (hnone : (w.injector id).installed = []) : History [] w
  | install {calls : List InstallCall} {w after : World ρ σ π} {module : ρ} {began : List ModuleId}
      {outcome : Except Fault Unit} (h : History calls w) (hmember : f.member module)
      (hfinite : {kind | f.Reaches (host.kind module) kind}.Finite)
      (hyields : host.Yields (fun answer => answer (.install id module)) w outcome after)
      (hlogged : after.configurations = w.configurations ++ began) :
      History (calls ++ [⟨began, outcome⟩]) after
  | meanwhile {calls : List InstallCall} {w after : World ρ σ π} (h : History calls w)
      (hsane : f.sane after) (hsame : (after.injector id).installed = (w.injector id).installed) :
      History calls after

/-- All kinds whose configuration a run of calls began, in order, by `InstallCall.began`. -/
def began (calls : List InstallCall) : List ModuleId :=
  calls.flatMap (·.began)

/-- All kinds whose configuration succeeded in a run of calls, by `InstallCall.succeeded`. -/
def succeeded (calls : List InstallCall) : List ModuleId :=
  calls.flatMap (·.succeeded)

variable {f}
variable {w after : World ρ σ π} {module : ρ} {order ran rest : List ModuleId}
variable {calls : List InstallCall} {outcome : Except Fault Unit}

theorem exists_order (hfinite : {kind | f.Reaches (host.kind module) kind}.Finite)
    (marked : Set ModuleId) : ∃ order, DepthFirst f.needs marked [host.kind module] order := by
  refine DepthFirst.exists_order hfinite (fun kind hkind other hneeds => hkind.tail hneeds) ?_
  intro kind hkind
  obtain rfl := List.mem_singleton.1 hkind
  exact .refl

@[simp] theorem began_append_singleton (calls : List InstallCall) (call : InstallCall) :
    began (calls ++ [call]) = began calls ++ call.began := by
  simp [began]

@[simp] theorem succeeded_append_singleton (calls : List InstallCall) (call : InstallCall) :
    succeeded (calls ++ [call]) = succeeded calls ++ call.succeeded := by
  simp [succeeded]

/-! ### What a run of calls has done -/

/-- What holds after a run of calls: no kind was configured twice, and what was configured, and all
that it needs, is in `World.marked`. -/
structure Settled (f : ModuleFamily host id) (calls : List InstallCall) (w : World ρ σ π) : Prop where
  sane : f.sane w
  once : (began calls).Nodup
  marked : ∀ kind ∈ began calls, kind ∈ w.marked id
  supplied : ∀ kind ∈ began calls, ∀ other, Needs f.needs kind other → other ∈ w.marked id
  /-- As long as nothing failed, only what was configured is marked, and it was `Ordered`. -/
  flawless : (∀ call ∈ calls, call.outcome = .ok ()) →
    w.marked id = {kind | kind ∈ began calls} ∧
    ((∀ kind, ¬ Relation.TransGen (Needs f.needs) kind kind) → Ordered f.needs ∅ (began calls))

namespace Settled

theorem start (hsane : f.sane w) (hnone : (w.injector id).installed = []) : f.Settled [] w where
  sane := hsane
  once := List.nodup_nil
  marked := fun _ hkind => nomatch hkind
  supplied := fun _ hkind => nomatch hkind
  flawless := fun _ => ⟨by simp [World.marked, hnone, began], fun _ _ _ _ heq => by simp [began] at heq⟩

/-- As long as nothing has failed before, what a call configures comes after all that it `Needs`,
what was configured in earlier calls included. -/
theorem ordered (h : f.Settled calls w) (hcalls : ∀ call ∈ calls, call.outcome = .ok ())
    (hacyclic : ∀ kind, ¬ Relation.TransGen (Needs f.needs) kind kind)
    (hdepth : DepthFirst f.needs (w.marked id) [host.kind module] (ran ++ rest)) :
    Ordered f.needs ∅ (began calls ++ ran) := by
  obtain ⟨hmarked, hbefore⟩ := h.flawless hcalls
  refine (hbefore hacyclic).append ?_
  rw [Set.empty_union, ← hmarked]
  exact (hdepth.ordered hacyclic).of_append

/-- A call adds what it configured to the run, as `Installed` tells it, and `Settled` holds on. -/
theorem install (h : f.Settled calls w) (hdepth : DepthFirst f.needs (w.marked id) [host.kind module] order)
    (hinstalled : f.Installed (fun answer => answer (.install id module)) w order ran rest outcome after) :
    f.Settled (calls ++ [⟨ran, outcome⟩]) after := by
  have hran (kind : ModuleId) (hkind : kind ∈ ran) : kind ∈ order := by
    rw [hinstalled.split]
    exact List.mem_append_left _ hkind
  have hkept (kind : ModuleId) (hkind : kind ∈ w.marked id) : kind ∈ after.marked id :=
    hinstalled.marked (.inl hkind)
  refine ⟨hinstalled.sane, ?once, ?marked, ?supplied, ?flawless⟩
  case once =>
    -- what this call configured was not marked, and what earlier calls configured was
    have hnodup : ran.Nodup := by
      have := hdepth.nodup
      rw [hinstalled.split] at this
      exact this.of_append_left
    rw [began_append_singleton, List.nodup_append]
    refine ⟨h.once, hnodup, ?_⟩
    rintro kind hkind other hother rfl
    exact hdepth.not_mem_marked kind (hran kind hother) (h.marked kind hkind)
  case marked =>
    intro kind hkind
    rw [began_append_singleton] at hkind
    rcases List.mem_append.1 hkind with hkind | hkind
    · exact hkept kind (h.marked kind hkind)
    · exact hinstalled.marked (.inr hkind)
  case supplied =>
    intro kind hkind other hother
    rw [began_append_singleton] at hkind
    rcases List.mem_append.1 hkind with hkind | hkind
    · exact hkept other (h.supplied kind hkind other hother)
    · exact hinstalled.supplied kind hkind other hother
  case flawless =>
    intro hall
    have hcalls := fun call hcall => hall call (List.mem_append_left _ hcall)
    obtain ⟨rfl, hafter⟩ := hinstalled.complete (hall _ (List.mem_append_right _ (.head _)))
    obtain rfl := hinstalled.split
    obtain ⟨hmarked, -⟩ := h.flawless hcalls
    refine ⟨?_, ?_⟩
    · ext kind
      simp [hafter, hmarked]
    · intro hacyclic
      rw [began_append_singleton]
      exact h.ordered hcalls hacyclic hdepth

theorem meanwhile (h : f.Settled calls w) (hsane : f.sane after)
    (hsame : (after.injector id).installed = (w.injector id).installed) : f.Settled calls after := by
  have hmarked : after.marked id = w.marked id := by
    rw [World.marked, hsame]
    rfl
  exact {
    sane := hsane
    once := h.once
    marked := hmarked ▸ h.marked
    supplied := hmarked ▸ h.supplied
    flawless := hmarked ▸ h.flawless }

end Settled

theorem History.settled (h : f.History calls w) : f.Settled calls w := by
  induction h with
  | start hsane hnone => exact .start hsane hnone
  | @install calls w after module ran outcome _ hmember hfinite hyields hlogged ih =>
    obtain ⟨order, hdepth⟩ := exists_order hfinite (w.marked id)
    obtain ⟨began, rest, last, world, h⟩ := install_installs ih.sane hmember hdepth
    obtain ⟨rfl, rfl⟩ := h.yields.unique hyields
    obtain rfl : began = ran := List.append_cancel_left (h.logged.symm.trans hlogged)
    exact ih.install hdepth h
  | meanwhile _ hsane hsame ih => exact ih.meanwhile hsane hsame

/-! ### Seven modules -/

/-- The modules that each of seven modules needs: 0 is the top of a diamond, 4 needs itself,
directly and by way of 5. -/
def sevenNeeds (module : Nat) : List Nat :=
  ([[1, 2, 1], [3], [3], [], [5, 4], [4, 6]] : List (List Nat)).getD module []

/-- Each module is of a kind of its own and imports its `sevenNeeds`. The configuration of 6 fails,
and the others do nothing. -/
def sevenHost : Host Nat Unit Unit where
  make _ _ := .done (.ok ⟨0⟩)
  stage _ _ object := .done (.ok object)
  hook _ _ _ := .done (.ok ())
  kind module := module
  imports := sevenNeeds
  configure module _ := .done (if module = 6 then .error (.unboundKey default) else .ok ())

def sevenFamily : ModuleFamily sevenHost ⟨0⟩ where
  member _ := True
  needs := sevenNeeds
  sane w := 0 < w.injectors.size
  member_of_import _ _ _ _ := trivial
  kinds_of_imports module _ := List.map_id (sevenNeeds module)
  exists_of_sane _ h := h
  sane_note _ _ h := h
  sane_markInstalled w kind h := by
    simpa [World.markInstalled, World.modifyInjector] using h
  configure module _ w h := ⟨_, w, .pure _ w, h, rfl, rfl⟩

/-- A world with one injector, on which nothing is installed. -/
def sevenWorld : World Nat Unit Unit :=
  { injectors := #[{}], memory := () }

/-- The world after a module of `sevenHost` is installed. -/
def sevenAfter (w : World Nat Unit Unit) (module : Nat) : World Nat Unit Unit :=
  match (sevenHost.answer 8 (.install ⟨0⟩ module)).run w with
  | .ok (_, after) => after
  | .error _ => w

/-- No module of `sevenNeeds` leads beyond 6. -/
theorem sevenFamily_finite (module : Nat) : {kind | sevenFamily.Reaches module kind}.Finite := by
  refine (Set.finite_le_nat (max module 6)).subset fun kind hreach => ?_
  have hsmall : ∀ kind < 6, ∀ other ∈ sevenNeeds kind, other ≤ 6 := by decide
  have hnext (kind other : Nat) (hneeds : other ∈ sevenNeeds kind) : other ≤ 6 := by
    by_cases hlt : kind < 6
    · exact hsmall kind hlt other hneeds
    · simp [sevenNeeds, Nat.not_lt.1 hlt] at hneeds
  show kind ≤ max module 6
  cases hreach with
  | refl => exact le_max_left _ _
  | tail _ hneeds => exact (hnext _ _ hneeds).trans (le_max_right _ _)

theorem sevenFamily_start : sevenFamily.History [] sevenWorld :=
  .start Nat.zero_lt_one rfl

/-- Installing 4 comes to 6 first, whose configuration fails, so the one call `began` no other. -/
theorem sevenFamily_failed :
    sevenFamily.History [⟨[6], .error (.unboundKey default)⟩] (sevenAfter sevenWorld 4) :=
  sevenFamily_start.install trivial (sevenFamily_finite 4) (.of_answer 8 rfl) rfl

/-! ### The order of configurations -/

/-- The next call of a run, which installs `module`, begins to configure the kinds of `ran`, the
first part of `order`. -/
structure Continues (f : ModuleFamily host id) (calls : List InstallCall) (w : World ρ σ π)
    (module : ρ) (order ran rest : List ModuleId) (outcome : Except Fault Unit)
    (after : World ρ σ π) : Prop where
  terminates : host.Yields (fun answer => answer (.install id module)) w outcome after
  history : f.History (calls ++ [⟨ran, outcome⟩]) after
  /-- In depth-first order, each kind after those that it needs by `DepthFirst`, the kinds that are
  not marked … -/
  depthFirst : DepthFirst f.needs (w.marked id) [host.kind module] order
  /-- … are configured, up to the first failure, and `rest` is left out. -/
  split : order = ran ++ rest
  complete : outcome = .ok () → rest = []
  configures : host.Configures id f.member w ran outcome after
  logged : after.configurations = w.configurations ++ ran
  once : (began (calls ++ [⟨ran, outcome⟩])).Nodup
  /-- While nothing has failed before and no kind needs itself, a kind is configured after all that
  it needs, directly or by way of others. -/
  ordered : (∀ call ∈ calls, call.outcome = .ok ()) →
    (∀ kind, ¬ Relation.TransGen (Needs f.needs) kind kind) →
    ∀ earlier kind later, began (calls ++ [⟨ran, outcome⟩]) = earlier ++ kind :: later →
      ∀ other, Relation.TransGen (Needs f.needs) kind other → other ∈ earlier

/-- Whatever calls there were before, by `History`, installing a module comes to an end. It
configures the kinds that are reachable and not marked in `DepthFirst` order, up to the first
configuration that fails, whose fault it gives back. Over the whole run no kind is configured
twice. -/
theorem install_order (h : f.History calls w) (hmember : f.member module)
    (hfinite : {kind | f.Reaches (host.kind module) kind}.Finite) :
    ∃ order ran rest outcome after, f.Continues calls w module order ran rest outcome after := by
  have hsettled := h.settled
  obtain ⟨order, hdepth⟩ := exists_order hfinite (w.marked id)
  obtain ⟨ran, rest, outcome, after, hinstalled⟩ := install_installs hsettled.sane hmember hdepth
  have hnext := hsettled.install hdepth hinstalled
  refine ⟨order, ran, rest, outcome, after, ?_⟩
  exact {
    terminates := hinstalled.yields
    history := h.install hmember hfinite hinstalled.yields hinstalled.logged
    depthFirst := hdepth
    split := hinstalled.split
    complete := fun hok => (hinstalled.complete hok).1
    configures := hinstalled.configures
    logged := hinstalled.logged
    once := hnext.once
    ordered := by
      intro hcalls hacyclic earlier kind later heq other hneeds
      rw [began_append_singleton] at heq
      exact (hsettled.ordered hcalls hacyclic (hinstalled.split ▸ hdepth)).transitive hneeds heq }

/-- After the diamond, installing 4 finds 5 and 6 unmarked, and `Continues` tells what it does. -/
theorem install_order_of_diamond :
    sevenFamily.History [⟨[3, 1, 2, 0], .ok ()⟩] (sevenAfter sevenWorld 0) ∧ sevenFamily.member 4 ∧
      {kind | sevenFamily.Reaches (sevenHost.kind 4) kind}.Finite ∧
      ∃ order ran rest outcome after,
        sevenFamily.Continues [⟨[3, 1, 2, 0], .ok ()⟩] (sevenAfter sevenWorld 0) 4 order ran rest outcome
          after := by
  have hhistory : sevenFamily.History [⟨[3, 1, 2, 0], .ok ()⟩] (sevenAfter sevenWorld 0) :=
    sevenFamily_start.install trivial (sevenFamily_finite 0) (.of_answer 8 rfl) rfl
  exact ⟨hhistory, trivial, sevenFamily_finite 4,
    install_order hhistory trivial (sevenFamily_finite 4)⟩

/-! ### What a successful call says -/

theorem mem_began_of_mem_succeeded {kind : ModuleId} (h : kind ∈ succeeded calls) :
    kind ∈ began calls := by
  obtain ⟨call, hcall, hkind⟩ := List.mem_flatMap.1 h
  refine List.mem_flatMap.2 ⟨call, hcall, ?_⟩
  unfold InstallCall.succeeded at hkind
  split at hkind
  · exact hkind
  · exact List.mem_of_mem_dropLast hkind

/-- After a successful call all kinds that it `Reaches` have been configured with success just if
those had been that it found marked. -/
theorem configured_iff (h : f.History calls w) (hmember : f.member module)
    (hfinite : {kind | f.Reaches (host.kind module) kind}.Finite)
    (hyields : host.Yields (fun answer => answer (.install id module)) w (.ok ()) after)
    (hlogged : after.configurations = w.configurations ++ ran) :
    (∀ kind, f.Reaches (host.kind module) kind → kind ∈ succeeded (calls ++ [⟨ran, .ok ()⟩])) ↔
      ∀ kind, f.Reaches (host.kind module) kind → kind ∈ w.marked id → kind ∈ succeeded calls := by
  have hsettled := h.settled
  obtain ⟨order, hdepth⟩ := exists_order hfinite (w.marked id)
  obtain ⟨began, rest, last, world, hinstalled⟩ := install_installs hsettled.sane hmember hdepth
  obtain ⟨rfl, rfl⟩ := hyields.unique hinstalled.yields
  obtain rfl : ran = began := List.append_cancel_left (hlogged.symm.trans hinstalled.logged)
  obtain ⟨rfl, hafter⟩ := hinstalled.complete rfl
  obtain rfl : order = ran := by simpa using hinstalled.split
  have hsucceeded (kind : ModuleId) :
      kind ∈ succeeded (calls ++ [⟨order, .ok ()⟩]) ↔ kind ∈ succeeded calls ∨ kind ∈ order := by
    rw [succeeded_append_singleton, List.mem_append]
    rfl
  constructor
  · intro hall kind hreach hmarked
    exact ((hsucceeded kind).1 (hall kind hreach)).resolve_right
      fun hkind => hdepth.not_mem_marked kind hkind hmarked
  · intro hmarked kind hreach
    rw [hsucceeded]
    have hfound (kind : ModuleId) (hreach : f.Reaches (host.kind module) kind)
        (hkind : kind ∈ after.marked id) : kind ∈ succeeded calls ∨ kind ∈ order := by
      rw [hafter] at hkind
      exact hkind.imp_left (hmarked kind hreach)
    -- what a configured kind needs is marked, so each kind on the way has been configured
    induction hreach with
    | refl =>
      refine hfound _ .refl ?_
      rw [hafter]
      exact hdepth.mem_of_mem_starts _ (.head _)
    | tail hreach hneeds ih =>
      refine hfound _ (hreach.tail hneeds) ?_
      rcases ih with hbefore | hnow
      · exact hinstalled.marked
          (.inl (hsettled.supplied _ (mem_began_of_mem_succeeded hbefore) _ hneeds))
      · exact hinstalled.supplied _ hnow _ hneeds

/-- The call before failed at 6, and 4, 5 and 6 are marked, so installing 4 succeeds and configures
nothing. -/
theorem configured_iff_of_failed :
    sevenFamily.History [⟨[6], .error (.unboundKey default)⟩] (sevenAfter sevenWorld 4) ∧
      sevenFamily.member 4 ∧ {kind | sevenFamily.Reaches (sevenHost.kind 4) kind}.Finite ∧
      sevenHost.Yields (fun answer => answer (.install ⟨0⟩ 4)) (sevenAfter sevenWorld 4) (.ok ())
        (sevenAfter (sevenAfter sevenWorld 4) 4) ∧
      (sevenAfter (sevenAfter sevenWorld 4) 4).configurations =
        (sevenAfter sevenWorld 4).configurations ++ [] ∧
      ((∀ kind, sevenFamily.Reaches 4 kind →
          kind ∈ succeeded [⟨[6], .error (.unboundKey default)⟩, ⟨[], .ok ()⟩]) ↔
        ∀ kind, sevenFamily.Reaches 4 kind → kind ∈ (sevenAfter sevenWorld 4).marked ⟨0⟩ →
          kind ∈ succeeded [⟨[6], .error (.unboundKey default)⟩]) := by
  have hhistory := sevenFamily_failed
  have hyields : sevenHost.Yields (fun answer => answer (.install ⟨0⟩ 4)) (sevenAfter sevenWorld 4)
      (.ok ()) (sevenAfter (sevenAfter sevenWorld 4) 4) := .of_answer 8 rfl
  exact ⟨hhistory, trivial, sevenFamily_finite 4, hyields, rfl,
    configured_iff hhistory trivial (sevenFamily_finite 4) hyields rfl⟩

/-- After every successful call all kinds that it `Reaches` have been configured with success. -/
def ConfiguresAll (f : ModuleFamily host id) : Prop :=
  ∀ calls w module ran after, f.History calls w → f.member module →
    {kind | f.Reaches (host.kind module) kind}.Finite →
    host.Yields (fun answer => answer (.install id module)) w (.ok ()) after →
    after.configurations = w.configurations ++ ran →
    ∀ kind, f.Reaches (host.kind module) kind → kind ∈ succeeded (calls ++ [⟨ran, .ok ()⟩])

/-- A kind whose configuration failed is skipped when it is installed again, and the call succeeds;
so `ConfiguresAll` does not hold of the seven modules. -/
theorem not_configuresAll : ¬ sevenFamily.ConfiguresAll := by
  intro h
  have hsucceeded := h [⟨[6], .error (.unboundKey default)⟩] (sevenAfter sevenWorld 4) 6 []
    (sevenAfter (sevenAfter sevenWorld 4) 6) sevenFamily_failed trivial (sevenFamily_finite 6)
    (.of_answer 8 rfl) rfl 6 .refl
  exact absurd hsucceeded (by decide)

end ModuleFamily

end Wiring
