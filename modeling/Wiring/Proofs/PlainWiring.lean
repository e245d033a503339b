import Wiring.Proofs.Meaning
import Wiring.Proofs.RosterEdges

/-!
# Plain wiring

Instances, lookups, decorations by pure functions, lists and maps are plain wiring: such a provider
has a `Meaning` in a world (`Provider.Means`). The meaning does not change while objects are added
(`World.Grows`), nor with the order in which the constraints of a list are run through
(`Provider.Means.transfer`).

* **`Host.PureStage`** and **`Host.StagesMean`** — what a stage may do, and what several of them
  make of a value.
* **`World.SameWiring`** — the same lists and maps, up to `Roster.Shuffled`; `Shuffled.order` says
  that the same providers are placed.
-/

namespace Wiring

variable {ρ σ π : Type}

namespace World

/-- Nothing but objects is added, by `World.Extends`, and what there was is there still. -/
structure Grows (w after : World ρ σ π) : Prop where
  objects : w.Extends after
  injectors : after.injectors = w.injectors
  slots : after.slots = w.slots
  rosters : after.rosters = w.rosters
  catalogs : after.catalogs = w.catalogs
  thread : after.thread = w.thread
  stack : after.stack = w.stack

theorem Grows.refl (w : World ρ σ π) : w.Grows w :=
  ⟨.refl w, rfl, rfl, rfl, rfl, rfl, rfl⟩

theorem grows_allocate (w : World ρ σ π) (content : Content π) :
    w.Grows (w.allocate content).2 :=
  ⟨w.extends_allocate content, rfl, rfl, rfl, rfl, rfl, rfl⟩

end World

/-! ### Stages -/

/-- The routine of a stage is a function of the value that its object holds by `World.Holds`, and
does nothing but look at objects and make new ones. -/
def Host.PureStage (host : Host ρ σ π) (routine : ρ)
    (f : Value π → Except Fault (Value π)) : Prop :=
  ∀ id (w : World ρ σ π) object value, w.Holds object value → ∃ outcome after,
    (host.stage routine id object).Performs w outcome after ∧ w.Grows after ∧
      after.Shows outcome (f value)

/-- Stages one after the other, as a function of the value: each is `PureStage`, or a member
injection, which changes nothing where there are no hooks. -/
inductive Host.StagesMean (host : Host ρ σ π) :
    List (Stage ρ) → (Value π → Except Fault (Value π)) → Prop
  | nil : StagesMean host [] .ok
  | memberInjection {type : ValueType} {stages : List (Stage ρ)}
      {f : Value π → Except Fault (Value π)} (h : StagesMean host stages f) :
      StagesMean host (.memberInjection type :: stages) f
  | routine {routine : ρ} {stages : List (Stage ρ)} {f g : Value π → Except Fault (Value π)}
      (hf : host.PureStage routine f) (h : StagesMean host stages g) :
      StagesMean host (.routine routine :: stages) fun value => (f value).bind g

/-! ### Providers -/

/-- What a provider of plain wiring means in a world, as a `Meaning`, one rule for each kind of
`Provider` that is plain. -/
inductive Provider.Means (host : Host ρ σ π) (w : World ρ σ π) : Provider ρ → Meaning π → Prop
  | fixed {object : Ref} {value : Value π} (h : w.Holds object value) :
      Means host w (.fixed object) (.always value)
  | lookup (key : Key) : Means host w (.lookup key) (.lookup key)
  | decorating {delegate : Provider ρ} {stages : List (Stage ρ)} {m : Meaning π}
      {f : Value π → Except Fault (Value π)} (hdelegate : Means host w delegate m)
      (hstages : host.StagesMean stages f) :
      Means host w (.decorating delegate stages) (m.staged f)
  | list {roster : RosterId} {entries : List (Entry (Provider ρ))} {parts : List (Meaning π)}
      (horder : (w.roster roster).order = .ok entries) (hlength : entries.length = parts.length)
      (hparts : ∀ (index : Nat) (entry : Entry (Provider ρ)) (part : Meaning π),
        entries[index]? = some entry → parts[index]? = some part → Means host w entry.provider part) :
      Means host w (.list roster) (.all parts .list)
  | disordered {roster : RosterId} {fault other : Fault}
      (horder : (w.roster roster).order = .error fault) (halike : fault.Alike other) :
      Means host w (.list roster) (.fail other)
  | map {catalog : CatalogId} {parts : List (Meaning π)}
      (hlength : (w.catalog catalog).entries.rows.length = parts.length)
      (hparts : ∀ (index : Nat) (row : String × Provider ρ) (part : Meaning π),
        (w.catalog catalog).entries.rows[index]? = some row → parts[index]? = some part →
        Means host w row.2 part) :
      Means host w (.map catalog)
        (.all parts fun values => .map ((w.catalog catalog).entries.names.zip values))

/-! ### Worlds with the same wiring -/

/-- The two orders by `Roster.order` place the same providers, or there is none for the like reason,
by `Accord`. -/
theorem Roster.Shuffled.order {P : Type} {roster other : Roster P} (h : roster.Shuffled other) :
    Accord (List.Forall₂ fun e f => e.provider = f.provider) roster.order other.order := by
  have hsize : roster.size = other.size := by
    rw [← length_keys, ← length_keys, h.keys]
  have hplaced (positions : List Nat) : List.Forall₂ (fun e f => e.provider = f.provider)
      (positions.filterMap (roster.entries[·]?)) (positions.filterMap (other.entries[·]?)) := by
    induction positions with
    | nil => exact .nil
    | cons position rest ih =>
      rw [List.filterMap_cons, List.filterMap_cons]
      by_cases hlt : position < roster.entries.length
      · have hlt' : position < other.entries.length := h.entries.length_eq ▸ hlt
        rw [List.getElem?_eq_getElem hlt, List.getElem?_eq_getElem hlt']
        exact .cons (h.entries.get hlt hlt').provider ih
      · have hge : ¬ position < other.entries.length := h.entries.length_eq ▸ hlt
        rw [List.getElem?_eq_none (Nat.le_of_not_lt hlt),
          List.getElem?_eq_none (Nat.le_of_not_lt hge)]
        exact ih
  unfold Roster.order
  -- the same edges between the same positions, so the same positions in the same order
  rcases linearize_congr (within_edges roster) h.mem_edges_iff with ⟨positions, hp, hq⟩ | ⟨c, d, hc, hd⟩
  · rw [hp, ← hsize, hq]
    exact .ok (hplaced positions)
  · rw [hc, ← hsize, hd, h.list]
    exact .error (.inr ⟨_, _, _, rfl, rfl⟩)

namespace World

/-- The lists and maps are the same, the constraints of a list run through in whatever order by
`Roster.Shuffled`, and the objects of `w` are objects of `other`. -/
structure SameWiring (w other : World ρ σ π) : Prop where
  objects : w.Extends other
  rosters : ∀ id, (w.roster id).Shuffled (other.roster id)
  catalogs : other.catalogs = w.catalogs

end World

/-- A provider means the same in a world with the `SameWiring`. Induction on the rules of
`Means`. -/
theorem Provider.Means.transfer {host : Host ρ σ π} {w other : World ρ σ π} {provider : Provider ρ}
    {m : Meaning π} (h : provider.Means host w m) (hsame : w.SameWiring other) :
    provider.Means host other m := by
  have hcatalog (id : CatalogId) : other.catalog id = w.catalog id := by
    rw [World.catalog, hsame.catalogs]
    rfl
  induction h with
  | fixed h => exact .fixed (h.mono hsame.objects)
  | lookup key => exact .lookup key
  | decorating _ hstages ih => exact .decorating ih hstages
  | list horder hlength _ ih =>
    rename_i roster entries parts _
    -- entries at the same place have the same provider, and that means the same by induction
    have halike := (hsame.rosters roster).order
    rw [horder] at halike
    cases horder' : (other.roster roster).order with
    | error fault =>
      rw [horder'] at halike
      cases halike
    | ok others =>
      rw [horder'] at halike
      cases halike with
      | ok hproviders =>
        refine .list horder' (hproviders.length_eq ▸ hlength) ?_
        intro index entry part hentry hpart
        obtain ⟨hlt', rfl⟩ := List.getElem?_eq_some_iff.1 hentry
        have hlt : index < entries.length := hproviders.length_eq.symm ▸ hlt'
        have hprovider := hproviders.get hlt hlt'
        have hpart' := ih index entries[index] part (List.getElem?_eq_getElem hlt) hpart
        rw [List.get_eq_getElem, List.get_eq_getElem] at hprovider
        rwa [hprovider] at hpart'
  | disordered horder halike =>
    rename_i roster fault expected
    have horders := (hsame.rosters roster).order
    rw [horder] at horders
    cases horder' : (other.roster roster).order with
    | error fault' =>
      rw [horder'] at horders
      cases horders with
      | error hfault => exact .disordered horder' (hfault.symm.trans halike)
    | ok others =>
      rw [horder'] at horders
      cases horders
  | map hlength _ ih =>
    rename_i catalog parts _
    rw [← hcatalog catalog] at hlength ⊢
    refine .map hlength ?_
    rw [hcatalog catalog]
    exact ih

end Wiring
