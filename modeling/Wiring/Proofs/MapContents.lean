import Mathlib.Data.List.Induction
import Mathlib.Data.List.Sort
import Wiring.Proofs.Builders
import Wiring.Proofs.UnreadLog

/-!
# What is in a map

The entries of a map are those that have been put, the last under each name, by ascending name
(`Directory.Records`). A directory is settled by what is found in it (`Directory.ext_of_get?`). So
only the order of puts under one and the same name makes a difference (`Reordered`), and that goes
for the whole world up to the log, whether the puts are made on the map itself or by builders of it
(`World.performAll_reordered`).

* **`Directory.lastPut?`** — the last provider that was put under a name, which is the one that is
  found there; the rows are what is found under the names (`Directory.mem_rows_iff`).
* **`World.PutsInto`** — the two ways of putting into a map, directly or by a builder; both put as
  `World.putEntry` does (`PutsInto.perform`), also after other puts (`PutsInto.after`).
* **`Directory.reordered_of_perm`** — puts of different names may come in any order.
-/

namespace Wiring

namespace Directory

variable {P : Type}

/-- What was put last under a name, among `puts` made in this order. -/
def lastPut? (puts : List (String × P)) (name : String) : Option P :=
  ((puts.filter (·.1 = name)).getLast?).map (·.2)

theorem lastPut?_append_singleton (puts : List (String × P)) (row : String × P) (name : String) :
    lastPut? (puts ++ [row]) name = if row.1 = name then some row.2 else lastPut? puts name := by
  unfold lastPut?
  by_cases h : row.1 = name <;> simp [List.filter_append, h]

/-- The directory holds what was put, the last under each name (`lastPut?`), by ascending name. -/
structure Records (d : Directory P) (puts : List (String × P)) : Prop where
  ascending : d.names.Pairwise (· < ·)
  names : ∀ name, name ∈ d.names ↔ name ∈ puts.map (·.1)
  last : ∀ name, d.get? name = lastPut? puts name

variable {d other : Directory P} {puts : List (String × P)}

theorem records_empty : (empty : Directory P).Records [] where
  ascending := .nil
  names _ := Iff.rfl
  last _ := rfl

theorem Records.put (h : d.Records puts) (row : String × P) :
    (d.put row.1 row.2).Records (puts ++ [row]) where
  ascending := ascending_put h.ascending _ _
  names name := by
    rw [mem_names_put, h.names]
    simp [or_comm]
  last name := by
    rw [get?_put, lastPut?_append_singleton, h.last]

theorem Records.putAll (h : d.Records puts) (rows : List (String × P)) :
    (rows.foldl (fun d row => d.put row.1 row.2) d).Records (puts ++ rows) := by
  induction rows using List.reverseRecOn with
  | nil => rwa [List.append_nil]
  | append_singleton rows row ih =>
    rw [List.foldl_append, ← List.append_assoc]
    exact ih.put row

/-! ### Directories that hold the same -/

/-- In ascending rows each row is found under its name by `get?`, and what is found is a row. -/
theorem mem_rows_iff (h : d.names.Pairwise (· < ·)) (row : String × P) :
    row ∈ d.rows ↔ d.get? row.1 = some row.2 := by
  obtain ⟨rows⟩ := d
  change (rows.map (·.1)).Pairwise (· < ·) at h
  show row ∈ rows ↔ (rows.find? (·.1 = row.1)).map (·.2) = some row.2
  induction rows with
  | nil => simp
  | cons first rest ih =>
    rw [List.map_cons, List.pairwise_cons] at h
    rw [List.mem_cons, List.find?_cons]
    by_cases hname : first.1 = row.1
    · -- the rows after the first have other names
      have hrest : row ∉ rest := fun hmem =>
        String.lt_irrefl _ (hname ▸ h.1 row.1 (List.mem_map_of_mem hmem))
      simp [hname, hrest, Prod.ext_iff, eq_comm]
    · have hne : row ≠ first := fun heq => hname (congrArg Prod.fst heq).symm
      simp [hname, hne, ih h.2]

theorem ext_of_get? (h : d.names.Pairwise (· < ·)) (hother : other.names.Pairwise (· < ·))
    (hget : ∀ name, d.get? name = other.get? name) : d = other := by
  have hrows {d : Directory P} (h : d.names.Pairwise (· < ·)) :
      d.rows.Pairwise fun row row' => row.1 < row'.1 := List.pairwise_map.1 h
  have hne {row row' : String × P} (hlt : row.1 < row'.1) : row ≠ row' := by
    rintro rfl
    exact String.lt_irrefl _ hlt
  have hnodup {d : Directory P} (h : d.names.Pairwise (· < ·)) : d.rows.Nodup := (hrows h).imp hne
  have hperm : d.rows.Perm other.rows := by
    rw [List.perm_ext_iff_of_nodup (hnodup h) (hnodup hother)]
    intro row
    rw [mem_rows_iff h, mem_rows_iff hother, hget]
  have heq : d.rows = other.rows :=
    hperm.eq_of_pairwise (fun row row' _ _ hlt hgt => absurd (String.lt_trans hlt hgt) (String.lt_irrefl _))
      (hrows h) (hrows hother)
  exact congrArg Directory.mk heq

/-! ### Puts in another order -/

/-- Under each name the same is put, in the same order; nothing is said of different names. -/
def Reordered (rows rows' : List (String × P)) : Prop :=
  ∀ name, rows.filter (·.1 = name) = rows'.filter (·.1 = name)

/-- Under names that are all different, puts can be made in any order: each name is put once. -/
theorem reordered_of_perm {rows rows' : List (String × P)} (h : rows.Perm rows')
    (hnodup : (rows.map (·.1)).Nodup) : Reordered rows rows' := by
  intro name
  -- there are no two rows of the name
  have hsole {rows : List (String × P)} (hnodup : (rows.map (·.1)).Nodup) :
      (rows.filter (·.1 = name)).Pairwise fun _ _ => False := by
    have hnames := (List.pairwise_map.1 hnodup).filter (·.1 = name)
    refine hnames.imp_of_mem fun hrow hrow' hne => hne ?_
    have hname := of_decide_eq_true (List.mem_filter.1 hrow).2
    exact hname.trans (of_decide_eq_true (List.mem_filter.1 hrow').2).symm
  have hnodup' : (rows'.map (·.1)).Nodup := (h.map (·.1)).nodup_iff.1 hnodup
  exact (h.filter _).eq_of_pairwise (fun _ _ _ _ h => h.elim) (hsole hnodup) (hsole hnodup')

/-- What reordered puts are recorded by is the same directory, by `ext_of_get?`. -/
theorem Records.eq_of_reordered {puts' : List (String × P)} (h : d.Records puts)
    (h' : other.Records puts') (hreordered : Reordered puts puts') : d = other := by
  refine ext_of_get? h.ascending h'.ascending fun name => ?_
  rw [h.last, h'.last]
  unfold lastPut?
  rw [hreordered name]

theorem Reordered.append {rows rows' : List (String × P)} (h : Reordered rows rows')
    (puts : List (String × P)) : Reordered (puts ++ rows) (puts ++ rows') := by
  intro name
  rw [List.filter_append, List.filter_append, h name]

end Directory

variable {ρ σ π : Type}

namespace World

/-! ### Puts into a map of the world -/

/-- What calls have put into the map at a place: the rows of each call by `Action.mapRows`, if the
place is its `Action.mapTarget`. -/
def putsAt (place : CatalogId) (calls : List (Call ρ σ π)) : List (String × Provider ρ) :=
  calls.flatMap fun call =>
    if call.action.mapTarget call.before = some place then call.action.mapRows else []

/-- A map has what had been put, and what calls have put since by `putsAt`, whether through builders
or not. -/
theorem Passes.records {w v : World ρ σ π} {calls : List (Call ρ σ π)} {place : CatalogId}
    {puts : List (String × Provider ρ)} (h : w.Passes calls v) (hknown : place.index < w.catalogs.size)
    (hrecords : (w.catalog place).entries.Records puts) :
    place.index < v.catalogs.size ∧ (v.catalog place).entries.Records (puts ++ putsAt place calls) := by
  have hcollect (catalog : Catalog (Provider ρ)) (rows : List (String × Provider ρ)) :
      Collection.map.collect catalog rows =
        .ok ⟨catalog.map, rows.foldl (fun d row => d.put row.1 row.2) catalog.entries⟩ := by
    induction rows generalizing catalog with
    | nil => rfl
    | cons row rows ih => exact ih ⟨catalog.map, catalog.entries.put row.1 row.2⟩
  have hshares : Collection.map.Known v place ∧
      Collection.map.collect (w.catalog place) (putsAt place calls) = .ok (v.catalog place) :=
    Collection.collect_shares h v.numberedBy_numbering hknown
  rw [hcollect] at hshares
  refine ⟨hshares.1, ?_⟩
  rw [← Except.ok.inj hshares.2]
  exact hrecords.putAll _

/-- The action puts the row into the map, by itself or as a call of a builder of the map. -/
inductive PutsInto (w : World ρ σ π) (place : CatalogId) : Action ρ σ π → String × Provider ρ → Prop
  | direct (name : String) (p : Provider ρ) : PutsInto w place (.putEntry place name p) (name, p)
  | builder {id : InjectorId} {map : Key} (h : Collection.map.BoundTo w id map place) (name : String)
      (p : Provider ρ) : PutsInto w place (.contributeNamed id map name p) (name, p)

variable {w v : World ρ σ π} {place : CatalogId} {action : Action ρ σ π} {row : String × Provider ρ}

theorem PutsInto.perform (h : w.PutsInto place action row) :
    (action.perform w).2 = w.putEntry place row.1 row.2 := by
  cases h with
  | direct name p => rfl
  | builder hbound name p =>
    have hopened : w.openMap _ _ = (.ok place, w) := hbound.opened_eq
    show (w.contributeNamed _ _ name p).2 = w.putEntry place name p
    rw [contributeNamed, hopened]

/-- What puts a row goes on to do so while others are put, since builders find the map by its
binding. -/
theorem PutsInto.after (h : w.PutsInto place action row) (name : String) (p : Provider ρ) :
    (w.putEntry place name p).PutsInto place action row := by
  cases h with
  | direct name p => exact .direct name p
  | builder hbound name' p' =>
    have hput : w.Passes [⟨.putEntry place name p, w⟩] (w.putEntry place name p) :=
      (Passes.refl w).call (.putEntry place name p)
    exact .builder (hbound.passes hput (by simp [Action.Binds])) name' p'

/-- The world with rows put into a map, one after the other by `putEntry`. -/
def putAll (w : World ρ σ π) (place : CatalogId) (rows : List (String × Provider ρ)) : World ρ σ π :=
  rows.foldl (fun w row => w.putEntry place row.1 row.2) w

theorem performAll_puts {actions : List (Action ρ σ π)} {rows : List (String × Provider ρ)}
    (h : List.Forall₂ (w.PutsInto place) actions rows) :
    (w.performAll actions).2 = w.putAll place rows := by
  induction rows generalizing actions w with
  | nil =>
    cases h
    rfl
  | cons row rows ih =>
    cases h with
    | @cons action _ actions _ hput hrest =>
      show ((action.perform w).2.performAll actions).2 = _
      rw [hput.perform]
      exact ih (hrest.imp fun _ _ h => h.after row.1 row.2)

/-- Puts one after the other are one change of the map, and of the log, which `unlogged` leaves
out. -/
theorem unlogged_putAll (hknown : place.index < w.catalogs.size) (rows : List (String × Provider ρ)) :
    (w.putAll place rows).unlogged = (w.setCatalog place ⟨(w.catalog place).map,
      rows.foldl (fun d row => d.put row.1 row.2) (w.catalog place).entries⟩).unlogged := by
  induction rows generalizing w with
  | nil =>
    have hsame : w.catalogs.setIfInBounds place.index (w.catalog place) = w.catalogs := by
      unfold catalog
      rw [Array.getElem?_eq_getElem hknown, Array.setIfInBounds_def, dif_pos hknown]
      exact Array.set_getElem_self hknown
    show w.unlogged = { w.unlogged with catalogs := w.catalogs.setIfInBounds place.index (w.catalog place) }
    rw [hsame]
    rfl
  | cons row rows ih =>
    let v := w.putEntry place row.1 row.2
    have hput : v.catalog place =
        ⟨(w.catalog place).map, (w.catalog place).entries.put row.1 row.2⟩ := by
      show ((w.catalogs.setIfInBounds place.index _)[place.index]?).getD _ = _
      rw [Array.getElem?_setIfInBounds_self_of_lt hknown]
      rfl
    have hsize : place.index < v.catalogs.size := by
      show place.index < (w.catalogs.setIfInBounds _ _).size
      rwa [Array.size_setIfInBounds]
    -- the last change of the map is the one that stays
    have hlast (catalog : Catalog (Provider ρ)) :
        (v.setCatalog place catalog).unlogged = (w.setCatalog place catalog).unlogged := by
      simp only [v, putEntry, setCatalog, note, unlogged, Array.setIfInBounds_setIfInBounds]
    refine (ih hsize).trans ?_
    rw [hlast, hput]
    rfl

/-- Puts into a map can be made in another order, if those under each name keep theirs
(`Reordered`): up to the log, they lead to the same world. -/
theorem performAll_reordered {actions actions' : List (Action ρ σ π)}
    {puts rows rows' : List (String × Provider ρ)} (hknown : place.index < w.catalogs.size)
    (hrecords : (w.catalog place).entries.Records puts) (h : List.Forall₂ (w.PutsInto place) actions rows)
    (h' : List.Forall₂ (w.PutsInto place) actions' rows') (hreordered : Directory.Reordered rows rows') :
    (w.performAll actions).2.unlogged = (w.performAll actions').2.unlogged := by
  have hsame := (hrecords.putAll rows).eq_of_reordered (hrecords.putAll rows') (hreordered.append puts)
  rw [performAll_puts h, performAll_puts h', unlogged_putAll hknown, unlogged_putAll hknown, hsame]

end World

end Wiring
