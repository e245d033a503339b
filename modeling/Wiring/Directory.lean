/-!
# Directories: the entries of a map

A map is assembled from entries that are known by names. `Directory.put` under a name that is there
replaces its entry. The entries are kept in the ascending order of their names (`ascending_put`),
which is the order in which the map is produced, whatever order they were put in.
-/

namespace Wiring

/-- Names with what they stand for, as `rows` that ascend by name: `put` and `ofList` see to
that. -/
structure Directory (P : Type) where
  rows : List (String × P) := []

namespace Directory

variable {P : Type}

def empty : Directory P := {}

def names (d : Directory P) : List String :=
  d.rows.map (·.1)

def size (d : Directory P) : Nat :=
  d.rows.length

def get? (d : Directory P) (name : String) : Option P :=
  (d.rows.find? (·.1 = name)).map (·.2)

def contains (d : Directory P) (name : String) : Bool :=
  (d.get? name).isSome

/-- Puts a row in its place among ascending rows, or in place of the row of its name. The walk goes
past smaller names only, so it is right for rows that ascend. -/
def putRow (name : String) (p : P) : List (String × P) → List (String × P)
  | [] => [(name, p)]
  | row :: rest =>
    if name = row.1 then (name, p) :: rest
    else if name < row.1 then (name, p) :: row :: rest
    else row :: putRow name p rest

/-- Puts `p` under `name`, in the place of what was there, by `putRow`. -/
def put (d : Directory P) (name : String) (p : P) : Directory P :=
  ⟨putRow name p d.rows⟩

/-- The directory that holds the given rows, each by `put`, so that the last of each name stays. -/
def ofList (rows : List (String × P)) : Directory P :=
  rows.foldl (fun d row => d.put row.1 row.2) empty

theorem get?_put (d : Directory P) (name other : String) (p : P) :
    (d.put name p).get? other = if name = other then some p else d.get? other := by
  obtain ⟨rows⟩ := d
  simp only [get?, put]
  induction rows with
  | nil => by_cases h : name = other <;> simp [putRow, h]
  | cons row rest ih =>
    by_cases hname : name = row.1
    · subst hname
      by_cases h : row.1 = other <;> simp [putRow, h]
    · by_cases hlt : name < row.1
      · rw [putRow, if_neg hname, if_pos hlt, List.find?_cons]
        by_cases h : name = other <;> simp [h]
      · simp only [putRow, hname, hlt, if_false, List.find?_cons]
        by_cases h : row.1 = other
        · have : ¬ name = other := fun e => hname (e.trans h.symm)
          simp [h, this]
        · simp only [h, decide_false]
          exact ih

/-! ### The order of the names -/

theorem mem_names_putRow {name other : String} {p : P} {rows : List (String × P)} :
    other ∈ (putRow name p rows).map (·.1) ↔ other = name ∨ other ∈ rows.map (·.1) := by
  induction rows with
  | nil => simp [putRow]
  | cons row rest ih =>
    unfold putRow
    split
    case isTrue h => simp [h]
    case isFalse h =>
      split
      · simp
      · rw [List.map_cons, List.mem_cons, ih, List.map_cons, List.mem_cons, or_left_comm]

theorem mem_names_put {d : Directory P} {name other : String} {p : P} :
    other ∈ (d.put name p).names ↔ other = name ∨ other ∈ d.names :=
  mem_names_putRow

/-- Names stay ascending under `put`, which is all that ever changes them. -/
theorem ascending_put {d : Directory P} (h : d.names.Pairwise (· < ·)) (name : String) (p : P) :
    (d.put name p).names.Pairwise (· < ·) := by
  obtain ⟨rows⟩ := d
  change (rows.map (·.1)).Pairwise (· < ·) at h
  show ((putRow name p rows).map (·.1)).Pairwise (· < ·)
  induction rows with
  | nil => simp [putRow]
  | cons row rest ih =>
    rw [List.map_cons, List.pairwise_cons] at h
    unfold putRow
    split
    case isTrue heq =>
      rw [List.map_cons, List.pairwise_cons]
      exact ⟨heq ▸ h.1, h.2⟩
    case isFalse hne =>
      split
      case isTrue hlt =>
        rw [List.map_cons, List.pairwise_cons, List.map_cons, List.pairwise_cons]
        refine ⟨fun other hother => ?_, h⟩
        rcases List.mem_cons.1 hother with rfl | hrest
        · exact hlt
        · exact String.lt_trans hlt (h.1 other hrest)
      case isFalse hle =>
        rw [List.map_cons, List.pairwise_cons]
        refine ⟨fun other hother => ?_, ih h.2⟩
        rcases mem_names_putRow.1 hother with rfl | hrest
        · -- not below and not equal, so above
          exact Std.lt_of_le_of_ne (String.not_lt.1 hle) (Ne.symm hne)
        · exact h.1 other hrest

end Directory

end Wiring
