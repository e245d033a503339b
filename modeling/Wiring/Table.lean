/-!
# Tables

A `Table` holds at most one value per key and keeps its keys in the order in which they were first
inserted. The laws say what `insert` and `erase` do to the view `get?`, what stands in the `rows`,
and that the keys stay distinct.
-/

namespace Wiring

/-- A finite map from `κ` to `α` whose keys keep the order of their first insertion, with its `rows`
in that order. -/
structure Table (κ α : Type) where
  rows : List (κ × α) := []

namespace Table

variable {κ α : Type}

/-- The table without rows, in which `get?` finds nothing. -/
def empty : Table κ α := {}

instance : Inhabited (Table κ α) := ⟨empty⟩

def keys (t : Table κ α) : List κ := t.rows.map (·.1)

def values (t : Table κ α) : List α := t.rows.map (·.2)

def size (t : Table κ α) : Nat := t.rows.length

variable [DecidableEq κ]

/-- The value under `k`, that of the first row with this key. -/
def get? (t : Table κ α) (k : κ) : Option α :=
  (t.rows.find? (·.1 = k)).map (·.2)

def contains (t : Table κ α) (k : κ) : Bool :=
  (t.get? k).isSome

/-- Puts `a` under `k`: in the place of the value that was there, else at the end. -/
def insert (t : Table κ α) (k : κ) (a : α) : Table κ α :=
  -- a key keeps its place, whatever is put under it
  if t.contains k then ⟨t.rows.map fun row => if row.1 = k then (k, a) else row⟩
  else ⟨t.rows ++ [(k, a)]⟩

def erase (t : Table κ α) (k : κ) : Table κ α :=
  ⟨t.rows.filter (·.1 ≠ k)⟩

/-! ### What the operations do to the view -/

@[simp] theorem get?_empty (k : κ) : (empty : Table κ α).get? k = none := rfl

theorem get?_eq_none_iff {t : Table κ α} {k : κ} : t.get? k = none ↔ k ∉ t.keys := by
  constructor
  · intro h hk
    obtain ⟨row, hrow, rfl⟩ := List.mem_map.1 hk
    rw [get?, Option.map_eq_none_iff, List.find?_eq_none] at h
    exact h row hrow (by simp)
  · intro h
    rw [get?, Option.map_eq_none_iff, List.find?_eq_none]
    intro row hrow hk
    exact h (List.mem_map.2 ⟨row, hrow, by simpa using hk⟩)

theorem contains_iff {t : Table κ α} {k : κ} : t.contains k = true ↔ k ∈ t.keys := by
  rw [contains, Option.isSome_iff_ne_none, ne_eq, get?_eq_none_iff, Decidable.not_not]

theorem mem_rows_of_get? {t : Table κ α} {k : κ} {a : α} (h : t.get? k = some a) :
    (k, a) ∈ t.rows := by
  obtain ⟨row, hrow, rfl⟩ := Option.map_eq_some_iff.1 h
  obtain rfl : row.1 = k := by simpa using List.find?_some hrow
  exact List.mem_of_find?_eq_some hrow

theorem mem_values_of_get? {t : Table κ α} {k : κ} {a : α} (h : t.get? k = some a) :
    a ∈ t.values :=
  List.mem_map_of_mem (mem_rows_of_get? h)

theorem find?_map_replace (rows : List (κ × α)) (k j : κ) (f : κ × α → κ × α)
    (hf : ∀ row, (f row).1 = row.1) :
    (rows.map fun row => if row.1 = k then f row else row).find? (·.1 = j) =
      (rows.find? (·.1 = j)).map fun row => if row.1 = k then f row else row := by
  induction rows with
  | nil => rfl
  | cons row rest ih =>
    have hkey : (if row.1 = k then f row else row).1 = row.1 := by split <;> simp [hf]
    rw [List.map_cons, List.find?_cons, List.find?_cons, hkey, ih]
    by_cases h : row.1 = j <;> simp [h]

theorem get?_insert (t : Table κ α) (k j : κ) (a : α) :
    (t.insert k a).get? j = if k = j then some a else t.get? j := by
  unfold insert
  split
  case isTrue hk =>
    have hrows : (t.rows.map fun row => if row.1 = k then (k, a) else row) =
        t.rows.map fun row => if row.1 = k then (row.1, a) else row := by
      apply List.map_congr_left
      intro row _
      by_cases h : row.1 = k <;> simp [h]
    simp only [get?]
    rw [hrows, find?_map_replace t.rows k j (fun row => (row.1, a)) (fun _ => rfl)]
    cases hfound : t.rows.find? (·.1 = j) with
    | none =>
      have hj : j ∉ t.keys := get?_eq_none_iff.1 (by simp [get?, hfound])
      have hkj : k ≠ j := fun h => hj (h ▸ contains_iff.1 hk)
      simp [hkj]
    | some row =>
      have hrow : row.1 = j := by simpa using List.find?_some hfound
      by_cases h : k = j
      · simp [hrow, h]
      · have : ¬ j = k := fun e => h e.symm
        simp [hrow, h, this]
  case isFalse hk =>
    have hnone : t.get? k = none := by simpa [contains] using hk
    simp only [get?, List.find?_append]
    by_cases h : k = j
    · subst h
      have : t.rows.find? (fun row => decide (row.1 = k)) = none := by
        simpa [get?] using hnone
      simp [this]
    · simp [h]

@[simp] theorem get?_insert_self (t : Table κ α) (k : κ) (a : α) :
    (t.insert k a).get? k = some a := by
  simp [get?_insert]

theorem get?_insert_of_ne (t : Table κ α) {k j : κ} (a : α) (h : k ≠ j) :
    (t.insert k a).get? j = t.get? j := by
  simp [get?_insert, h]

theorem get?_erase (t : Table κ α) (k j : κ) :
    (t.erase k).get? j = if k = j then none else t.get? j := by
  obtain ⟨rows⟩ := t
  simp only [get?, erase]
  induction rows with
  | nil => simp
  | cons row rest ih =>
    by_cases hk : row.1 = k
    · rw [List.filter_cons_of_neg (by simp [hk]), ih, List.find?_cons, hk]
      by_cases h : k = j <;> simp [h]
    · rw [List.filter_cons_of_pos (by simp [hk]), List.find?_cons, List.find?_cons]
      by_cases hj : row.1 = j
      · have : ¬ k = j := fun e => hk (hj.trans e.symm)
        simp [hj, this]
      · simp only [hj, decide_false, ih]

/-! ### Rows -/

theorem insert_of_get? {t : Table κ α} {k : κ} (a : α) (h : t.get? k = none) :
    t.insert k a = ⟨t.rows ++ [(k, a)]⟩ := by
  simp [insert, contains, h]

/-- Erasing a key that `insert` has put last, for it was new, gives the table that was there before.
-/
theorem erase_insert {t : Table κ α} {k : κ} (a : α) (h : t.get? k = none) :
    (t.insert k a).erase k = t := by
  have hkept : t.rows.filter (fun row => decide (row.1 ≠ k)) = t.rows :=
    List.filter_eq_self.2 fun row hrow => by
      simpa using fun heq : row.1 = k => get?_eq_none_iff.1 h (heq ▸ List.mem_map_of_mem hrow)
  rw [insert_of_get? a h, erase, List.filter_append, hkept]
  simp

/-- In a table with one value under all its keys, `get?` finds that value or nothing. -/
theorem get?_of_map (keys : List κ) (a : α) (k : κ) :
    (⟨keys.map fun j => (j, a)⟩ : Table κ α).get? k = if k ∈ keys then some a else none := by
  induction keys with
  | nil => rfl
  | cons first keys ih =>
    by_cases h : first = k
    · simp [get?, h]
    · have hrest : (⟨(first :: keys).map fun j => (j, a)⟩ : Table κ α).get? k =
          (⟨keys.map fun j => (j, a)⟩ : Table κ α).get? k := by simp [get?, h]
      rw [hrest, ih]
      simp [Ne.symm h]

/-- Erasing a new key from the end of such a table leaves the rows of the others. -/
theorem erase_of_map {keys : List κ} {k : κ} (a : α) (h : k ∉ keys) :
    (⟨(keys ++ [k]).map fun j => (j, a)⟩ : Table κ α).erase k = ⟨keys.map fun j => (j, a)⟩ := by
  have hkept : keys.filter (fun j => decide (j ≠ k)) = keys :=
    List.filter_eq_self.2 fun j hj => by simpa using fun heq : j = k => h (heq ▸ hj)
  rw [erase, List.filter_map]
  show (⟨((keys ++ [k]).filter fun j => decide (j ≠ k)).map _⟩ : Table κ α) = _
  rw [List.filter_append, hkept]
  simp

end Table

end Wiring
