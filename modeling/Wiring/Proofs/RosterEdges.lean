import Mathlib.Data.List.Forall2
import Wiring.Proofs.Placement
import Wiring.Roster

/-!
# What the entries of a list ask for

`Roster.Asks` says which entries are asked to stand before which, whether the one asks it or the
other. The `Roster.edges` that are handed to the ordering are these requests between positions,
possibly listed more than once and in an order that depends on how the sets of an entry are run
through. By `linearize_congr` none of that shows in the outcome: it is fixed by the keys and the
requests among them (`Roster.order_congr`).

* **`Roster.asks_add`** and **`Roster.asks_modify`** — what an edit of the list adds to
  `Roster.Asks`, so that histories are followed without a look at positions.
* **`Roster.keys_of_positions`** — the positions that `linearize` gives can be read as keys at once,
  without the entries.
* **`Roster.Shuffled`** — the same list but for the order in which the sets of an entry are run
  through; by `Shuffled.mem_edges_of` the edges are the same.
-/

namespace Wiring

/-- The entry asks that `a` stand before `b`: it is `b` and is to follow `a` (`Entry.after`), or it
is `a` and is to precede `b` (`Entry.before`). -/
def Entry.Asks {P : Type} (e : Entry P) (a b : Key) : Prop :=
  (e.key = b ∧ a ∈ e.after) ∨ (e.key = a ∧ b ∈ e.before)

instance {P : Type} (e : Entry P) (a b : Key) : Decidable (e.Asks a b) :=
  inferInstanceAs (Decidable ((e.key = b ∧ a ∈ e.after) ∨ (e.key = a ∧ b ∈ e.before)))

/-- To stand on that side of `other` puts the one of two entries before the other one: `Side.after`
puts `other` first, `Side.before` the entry. -/
def Side.Puts (entry other a b : Key) : Side → Prop
  | .after => other = a ∧ entry = b
  | .before => entry = a ∧ other = b

namespace Roster

variable {P : Type}

def Asks (roster : Roster P) (a b : Key) : Prop :=
  ∃ e ∈ roster.entries, e.Asks a b

instance (roster : Roster P) (a b : Key) : Decidable (roster.Asks a b) :=
  inferInstanceAs (Decidable (∃ e ∈ roster.entries, e.Asks a b))

/-! ### What the operations do to the requests -/

theorem mem_includeKey {keys : List Key} {key other : Key} :
    other ∈ includeKey keys key ↔ other ∈ keys ∨ other = key := by
  unfold includeKey
  split
  case isTrue h =>
    constructor
    · exact .inl
    · rintro (hmem | rfl)
      · exact hmem
      · exact h
  · simp

/-- If a change of one entry adds the request `R` to what the entry asks, it adds `R` to what
`Roster.Asks` altogether. So `Roster.place` adds what `Side.Puts` says. -/
theorem asks_modify {roster : Roster P} {key a b : Key} {f : Entry P → Entry P} {R : Prop}
    {hkeep : ∀ e, (f e).key = e.key} (hkey : roster.contains key = true)
    (hf : ∀ e, e.key = key → ((f e).Asks a b ↔ e.Asks a b ∨ R)) :
    (roster.modify key f hkeep).Asks a b ↔ roster.Asks a b ∨ R := by
  obtain ⟨earlier, e, later, hentries, hown, hmodified⟩ := entries_modify f hkeep hkey
  unfold Asks
  rw [hentries, hmodified]
  simp only [List.mem_append, List.mem_cons, or_and_right, exists_or, exists_eq_left, hf e hown]
  grind

/-- A new provider takes nothing from what was asked, and a new entry asks for nothing, so
`Roster.add` leaves `Roster.Asks` as it is. -/
theorem asks_add (roster : Roster P) (key : Key) (provider : P) {a b : Key} :
    (roster.add key provider).Asks a b ↔ roster.Asks a b := by
  unfold add
  split
  case isTrue hkey =>
    have hsame (e : Entry P) (_ : e.key = key) :
        ({ e with provider } : Entry P).Asks a b ↔ e.Asks a b ∨ False := (or_false _).symm ▸ Iff.rfl
    rw [asks_modify hkey hsame, or_false]
  case isFalse =>
    simp [Asks, Entry.Asks, or_and_right, exists_or]

theorem asks_place {roster changed : Roster P} {entry other a b : Key} {side : Side}
    (h : roster.place entry side other = .ok changed) :
    changed.Asks a b ↔ roster.Asks a b ∨ side.Puts entry other a b := by
  obtain ⟨hentry, rfl⟩ := place_eq_ok_iff.1 h
  refine asks_modify hentry fun e he => ?_
  cases side <;> simp only [Entry.Asks, Entry.ask, Side.Puts, mem_includeKey, he] <;> grind

/-! ### Positions -/

theorem length_keys (roster : Roster P) : roster.keys.length = roster.size := by
  simp [keys, size]

theorem getElem?_keys (roster : Roster P) (position : Nat) :
    roster.keys[position]? = roster.entries[position]?.map (·.key) := by
  rw [keys, List.getElem?_map]

theorem position?_eq_findIdx?_keys (roster : Roster P) (key : Key) :
    roster.position? key = roster.keys.findIdx? (· = key) := by
  rw [position?, roster.index.agrees, keys, List.findIdx?_map]
  rfl

theorem position?_lt {roster : Roster P} {key : Key} {position : Nat}
    (h : roster.position? key = some position) : position < roster.size := by
  rw [position?, roster.index.agrees] at h
  obtain ⟨hlt, -⟩ := List.findIdx?_eq_some_iff_getElem.1 h
  exact hlt

theorem position?_eq_some_iff {roster : Roster P} (hnodup : roster.keys.Nodup) {key : Key}
    {position : Nat} : roster.position? key = some position ↔
      roster.keys[position]? = some key := by
  rw [position?_eq_findIdx?_keys, List.findIdx?_eq_some_iff_getElem, List.getElem?_eq_some_iff]
  constructor
  · rintro ⟨hlt, hkey, -⟩
    exact ⟨hlt, by simpa using hkey⟩
  · rintro ⟨hlt, hkey⟩
    refine ⟨hlt, by simpa using hkey, fun j hj hjkey => ?_⟩
    -- the same key at an earlier place would be there twice
    have hne := List.pairwise_iff_getElem.1 hnodup j position (by omega) hlt hj
    have hjkey' : roster.keys[j] = key := by simpa using hjkey
    exact hne (hjkey'.trans hkey.symm)

/-! ### The edges -/

theorem mem_edges {roster : Roster P} (hnodup : roster.keys.Nodup) {i j : Nat} :
    (i, j) ∈ roster.edges ↔
      ∃ a b, roster.keys[i]? = some a ∧ roster.keys[j]? = some b ∧ roster.Asks a b := by
  have hpos {key : Key} {position : Nat} : roster.position? key = some position ↔
      roster.keys[position]? = some key := position?_eq_some_iff hnodup
  constructor
  · intro h
    obtain ⟨⟨e, place⟩, he, hmem⟩ := List.mem_flatMap.1 h
    have hplace := List.mem_zipIdx_iff_getElem?.1 he
    have hentry : e ∈ roster.entries := List.mem_of_getElem? hplace
    have hkey : roster.keys[place]? = some e.key := by
      rw [getElem?_keys, hplace]
      rfl
    rcases List.mem_append.1 hmem with hafter | hbefore
    · obtain ⟨start, hstart, heq⟩ := List.mem_map.1 hafter
      obtain ⟨other, hother, hposition⟩ := List.mem_filterMap.1 hstart
      cases heq
      exact ⟨other, e.key, hpos.1 hposition, hkey, e, hentry, .inl ⟨rfl, hother⟩⟩
    · obtain ⟨upto, hupto, heq⟩ := List.mem_map.1 hbefore
      obtain ⟨other, hother, hposition⟩ := List.mem_filterMap.1 hupto
      cases heq
      exact ⟨e.key, other, hkey, hpos.1 hposition, e, hentry, .inr ⟨rfl, hother⟩⟩
  · -- an entry stands at the position of its key
    have hat {e : Entry P} (he : e ∈ roster.entries) {position : Nat}
        (hposition : roster.keys[position]? = some e.key) :
        (e, position) ∈ roster.entries.zipIdx := by
      obtain ⟨place, hplace⟩ := List.getElem?_of_mem he
      have hkey : roster.keys[place]? = some e.key := by
        rw [getElem?_keys, hplace]
        rfl
      have heq : some place = some position := (hpos.2 hkey).symm.trans (hpos.2 hposition)
      cases heq
      exact List.mem_zipIdx_iff_getElem?.2 hplace
    rintro ⟨a, b, ha, hb, e, he, ⟨rfl, hasked⟩ | ⟨rfl, hasked⟩⟩
    · refine List.mem_flatMap.2 ⟨(e, j), hat he hb, List.mem_append.2 (.inl ?_)⟩
      exact List.mem_map.2 ⟨i, List.mem_filterMap.2 ⟨a, hasked, hpos.2 ha⟩, rfl⟩
    · refine List.mem_flatMap.2 ⟨(e, i), hat he ha, List.mem_append.2 (.inr ?_)⟩
      exact List.mem_map.2 ⟨j, List.mem_filterMap.2 ⟨b, hasked, hpos.2 hb⟩, rfl⟩

theorem within_edges (roster : Roster P) : Linearize.Within roster.size roster.edges := by
  intro i j h
  obtain ⟨⟨e, place⟩, he, hmem⟩ := List.mem_flatMap.1 h
  have hplace : place < roster.size :=
    (List.getElem?_eq_some_iff.1 (List.mem_zipIdx_iff_getElem?.1 he)).1
  rcases List.mem_append.1 hmem with hafter | hbefore
  · obtain ⟨start, hstart, heq⟩ := List.mem_map.1 hafter
    obtain ⟨other, -, hposition⟩ := List.mem_filterMap.1 hstart
    cases heq
    exact ⟨position?_lt hposition, hplace⟩
  · obtain ⟨upto, hupto, heq⟩ := List.mem_map.1 hbefore
    obtain ⟨other, -, hposition⟩ := List.mem_filterMap.1 hupto
    cases heq
    exact ⟨hplace, position?_lt hposition⟩

/-! ### The order -/

/-- Two orders agree: both hold the same keys in the same order, or both have none because the
requests contradict themselves, with faults of kind `orderingCycle`. -/
def SameOrder : Except Fault (List Key) → Except Fault (List Key) → Prop
  | .ok keys, .ok others => keys = others
  | .error fault, .error other => fault.kind = .orderingCycle ∧ other.kind = .orderingCycle
  | _, _ => False

/-- The keys of the entries in order, from the positions in order that `linearize` gives. -/
theorem keys_of_positions (roster : Roster P) (positions : List Nat) :
    (positions.filterMap (roster.entries[·]?)).map (·.key) =
      positions.filterMap (roster.keys[·]?) := by
  rw [List.map_filterMap]
  apply List.filterMap_congr
  intro position _
  rw [getElem?_keys]

/-- The edges are fixed by the keys and what is asked among them by `Roster.Asks`, whatever the
providers are and however the requests are stored. -/
theorem edges_congr {Q : Type} {roster : Roster P} {other : Roster Q}
    (hkeys : roster.keys = other.keys) (hnodup : roster.keys.Nodup)
    (hasks : ∀ a ∈ roster.keys, ∀ b ∈ roster.keys, roster.Asks a b ↔ other.Asks a b)
    (edge : Linearize.Edge) : edge ∈ roster.edges ↔ edge ∈ other.edges := by
  obtain ⟨i, j⟩ := edge
  rw [mem_edges hnodup, mem_edges (hkeys ▸ hnodup), ← hkeys]
  constructor
  · rintro ⟨a, b, ha, hb, hab⟩
    exact ⟨a, b, ha, hb,
      (hasks a (List.mem_of_getElem? ha) b (List.mem_of_getElem? hb)).1 hab⟩
  · rintro ⟨a, b, ha, hb, hab⟩
    exact ⟨a, b, ha, hb,
      (hasks a (List.mem_of_getElem? ha) b (List.mem_of_getElem? hb)).2 hab⟩

/-- The order is fixed by the keys and what is asked among them: by `edges_congr` both rosters have
the same edges, and by `linearize_congr` those give the same order. -/
theorem order_congr {Q : Type} {roster : Roster P} {other : Roster Q}
    (hkeys : roster.keys = other.keys) (hnodup : roster.keys.Nodup)
    (hasks : ∀ a ∈ roster.keys, ∀ b ∈ roster.keys, roster.Asks a b ↔ other.Asks a b) :
    SameOrder (roster.order.map (·.map (·.key))) (other.order.map (·.map (·.key))) := by
  have hedges := edges_congr hkeys hnodup hasks
  have hsize : roster.size = other.size := by
    rw [← length_keys, ← length_keys, hkeys]
  unfold order
  rcases linearize_congr (within_edges roster) hedges with ⟨positions, h, k⟩ | ⟨c, d, h, k⟩
  · rw [h, ← hsize, k]
    show (positions.filterMap (roster.entries[·]?)).map (·.key) =
      (positions.filterMap (other.entries[·]?)).map (·.key)
    rw [keys_of_positions, keys_of_positions, hkeys]
  · rw [h, ← hsize, k]
    exact ⟨rfl, rfl⟩

end Roster

/-! ### Sets in another order -/

/-- The same entry, its two sets `after` and `before` run through in whatever order. -/
structure Entry.Shuffled {P : Type} (e f : Entry P) : Prop where
  key : e.key = f.key
  provider : e.provider = f.provider
  after : e.after.Perm f.after
  before : e.before.Perm f.before

/-- The same list, the two sets of each entry run through in whatever order, as `Entry.Shuffled` has
it. -/
structure Roster.Shuffled {P : Type} (roster other : Roster P) : Prop where
  list : roster.list = other.list
  entries : List.Forall₂ Entry.Shuffled roster.entries other.entries

namespace Roster.Shuffled

variable {P : Type} {roster other : Roster P}

theorem keys (h : roster.Shuffled other) : roster.keys = other.keys := by
  have hentries := h.entries
  unfold Roster.keys
  generalize roster.entries = entries at hentries ⊢
  generalize other.entries = others at hentries ⊢
  induction hentries with
  | nil => rfl
  | cons hhead _ ih =>
    rw [List.map_cons, List.map_cons, hhead.key, ih]

theorem refl (roster : Roster P) : roster.Shuffled roster :=
  ⟨rfl, List.forall₂_same.2 fun _ _ => ⟨rfl, rfl, .rfl, .rfl⟩⟩

theorem symm (h : roster.Shuffled other) : other.Shuffled roster := by
  refine ⟨h.list.symm, h.entries.flip.imp fun e f hef => ?_⟩
  exact ⟨hef.key.symm, hef.provider.symm, hef.after.symm, hef.before.symm⟩

/-- Each entry is found among the others, with its sets shuffled. -/
theorem exists_entry (h : roster.Shuffled other) {e : Entry P} (he : e ∈ roster.entries) :
    ∃ f ∈ other.entries, e.Shuffled f := by
  obtain ⟨place, hplace⟩ := List.getElem?_of_mem he
  obtain ⟨hlt, hget⟩ := List.getElem?_eq_some_iff.1 hplace
  have hlt' : place < other.entries.length := h.entries.length_eq ▸ hlt
  have hef := h.entries.get hlt hlt'
  refine ⟨other.entries[place], List.getElem_mem hlt', ?_⟩
  rw [← hget]
  exact hef

theorem asks (h : roster.Shuffled other) {a b : Key} (hab : roster.Asks a b) :
    other.Asks a b := by
  obtain ⟨e, he, hasked⟩ := hab
  obtain ⟨f, hf, hef⟩ := h.exists_entry he
  refine ⟨f, hf, ?_⟩
  rcases hasked with ⟨hkey, hmem⟩ | ⟨hkey, hmem⟩
  · exact .inl ⟨hef.key.symm.trans hkey, hef.after.mem_iff.1 hmem⟩
  · exact .inr ⟨hef.key.symm.trans hkey, hef.before.mem_iff.1 hmem⟩

theorem asks_iff (h : roster.Shuffled other) {a b : Key} :
    roster.Asks a b ↔ other.Asks a b :=
  ⟨h.asks, h.symm.asks⟩

/-- An edge comes of one entry, and the entry at the same place gives it too, so `Roster.Shuffled`
leaves the edges the same. -/
theorem mem_edges_of (h : roster.Shuffled other) {edge : Linearize.Edge}
    (hedge : edge ∈ roster.edges) : edge ∈ other.edges := by
  obtain ⟨⟨e, place⟩, he, hmem⟩ := List.mem_flatMap.1 hedge
  have hplace : roster.entries[place]? = some e := List.mem_zipIdx_iff_getElem?.1 he
  obtain ⟨hlt, hget⟩ := List.getElem?_eq_some_iff.1 hplace
  have hlt' : place < other.entries.length := h.entries.length_eq ▸ hlt
  have hef : e.Shuffled other.entries[place] := by
    rw [← hget]
    exact h.entries.get hlt hlt'
  have hposition : roster.position? = other.position? := by
    funext key
    rw [Roster.position?_eq_findIdx?_keys, Roster.position?_eq_findIdx?_keys, h.keys]
  refine List.mem_flatMap.2 ⟨(other.entries[place], place), ?_, ?_⟩
  · exact List.mem_zipIdx_iff_getElem?.2 (List.getElem?_eq_getElem hlt')
  · rw [hposition] at hmem
    refine List.mem_append.2 ((List.mem_append.1 hmem).imp ?_ ?_)
    · exact fun hafter => (((hef.after.filterMap _).map _).mem_iff).1 hafter
    · exact fun hbefore => (((hef.before.filterMap _).map _).mem_iff).1 hbefore

theorem mem_edges_iff (h : roster.Shuffled other) (edge : Linearize.Edge) :
    edge ∈ roster.edges ↔ edge ∈ other.edges :=
  ⟨h.mem_edges_of, h.symm.mem_edges_of⟩

end Roster.Shuffled

end Wiring
