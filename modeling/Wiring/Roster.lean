import Wiring.Fault
import Wiring.Linearize
import Wiring.Table

/-!
# Rosters: the entries of a list

A list is assembled from entries, each known by a key. A `Roster` keeps entries in the order in
which their keys were first added; an `Entry` can ask to stand on a `Side` of another, and a request
that names a key which is no entry waits until it is one. The order is worked out anew each time it
is needed, by `Linearize` from the `Roster.edges`.

An `Index` tells where the entry of a key stands. It carries the proof that it agrees with the
entries, so whatever changes the entries has to keep it up.
-/

namespace Wiring

/-- What one key contributes to a list, and where it asks to stand. -/
structure Entry (P : Type) where
  key : Key
  provider : P
  /-- The keys that this entry is to follow, as `ask` with `Side.after` records them. -/
  after : List Key := []
  /-- The keys that this entry is to precede, as `ask` with `Side.before` records them. -/
  before : List Key := []

/-- The side of another entry on which an entry asks to stand. -/
inductive Side where
  | after
  | before
deriving DecidableEq

namespace Roster

variable {P : Type}

/-- Adds a key to a set of keys, where a key that is there already stays in its place. -/
def includeKey (keys : List Key) (key : Key) : List Key :=
  if key ∈ keys then keys else keys ++ [key]

end Roster

namespace Entry

variable {P : Type}

/-- The keys of the entries on one side of which an entry asks to stand, whichever field has
them. -/
def asked (e : Entry P) : Side → List Key
  | .after => e.after
  | .before => e.before

/-- The entry asks to stand on that side of `other` too; its `key` and its `provider` stay. -/
def ask (e : Entry P) (side : Side) (other : Key) : Entry P :=
  match side with
  | .after => { e with after := Roster.includeKey e.after other }
  | .before => { e with before := Roster.includeKey e.before other }

@[simp] theorem key_ask (e : Entry P) (side : Side) (other : Key) : (e.ask side other).key = e.key := by
  cases side <;> rfl

@[simp] theorem provider_ask (e : Entry P) (side : Side) (other : Key) :
    (e.ask side other).provider = e.provider := by
  cases side <;> rfl

theorem asked_ask (e : Entry P) (side other : Side) (key : Key) :
    (e.ask side key).asked other =
      if side = other then Roster.includeKey (e.asked other) key else e.asked other := by
  cases side <;> cases other <;> rfl

end Entry

namespace Roster

variable {P : Type}

/-- Where the entry of each key stands: what `List.findIdx?` would give in a search through the
entries. -/
structure Index (entries : List (Entry P)) where
  positions : Table Key Nat
  agrees : ∀ key, positions.get? key = entries.findIdx? (·.key = key)

namespace Index

/-- The index of no entries, with no `positions`. -/
def empty : Index ([] : List (Entry P)) :=
  ⟨.empty, fun _ => rfl⟩

/-- Entries that keep their keys are found where they were, whatever else becomes of one of them. -/
theorem findIdx?_modify (entries : List (Entry P)) (position : Nat) {f : Entry P → Entry P}
    (hf : ∀ e, (f e).key = e.key) (key : Key) :
    (entries.modify position f).findIdx? (·.key = key) = entries.findIdx? (·.key = key) := by
  induction entries generalizing position with
  | nil => cases position <;> rfl
  | cons e rest ih =>
    cases position with
    | zero => simp [List.findIdx?_cons, hf]
    | succ position => simp [List.findIdx?_cons, ih]

/-- One entry has changed, but for its key, so the `positions` are the same by `findIdx?_modify`. -/
def modify {entries : List (Entry P)} (index : Index entries) (position : Nat)
    (f : Entry P → Entry P) (hf : ∀ e, (f e).key = e.key) : Index (entries.modify position f) :=
  ⟨index.positions, fun key =>
    (index.agrees key).trans (findIdx?_modify entries position hf key).symm⟩

/-- An entry has come at the end, under a key that is new; the positions of the others stay. -/
def concat {entries : List (Entry P)} (index : Index entries) (e : Entry P)
    (hnew : ¬ index.positions.contains e.key) : Index (entries ++ [e]) where
  positions := index.positions.insert e.key entries.length
  agrees key := by
    have hnone : entries.findIdx? (·.key = e.key) = none := by
      rw [← index.agrees]
      simpa [Table.contains] using hnew
    rw [Table.get?_insert, index.agrees, List.findIdx?_append]
    by_cases h : e.key = key
    · subst h
      simp [hnone]
    · simp [h]

end Index

end Roster

/-- The entries of the list bound under `list`, in the order of their first addition, with an
`Index`. -/
structure Roster (P : Type) where
  list : Key
  entries : List (Entry P) := []
  index : Roster.Index entries := by exact .empty

namespace Roster

variable {P : Type}

def size (roster : Roster P) : Nat :=
  roster.entries.length

/-- The keys of the entries in the order of their first addition, which is not that of
production. -/
def keys (roster : Roster P) : List Key :=
  roster.entries.map (·.key)

def contains (roster : Roster P) (key : Key) : Bool :=
  roster.index.positions.contains key

/-- Where the entry of `key` stands among the entries, by the index. -/
def position? (roster : Roster P) (key : Key) : Option Nat :=
  roster.index.positions.get? key

/-- Changes the entry of `key`, if there is one. The proof `hf` says that it stays the entry of its
key. -/
def modify (roster : Roster P) (key : Key) (f : Entry P → Entry P)
    (hf : ∀ e, (f e).key = e.key) : Roster P :=
  match roster.position? key with
  | none => roster
  | some position =>
    { roster with
      entries := roster.entries.modify position f
      index := roster.index.modify position f hf }

/-- Adds an entry at the end. An entry that is there already gets the new provider and keeps its
place and what was asked about its place. -/
def add (roster : Roster P) (key : Key) (provider : P) : Roster P :=
  -- only the provider is new: an entry never loses what was asked about its place
  if h : roster.contains key then roster.modify key (fun e => { e with provider }) fun _ => rfl
  else
    { roster with
      entries := roster.entries ++ [{ key, provider }]
      index := roster.index.concat { key, provider } h }

/-- Asks that `entry`, which has to be there, stand on that side of `other`, by `Entry.ask`; `other`
may be missing yet. The fault for a missing entry is `Fault.entryNotFound`. -/
def place (roster : Roster P) (entry : Key) (side : Side) (other : Key) : Except Fault (Roster P) :=
  if roster.contains entry then
    .ok (roster.modify entry (·.ask side other) fun e => e.key_ask side other)
  else .error (.entryNotFound roster.list entry)

/-- What the entries ask for, as edges between their positions. "`a` before `b`" and "`b` after `a`"
are the same edge; a key that is no entry gives none. -/
def edges (roster : Roster P) : List Linearize.Edge :=
  roster.entries.zipIdx.flatMap fun (entry, position) =>
    (entry.after.filterMap roster.position?).map (·, position) ++
      (entry.before.filterMap roster.position?).map (position, ·)

/-- The entries in the order in which the list is produced: `linearize` of their `edges`, or the
fault `orderingCycle` with the keys of a cycle. -/
def order (roster : Roster P) : Except Fault (List (Entry P)) :=
  match linearize roster.size roster.edges with
  | .ok positions => .ok (positions.filterMap (roster.entries[·]?))
  | .error cycle =>
    .error (.orderingCycle roster.list (cycle.filterMap fun p => roster.entries[p]?.map (·.key)))

/-! ### What the operations do to the keys -/

theorem contains_iff {roster : Roster P} {key : Key} :
    roster.contains key = true ↔ key ∈ roster.keys := by
  rw [contains, Table.contains, roster.index.agrees, List.findIdx?_isSome]
  simp [keys]

/-- The entry of a key is changed by `modify`, and those before it and after it stay as they are. -/
theorem entries_modify {roster : Roster P} {key : Key} (f : Entry P → Entry P)
    (hf : ∀ e, (f e).key = e.key) (h : roster.contains key = true) :
    ∃ earlier e later, roster.entries = earlier ++ e :: later ∧ e.key = key ∧
      (roster.modify key f hf).entries = earlier ++ f e :: later := by
  obtain ⟨position, hposition⟩ : ∃ position, roster.position? key = some position :=
    Option.isSome_iff_exists.1 h
  have hfound := hposition
  rw [position?, roster.index.agrees, List.findIdx?_eq_some_iff_getElem] at hfound
  obtain ⟨hlt, hkey, -⟩ := hfound
  obtain ⟨earlier, e, later, hentries, rfl, hmodified⟩ := List.exists_of_modify f hlt
  refine ⟨earlier, e, later, hentries, ?_, ?_⟩
  · simpa [hentries] using hkey
  · rw [modify, hposition]
    exact hmodified

@[simp] theorem keys_modify (roster : Roster P) (key : Key) (f : Entry P → Entry P)
    (hf : ∀ e, (f e).key = e.key) : (roster.modify key f hf).keys = roster.keys := by
  by_cases h : roster.contains key = true
  · obtain ⟨earlier, e, later, hentries, -, hmodified⟩ := entries_modify f hf h
    simp [keys, hentries, hmodified, hf]
  · have hnone : roster.position? key = none := by
      simpa [position?, contains, Table.contains] using h
    rw [modify, hnone]

theorem keys_add (roster : Roster P) (key : Key) (provider : P) :
    (roster.add key provider).keys =
      if key ∈ roster.keys then roster.keys else roster.keys ++ [key] := by
  by_cases h : key ∈ roster.keys
  · rw [if_pos h, add, dif_pos (contains_iff.2 h)]
    exact keys_modify _ _ _ _
  · rw [if_neg h, add, dif_neg (fun e => h (contains_iff.1 e))]
    simp [keys]

/-- An entry is placed if it is there, and what changes is the entry alone, by `Entry.ask`. -/
theorem place_eq_ok_iff {roster changed : Roster P} {entry other : Key} {side : Side} :
    roster.place entry side other = .ok changed ↔ roster.contains entry = true ∧
      changed = roster.modify entry (·.ask side other) fun e => e.key_ask side other := by
  unfold place
  split
  case isTrue h => simp [h, eq_comm]
  case isFalse h => simp [h]

theorem place_eq_error_iff {roster : Roster P} {entry other : Key} {side : Side} {fault : Fault} :
    roster.place entry side other = .error fault ↔
      roster.contains entry = false ∧ fault = .entryNotFound roster.list entry := by
  unfold place
  split
  case isTrue h => simp [h]
  case isFalse h => simp [h, eq_comm]

theorem keys_place {roster changed : Roster P} {entry other : Key} {side : Side}
    (h : roster.place entry side other = .ok changed) : changed.keys = roster.keys := by
  obtain ⟨-, rfl⟩ := place_eq_ok_iff.1 h
  exact keys_modify _ _ _ _

end Roster

end Wiring
