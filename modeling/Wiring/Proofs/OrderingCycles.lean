import Wiring.Proofs.ListHistory
import Wiring.Proofs.Topological

/-!
# The cycles that are reported

When nodes are left that cannot be placed, each of them waits for another of them
(`Progress.Tracks.exists_stuck`). So a walk along edges backwards through such nodes goes on until a
node comes again, which happens within as many steps as there are nodes (`traceBack_revisits`). From
its first visit to its second the walk is a circle, and read forwards it is a cycle of edges without
a node twice (`BackwardWalk.simpleCycle`). What only leads to the cycle or away from it was dropped
from the walk or never on it.

A list reports such a cycle by the keys of its entries. In whatever way the list has come about,
each of these keys was asked to stand before the next, and the last before the first
(`reported_cycles_are_real`).

* **`SimpleCycle`** — a cycle without a node twice; `SimpleCycle.of_isChain` makes one of a chain
  that closes, and `SimpleCycle.transGen` says that each of its nodes comes before itself.
* **`Retraced`** — the walk backwards, turn by turn; `linearize_retraces` says that it is what
  `traceBack` does.
* **`Roster.simpleCycle_keys`** — a cycle of positions is one of keys, so `Roster.cycle_of_order`
  speaks of what the entries ask for.
-/

namespace Wiring

/-- Items in a circle, none of them twice: each is related by `R` to the next, and the last to the
first. A circle is not empty. -/
structure SimpleCycle {α : Type} (R : α → α → Prop) (items : List α) : Prop where
  nonempty : items ≠ []
  nodup : items.Nodup
  leads : ∀ i a b, items[i]? = some a → items[(i + 1) % items.length]? = some b → R a b

namespace SimpleCycle

variable {α β : Type} {R : α → α → Prop} {items : List α}

/-- A chain that begins with its last item is a circle, once that item is counted once. -/
theorem of_isChain {last : α} (hnodup : items.Nodup) (hlast : items.getLast? = some last)
    (hchain : (last :: items).IsChain R) : SimpleCycle R items := by
  have hnext (i : Nat) (a b : α) (ha : (last :: items)[i]? = some a) (hb : items[i]? = some b) :
      R a b := by
    obtain ⟨hlt, rfl⟩ := List.getElem?_eq_some_iff.1 hb
    have hrel := List.isChain_iff_getElem.1 hchain i (Nat.succ_lt_succ hlt)
    rw [List.getElem?_eq_getElem (Nat.lt_of_succ_lt (Nat.succ_lt_succ hlt))] at ha
    obtain rfl := Option.some.inj ha
    exact hrel
  have hnonempty : items ≠ [] := by
    rintro rfl
    cases hlast
  refine ⟨hnonempty, hnodup, fun i a b ha hb => ?_⟩
  have hlt : i < items.length := (List.getElem?_eq_some_iff.1 ha).1
  by_cases hend : i + 1 = items.length
  · rw [hend, Nat.mod_self] at hb
    have hlast' : items[i]? = some last := by
      rw [← hlast, List.getLast?_eq_getElem?, ← hend, Nat.add_sub_cancel]
    obtain rfl : last = a := Option.some.inj (hlast'.symm.trans ha)
    exact hnext 0 last b rfl hb
  · rw [Nat.mod_eq_of_lt (by omega)] at hb
    exact hnext (i + 1) a b ha hb

/-- Every item has a next one in the circle, the last the first. -/
theorem exists_next (h : SimpleCycle R items) {a : α} (ha : a ∈ items) : ∃ b ∈ items, R a b := by
  obtain ⟨i, hi⟩ := List.getElem?_of_mem ha
  have hlt : (i + 1) % items.length < items.length :=
    Nat.mod_lt _ (List.length_pos_of_ne_nil h.nonempty)
  have hnext := List.getElem?_eq_getElem hlt
  exact ⟨_, List.getElem_mem hlt, h.leads i a _ hi hnext⟩

/-- Every item leads back to itself, along the rest of the circle. -/
theorem transGen (h : SimpleCycle R items) {a : α} (ha : a ∈ items) : Relation.TransGen R a a := by
  obtain ⟨i, hi⟩ := List.getElem?_of_mem ha
  have hpos : 0 < items.length := List.length_pos_of_ne_nil h.nonempty
  -- the item leads to each that comes some steps later, and so once around
  have haround (steps : Nat) (b : α) (hb : items[(i + (steps + 1)) % items.length]? = some b) :
      Relation.TransGen R a b := by
    induction steps generalizing b with
    | zero => exact .single (h.leads i a b hi hb)
    | succ steps ih =>
      have hlt : (i + (steps + 1)) % items.length < items.length := Nat.mod_lt _ hpos
      have hbefore := List.getElem?_eq_getElem hlt
      refine .tail (ih _ hbefore) (h.leads _ _ b hbefore ?_)
      rw [Nat.mod_add_mod]
      exact hb
  refine haround (items.length - 1) a ?_
  rw [Nat.sub_add_cancel hpos, Nat.add_mod_right,
    Nat.mod_eq_of_lt (List.getElem?_eq_some_iff.1 hi).1]
  exact hi

theorem map {S : β → β → Prop} (h : SimpleCycle R items) {f : α → β}
    (hf : ∀ a b, R a b → S (f a) (f b)) (hinj : ∀ a ∈ items, ∀ b ∈ items, f a = f b → a = b) :
    SimpleCycle S (items.map f) := by
  refine ⟨fun hnil => h.nonempty (List.map_eq_nil_iff.1 hnil), h.nodup.map_on hinj, ?_⟩
  intro i x y hx hy
  rw [List.length_map] at hy
  obtain ⟨a, ha, rfl⟩ := Option.map_eq_some_iff.1 (List.getElem?_map ▸ hx)
  obtain ⟨b, hb, rfl⟩ := Option.map_eq_some_iff.1 (List.getElem?_map ▸ hy)
  exact hf a b (h.leads i a b ha hb)

end SimpleCycle

namespace Linearize

variable {count : Nat} {edges : List Edge}

namespace Progress

variable {p : Progress} {node : Nat}

/-- Only nodes wait: a counter that is above zero is that of a node below the count. -/
theorem Tracks.lt_of_pending (h : Tracks count edges [] p) (hstuck : 0 < p.pending node) :
    node < count := by
  by_contra hnot
  have hnone : p.waiting[node]? = none := List.getElem?_eq_none (by rw [h.length]; omega)
  rw [Progress.pending, List.getD_eq_getElem?_getD, hnone] at hstuck
  exact absurd hstuck (Nat.lt_irrefl 0)

/-- When nothing is ready, the nodes left are those that wait, by `Tracks.mem_ready_iff`. -/
theorem Tracks.pending_pos (h : Tracks count edges [] p) (hready : p.ready = []) (hlt : node < count)
    (hfresh : node ∉ p.placed) : 0 < p.pending node := by
  by_contra hzero
  have hmem := (h.ready node).2 ⟨hlt, hfresh, by omega⟩
  rw [hready] at hmem
  cases hmem

/-- When nothing is ready, a node that waits does so for one that waits: for the first end of an
edge that is not placed, by `Tracks.pending_pos`. -/
theorem Tracks.exists_stuck (hw : Within count edges) (h : Tracks count edges [] p)
    (hready : p.ready = []) (hstuck : 0 < p.pending node) :
    ∃ previous, (previous, node) ∈ edges ∧ 0 < p.pending previous := by
  have hinflow : inflow edges p.placed node ≠ 0 := by
    have hpending := h.pending node (h.lt_of_pending hstuck)
    rw [List.count_nil] at hpending
    omega
  rw [Ne, inflow_eq_zero_iff] at hinflow
  push Not at hinflow
  obtain ⟨previous, hedge, hfresh⟩ := hinflow
  exact ⟨previous, hedge, h.pending_pos hready (hw previous node hedge).1 hfresh⟩

end Progress

/-- A walk along edges backwards from node to node that waits, which has come to `current`: no node
of it comes twice, and read forwards its edges form a chain. -/
structure BackwardWalk (edges : List Edge) (stuck : Nat → Bool) (walk : List Nat) (current : Nat) :
    Prop where
  nodup : walk.Nodup
  waits : ∀ node ∈ walk ++ [current], stuck node = true
  chain : (walk ++ [current]).IsChain (Function.swap (Leads edges))

namespace BackwardWalk

variable {stuck : Nat → Bool} {walk : List Nat} {current previous : Nat}

theorem start (h : stuck current = true) : BackwardWalk edges stuck [] current where
  nodup := List.nodup_nil
  waits _ hnode := List.mem_singleton.1 hnode ▸ h
  chain := List.isChain_singleton current

theorem current_waits (h : BackwardWalk edges stuck walk current) : stuck current = true :=
  h.waits current (List.mem_append_right _ List.mem_cons_self)

theorem extend (h : BackwardWalk edges stuck walk current) (hfresh : current ∉ walk)
    (hedge : (previous, current) ∈ edges) (hprevious : stuck previous = true) :
    BackwardWalk edges stuck (walk ++ [current]) previous where
  nodup := by simpa using h.nodup.concat hfresh
  waits node hnode := by
    rcases List.mem_append.1 hnode with hold | hnew
    · exact h.waits node hold
    · exact List.mem_singleton.1 hnew ▸ hprevious
  chain := by
    rw [List.append_assoc]
    exact List.isChain_append_cons_cons.2 ⟨h.chain, hedge, List.isChain_singleton previous⟩

theorem length_le (h : BackwardWalk edges stuck walk current)
    (hlt : ∀ node, stuck node = true → node < count) : walk.length ≤ count :=
  length_le_of_nodup h.nodup fun node hnode => hlt node (h.waits node (List.mem_append_left _ hnode))

/-- A walk that has come to a node again is a circle from the first visit on, by
`SimpleCycle.of_isChain`. -/
theorem simpleCycle (h : BackwardWalk edges stuck walk current) (hagain : current ∈ walk) :
    SimpleCycle (Leads edges) (walk.drop (walk.idxOf current)).reverse := by
  have hlt : walk.idxOf current < walk.length := List.idxOf_lt_length_of_mem hagain
  have hdrop : walk.drop (walk.idxOf current) = current :: walk.drop (walk.idxOf current + 1) := by
    rw [List.drop_eq_getElem_cons hlt, List.getElem_idxOf hlt]
  have hlast : (walk.drop (walk.idxOf current)).reverse.getLast? = some current := by
    simp [hdrop]
  refine .of_isChain (List.nodup_reverse.2 (h.nodup.sublist (List.drop_sublist _ _))) hlast ?_
  have hstretch := h.chain.drop (walk.idxOf current)
  rw [List.drop_append_of_le_length hlt.le] at hstretch
  have hforwards := List.isChain_reverse.2 hstretch
  rw [List.reverse_append] at hforwards
  exact hforwards

end BackwardWalk

/-- The walk that `traceBack` takes from a node, which has come to `current`: from each node that is
new it goes to the first of the `predecessors` that wait. -/
inductive Retraced (edges : List Edge) (stuck : Nat → Bool) (first : Nat) : List Nat → Nat → Prop
  | start : Retraced edges stuck first [] first
  | back {walk : List Nat} {current previous : Nat} (h : Retraced edges stuck first walk current)
      (hfresh : current ∉ walk) (hprevious : (predecessors edges current).find? stuck = some previous) :
      Retraced edges stuck first (walk ++ [current]) previous

section

variable {stuck : Nat → Bool} {first : Nat}

theorem Retraced.backwardWalk {walk : List Nat} {current : Nat} (hfirst : stuck first = true)
    (h : Retraced edges stuck first walk current) : BackwardWalk edges stuck walk current := by
  induction h with
  | start => exact .start hfirst
  | back _ hfresh hprevious ih =>
    have hedge := mem_predecessors.1 (List.mem_of_find?_eq_some hprevious)
    exact ih.extend hfresh hedge (List.find?_some hprevious)

/-- A walk does not end at a node that is new, since a node that waits does so for one that waits.
So the search of `traceBack` finds a node to go on to. -/
theorem BackwardWalk.exists_previous {walk : List Nat} {current : Nat}
    (hstuck : ∀ node, stuck node = true → ∃ previous, (previous, node) ∈ edges ∧ stuck previous = true)
    (h : BackwardWalk edges stuck walk current) :
    ∃ previous, (predecessors edges current).find? stuck = some previous := by
  obtain ⟨previous, hedge, hprevious⟩ := hstuck current h.current_waits
  refine Option.isSome_iff_exists.1 (List.find?_isSome.2 ?_)
  exact ⟨previous, mem_predecessors.2 hedge, hprevious⟩

/-- The walk of `Retraced` grows by one node each time and has none twice, so it comes to one again
before there are more steps than nodes, and `traceBack` gives the stretch in between. -/
theorem traceBack_revisits (hlt : ∀ node, stuck node = true → node < count)
    (hstuck : ∀ node, stuck node = true → ∃ previous, (previous, node) ∈ edges ∧ stuck previous = true)
    (hfirst : stuck first = true) {steps : Nat} {walk : List Nat} {current : Nat}
    (h : Retraced edges stuck first walk current) (hsteps : count < steps + walk.length) :
    ∃ whole again, Retraced edges stuck first whole again ∧ again ∈ whole ∧
      traceBack edges stuck steps walk current = (whole.drop (whole.idxOf again)).reverse := by
  induction steps generalizing walk current with
  | zero =>
    have hlength := (h.backwardWalk hfirst).length_le hlt
    omega
  | succ steps ih =>
    unfold traceBack
    split
    case isTrue hagain => exact ⟨walk, current, h, hagain, rfl⟩
    case isFalse hfresh =>
      obtain ⟨previous, hprevious⟩ := (h.backwardWalk hfirst).exists_previous hstuck
      rw [hprevious]
      refine ih (h.back hfresh hprevious) ?_
      rw [List.length_append, List.length_singleton]
      omega

end

/-- The nodes that are left waiting when an ordering has come to its end, by `Progress.pending`. -/
def leftWaiting (count : Nat) (edges : List Edge) (node : Nat) : Bool :=
  decide (0 < ((Progress.start count edges).run edges count).pending node)

theorem lt_of_leftWaiting (hw : Within count edges) {node : Nat}
    (h : leftWaiting count edges node = true) : node < count :=
  ((Progress.tracks_start count edges).run hw count).lt_of_pending (of_decide_eq_true h)

theorem exists_leftWaiting (hw : Within count edges) {node : Nat}
    (h : leftWaiting count edges node = true) :
    ∃ previous, (previous, node) ∈ edges ∧ leftWaiting count edges previous = true := by
  have htracks := (Progress.tracks_start count edges).run hw count
  obtain ⟨previous, hedge, hprevious⟩ :=
    htracks.exists_stuck hw (Progress.ready_run_start hw) (of_decide_eq_true h)
  exact ⟨previous, hedge, decide_eq_true hprevious⟩

theorem stuckCycle_eq {first : Nat}
    (hfirst : (List.range count).find? (leftWaiting count edges) = some first) :
    stuckCycle count edges ((Progress.start count edges).run edges count) =
      traceBack edges (leftWaiting count edges) (count + 1) [] first := by
  unfold leftWaiting at hfirst ⊢
  simp only [stuckCycle, hfirst]

/-- An ordering that fails starts from the smallest node that is `leftWaiting` and walks back until
a node comes again; the cycle that it reports is the walk from there, read forwards. -/
theorem linearize_retraces (hw : Within count edges) {cycle : List Nat}
    (h : linearize count edges = .error cycle) :
    ∃ first, (List.range count).find? (leftWaiting count edges) = some first ∧
      ∃ walk again, Retraced edges (leftWaiting count edges) first walk again ∧ again ∈ walk ∧
        cycle = (walk.drop (walk.idxOf again)).reverse := by
  obtain ⟨⟨node, hlt, hfresh⟩, rfl⟩ := stopped_of_linearize hw h
  have htracks := (Progress.tracks_start count edges).run hw count
  have hleft : leftWaiting count edges node = true :=
    decide_eq_true (htracks.pending_pos (Progress.ready_run_start hw) hlt hfresh)
  obtain ⟨first, hfirst⟩ := Option.isSome_iff_exists.1
    (List.find?_isSome.2 ⟨node, List.mem_range.2 hlt, hleft⟩)
  obtain ⟨walk, again, hwalk, hagain, hcycle⟩ := traceBack_revisits
    (fun _ => lt_of_leftWaiting hw) (fun _ => exists_leftWaiting hw) (List.find?_some hfirst)
    .start count.lt_succ_self
  exact ⟨first, hfirst, walk, again, hwalk, hagain, (stuckCycle_eq hfirst).trans hcycle⟩

theorem linearize_simpleCycle (hw : Within count edges) {cycle : List Nat}
    (h : linearize count edges = .error cycle) : SimpleCycle (Leads edges) cycle := by
  obtain ⟨first, hfirst, walk, again, hwalk, hagain, rfl⟩ := linearize_retraces hw h
  exact (hwalk.backwardWalk (List.find?_some hfirst)).simpleCycle hagain

end Linearize

open Linearize

namespace Roster

variable {P : Type} {roster : Roster P}

/-- The key of the entry at a position, by which `Roster.order` reports a cycle of positions. -/
def keyAt (roster : Roster P) (position : Nat) : Key :=
  roster.keys.getD position default

theorem keyAt_eq {position : Nat} {key : Key} (h : roster.keys[position]? = some key) :
    roster.keyAt position = key := by
  rw [keyAt, List.getD_eq_getElem?_getD, h, Option.getD_some]

/-- The positions of a cycle are those of entries, since both ends of each edge are. -/
theorem getElem?_of_mem_cycle (hnodup : roster.keys.Nodup) {cycle : List Nat}
    (hcycle : SimpleCycle (Leads roster.edges) cycle) {position : Nat} (h : position ∈ cycle) :
    roster.keys[position]? = some (roster.keyAt position) := by
  obtain ⟨next, -, hedge⟩ := hcycle.exists_next h
  obtain ⟨a, -, ha, -⟩ := (mem_edges hnodup).1 hedge
  rw [keyAt_eq ha, ha]

/-- A cycle of edges is one of requests between the entries, by `Roster.Asks`; different positions
have different keys. -/
theorem simpleCycle_keys (hnodup : roster.keys.Nodup) {cycle : List Nat}
    (hcycle : SimpleCycle (Leads roster.edges) cycle) :
    SimpleCycle roster.Asks (cycle.map roster.keyAt) := by
  refine hcycle.map ?_ ?_
  · intro i j hedge
    obtain ⟨a, b, ha, hb, hasked⟩ := (mem_edges hnodup).1 hedge
    rw [keyAt_eq ha, keyAt_eq hb]
    exact hasked
  · intro i hi j hj heq
    -- the keys are different, so the positions of one key are one
    have hkey := getElem?_of_mem_cycle hnodup hcycle hi
    have hsame : roster.keys[i]? = roster.keys[j]? := by
      rw [hkey, getElem?_of_mem_cycle hnodup hcycle hj, heq]
    exact (List.getElem?_inj (List.getElem?_eq_some_iff.1 hkey).1 hnodup).1 hsame

/-- A list that cannot be ordered tells a cycle of its entries, each of which is asked to stand
before the next: `linearize` has failed with a cycle of edges, and `simpleCycle_keys` has it in
keys. -/
theorem cycle_of_order (hnodup : roster.keys.Nodup) {fault : Fault} (h : roster.order = .error fault) :
    ∃ cycle, fault = .orderingCycle roster.list cycle ∧ (∀ key ∈ cycle, key ∈ roster.keys) ∧
      SimpleCycle roster.Asks cycle := by
  rw [order] at h
  cases hlinear : linearize roster.size roster.edges with
  | ok positions =>
    rw [hlinear] at h
    cases h
  | error cycle =>
    rw [hlinear] at h
    have hcycle := linearize_simpleCycle (within_edges roster) hlinear
    have hnames : (cycle.filterMap fun position => roster.entries[position]?.map (·.key)) =
        cycle.map roster.keyAt := by
      rw [← List.filterMap_eq_map]
      refine List.filterMap_congr fun position hposition => ?_
      rw [← getElem?_keys, getElem?_of_mem_cycle hnodup hcycle hposition, Function.comp_apply]
    refine ⟨cycle.map roster.keyAt, ?_, fun key hmem => ?_, simpleCycle_keys hnodup hcycle⟩
    · rw [← hnames]
      exact (Except.error.inj h).symm
    · obtain ⟨position, hposition, rfl⟩ := List.mem_map.1 hmem
      exact List.mem_of_getElem? (getElem?_of_mem_cycle hnodup hcycle hposition)

end Roster

open ListCall

namespace World

variable {ρ σ π : Type}

theorem order_of_ordered {w : World ρ σ π} {id : RosterId} {fault : Fault}
    (h : (w.ordered id).1 = .error fault) : (w.roster id).order = .error fault := by
  unfold ordered at h
  cases horder : (w.roster id).order with
  | ok entries =>
    rw [horder] at h
    cases h
  | error other =>
    rw [horder] at h
    exact h

/-- An ordering that fails tells a cycle of edges, of which each node leads back to itself. A list,
after any calls on it and with its sets of requests run through in any order (`Roster.Shuffled`),
fails with a cycle of its entries each of which some call that was granted (`GrantedIn`) asked to
stand before the next. -/
theorem reported_cycles_are_real :
    (∀ (count : Nat) (edges : List Edge) (cycle : List Nat), Within count edges →
      linearize count edges = .error cycle →
        SimpleCycle (Leads edges) cycle ∧ ∀ node ∈ cycle, Relation.TransGen (Leads edges) node node) ∧
    ∀ (w : World ρ σ π) (id : RosterId) (calls : List (ListCall ρ)) (roster : Roster (Provider ρ))
      (fault : Fault), id.index < w.rosters.size → (w.roster id).entries = [] →
      roster.Shuffled ((w.playList id calls).roster id) →
      (((w.playList id calls).setRoster id roster).ordered id).1 = .error fault →
        ∃ cycle, fault = .orderingCycle roster.list cycle ∧ (∀ key ∈ cycle, key ∈ addedKeys calls) ∧
          SimpleCycle (GrantedIn w id calls) cycle := by
  constructor
  · intro count edges cycle hw h
    have hcycle := linearize_simpleCycle hw h
    exact ⟨hcycle, fun node hnode => hcycle.transGen hnode⟩
  · intro w id calls roster fault hid hnew hroster h
    obtain ⟨hkeys, hnodup, hasks⟩ := roster_playList hid hnew calls
    have horder := order_of_ordered h
    rw [roster_setRoster _ _ (lt_size_playList hid calls)] at horder
    obtain ⟨cycle, hfault, hmem, hcycle⟩ := Roster.cycle_of_order (hroster.keys ▸ hnodup) horder
    refine ⟨cycle, hfault, fun key hkey => ?_, ?_⟩
    · rw [← hkeys, ← hroster.keys]
      exact hmem key hkey
    · have hsame : roster.Asks = GrantedIn w id calls := by
        funext a b
        exact propext (hroster.asks_iff.trans (hasks a b))
      rwa [hsame] at hcycle

/-! ### A circle of two

The nodes 1 and 2 are to stand before each other. The node 0 only leads to them and the node 3 away from
them, so both are left out. -/

def circleEdges : List Edge :=
  [(0, 1), (1, 2), (2, 1), (2, 3)]

def circleHistory : List (ListCall Unit) :=
  let entry := Key.ofObject (.plain "entry")
  [.add (entry 0) (.fixed ⟨0⟩), .add (entry 1) (.fixed ⟨1⟩), .add (entry 2) (.fixed ⟨2⟩),
    .add (entry 3) (.fixed ⟨3⟩), .place (entry 0) .before (entry 1),
    .place (entry 2) .after (entry 1), .place (entry 2) .before (entry 1), .place (entry 3) .after (entry 2)]

theorem reported_cycles_of_circle :
    Within 4 circleEdges ∧ linearize 4 circleEdges = .error [2, 1] ∧
      SimpleCycle (Leads circleEdges) [2, 1] ∧
      ((withNewList.playList ⟨0⟩ circleHistory).ordered ⟨0⟩).1 =
        .error (.orderingCycle (.ofObject (.plain "entry") 9)
          [.ofObject (.plain "entry") 2, .ofObject (.plain "entry") 1]) ∧
      SimpleCycle (GrantedIn withNewList ⟨0⟩ circleHistory)
        [.ofObject (.plain "entry") 2, .ofObject (.plain "entry") 1] := by
  obtain ⟨hedges, hlists⟩ := @reported_cycles_are_real Unit Unit Unit
  have hw : Within 4 circleEdges := by
    intro a b h
    simp [circleEdges] at h
    omega
  have hfound : linearize 4 circleEdges = .error [2, 1] := by decide
  have hfails : ((withNewList.playList ⟨0⟩ circleHistory).ordered ⟨0⟩).1 =
      .error (.orderingCycle (.ofObject (.plain "entry") 9)
        [.ofObject (.plain "entry") 2, .ofObject (.plain "entry") 1]) := by
    rfl
  obtain ⟨cycle, hcycle, -, hreal⟩ :=
    hlists withNewList ⟨0⟩ circleHistory _ _ (by decide) rfl (.refl _) hfails
  obtain ⟨-, rfl⟩ := Fault.orderingCycle.inj hcycle
  exact ⟨hw, hfound, (hedges 4 circleEdges [2, 1] hw hfound).1, hfails, hreal⟩

end World

end Wiring
