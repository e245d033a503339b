import Mathlib.Data.List.Sort
import Wiring.Linearize

/-!
# What placing nodes keeps

The counters, the ready list and the placed nodes of a `Progress` agree at every moment
(`Progress.Tracks`): a node waits for exactly the edges from nodes not yet placed, and it is ready
exactly when it is not placed and waits for none (`Tracks.mem_ready_iff`). The ready list is
therefore fixed by the placed nodes and by which edges there are. How often an edge is listed, and
where, does not matter, so two listings of the same edges give the same order (`linearize_congr`).

* **`Progress.tracks_start`** — the counters that `Progress.start` sets up agree with the edges,
  none of which has been counted off.
* **`Tracks.place`** — placing a node keeps the agreement; it is put together of `Tracks.release`,
  for one edge, and `Tracks.moved`, for the node itself.
* **`Tracks.pending_pos_of_owed`** — a node that an edge is still to be counted off waits for
  something, so no counter is asked to go below zero.
-/

namespace Wiring.Linearize

/-- Both ends of every edge are nodes, as `Roster.edges` sees to; `linearize` relies on it. -/
def Within (count : Nat) (edges : List Edge) : Prop :=
  ∀ a b, (a, b) ∈ edges → a < count ∧ b < count

/-- The number of edges into `node` from nodes that are not placed: what `Progress.pending` is to
count. -/
def inflow (edges : List Edge) (placed : List Nat) (node : Nat) : Nat :=
  (predecessors edges node).countP (· ∉ placed)

theorem inflow_eq_zero_iff {edges : List Edge} {placed : List Nat} {node : Nat} :
    inflow edges placed node = 0 ↔ ∀ a, (a, node) ∈ edges → a ∈ placed := by
  unfold inflow
  rw [List.countP_eq_zero]
  constructor
  · intro h a ha
    have hpred := h a (mem_predecessors.2 ha)
    simpa using hpred
  · intro h a ha
    simpa using h a (mem_predecessors.1 ha)

/-- Placing `a` takes from the `inflow` of a node the edges that come from `a`, one for each time
that it is among the `successors`. -/
theorem inflow_append (edges : List Edge) {placed : List Nat} {a : Nat} (ha : a ∉ placed)
    (node : Nat) :
    inflow edges placed node =
      inflow edges (placed ++ [a]) node + (successors edges a).count node := by
  unfold inflow
  induction edges with
  | nil => rfl
  | cons edge rest ih =>
    obtain ⟨x, y⟩ := edge
    simp only [predecessors, successors, List.filterMap_cons] at ih ⊢
    by_cases hy : y = node
    · by_cases hx : x = a
      · subst hx
        subst hy
        simp [ha] at ih ⊢
        omega
      · simp [hx, hy, List.countP_cons] at ih ⊢
        omega
    · by_cases hx : x = a
      · simpa [hx, hy] using ih
      · simpa [hx, hy] using ih

namespace Progress

theorem enqueue_perm (node : Nat) (ready : List Nat) :
    (enqueue node ready).Perm (node :: ready) := by
  induction ready with
  | nil => exact .refl _
  | cons head rest ih =>
    unfold enqueue
    split
    · exact .refl _
    · exact (ih.cons head).trans (.swap node head rest)

theorem mem_enqueue {node other : Nat} {ready : List Nat} :
    other ∈ enqueue node ready ↔ other = node ∨ other ∈ ready := by
  rw [(enqueue_perm node ready).mem_iff, List.mem_cons]

theorem ascending_enqueue {node : Nat} {ready : List Nat} (h : ready.Pairwise (· < ·))
    (hnode : node ∉ ready) : (enqueue node ready).Pairwise (· < ·) := by
  induction ready with
  | nil => simp [enqueue]
  | cons head rest ih =>
    have hne : node ≠ head := fun e => hnode (e ▸ List.mem_cons_self)
    have hrest : node ∉ rest := fun hmem => hnode (List.mem_cons_of_mem _ hmem)
    rw [List.pairwise_cons] at h
    unfold enqueue
    split
    case isTrue hle =>
      have hlt : node < head := by omega
      rw [List.pairwise_cons, List.pairwise_cons]
      refine ⟨fun other hother => ?_, h⟩
      rcases List.mem_cons.1 hother with rfl | hmem
      · exact hlt
      · exact Nat.lt_trans hlt (h.1 other hmem)
    case isFalse hle =>
      rw [List.pairwise_cons]
      refine ⟨fun other hother => ?_, ih h.2 hrest⟩
      rcases mem_enqueue.1 hother with rfl | hmem
      · omega
      · exact h.1 other hmem

theorem pending_release {p : Progress} {node : Nat} (h : node < p.waiting.length) (other : Nat) :
    (p.release node).pending other =
      if other = node then p.pending node - 1 else p.pending other := by
  simp only [release, pending, List.getD_eq_getElem?_getD]
  by_cases ho : other = node
  · subst ho
    simp [h]
  · have hne : ¬ node = other := fun e => ho e.symm
    simp [ho, hne]

theorem ready_release (p : Progress) (node : Nat) :
    (p.release node).ready =
      if p.pending node - 1 = 0 then enqueue node p.ready else p.ready := rfl

/-! ### The invariant

In `Tracks` the list `owed` holds the edges out of the node that was placed last which are still to
be counted off by `Progress.release`, one entry for each. Between two placements nothing is owed. -/

structure Tracks (count : Nat) (edges : List Edge) (owed : List Nat) (p : Progress) : Prop where
  length : p.waiting.length = count
  pending : ∀ node, node < count →
    p.pending node = inflow edges p.placed node + owed.count node
  ready : ∀ node, node ∈ p.ready ↔ node < count ∧ node ∉ p.placed ∧ p.pending node = 0
  ascending : p.ready.Pairwise (· < ·)
  settled : ∀ node, node ∈ p.placed → node < count ∧ p.pending node = 0
  nodup : p.placed.Nodup

variable {count : Nat} {edges : List Edge}

/-- At the outset, in `Progress.start`, nothing is placed and every edge is waited for. -/
theorem tracks_start (count : Nat) (edges : List Edge) :
    Tracks count edges [] (start count edges) := by
  have hpending (node : Nat) (h : node < count) :
      (start count edges).pending node = (predecessors edges node).length := by
    simp [start, Progress.pending, h]
  constructor
  case length => simp [start]
  case pending =>
    intro node h
    rw [hpending node h]
    simp [inflow, start]
  case ready =>
    intro node
    show node ∈ (List.range count).filter _ ↔ _
    rw [List.mem_filter, List.mem_range]
    simp [start, Progress.pending]
  case ascending => exact List.Pairwise.filter _ List.pairwise_lt_range
  case settled =>
    intro node h
    cases h
  case nodup => exact List.nodup_nil

/-- A node waits for the edges into it that are still to be counted off, so `Progress.release` takes
nothing from a counter that is zero. -/
theorem Tracks.pending_pos_of_owed {owed : List Nat} {p : Progress} {node : Nat}
    (h : Tracks count edges owed p) (hnode : node < count) (howed : node ∈ owed) :
    0 < p.pending node := by
  have hcount : 0 < owed.count node := List.count_pos_iff.2 howed
  rw [h.pending node hnode]
  omega

/-- Counting off one owed edge by `Progress.release` keeps `Tracks`; the node at its end becomes
ready if that was the last edge it waited for. -/
theorem Tracks.release {owed : List Nat} {p : Progress} {node : Nat}
    (h : Tracks count edges (node :: owed) p) (hnode : node < count) :
    Tracks count edges owed (p.release node) := by
  have hlen : node < p.waiting.length := by rw [h.length]; exact hnode
  -- the edge being counted off is one the node waits for, so it is neither ready nor placed
  have hpos : 0 < p.pending node := h.pending_pos_of_owed hnode List.mem_cons_self
  have hready : node ∉ p.ready := by
    intro hmem
    have := ((h.ready node).1 hmem).2.2
    omega
  have hplaced : node ∉ p.placed := by
    intro hmem
    have := (h.settled node hmem).2
    omega
  have hpending := pending_release hlen
  constructor
  case length =>
    show (p.waiting.set node _).length = count
    rw [List.length_set, h.length]
  case pending =>
    intro other hother
    show (p.release node).pending other = inflow edges p.placed other + owed.count other
    have hcount := h.pending other hother
    rw [hpending other]
    by_cases ho : other = node
    · subst ho
      rw [if_pos rfl]
      rw [List.count_cons_self] at hcount
      omega
    · have hne : ¬ node = other := fun e => ho e.symm
      rw [if_neg ho, hcount]
      simp [hne]
  case ready =>
    intro other
    show other ∈ (p.release node).ready ↔
      other < count ∧ other ∉ p.placed ∧ (p.release node).pending other = 0
    rw [ready_release, hpending other]
    by_cases ho : other = node
    · subst ho
      rw [if_pos rfl]
      by_cases hleft : p.pending other - 1 = 0
      · simp [hleft, mem_enqueue, hnode, hplaced]
      · simp [hleft, hready]
    · rw [if_neg ho, ← h.ready other]
      by_cases hleft : p.pending node - 1 = 0
      · rw [if_pos hleft, mem_enqueue]
        simp [ho]
      · rw [if_neg hleft]
  case ascending =>
    rw [ready_release]
    split
    · exact ascending_enqueue h.ascending hready
    · exact h.ascending
  case settled =>
    intro other hother
    have hsettled := h.settled other hother
    have hne : other ≠ node := fun e => hplaced (e ▸ hother)
    exact ⟨hsettled.1, by rw [hpending other, if_neg hne]; exact hsettled.2⟩
  case nodup => exact h.nodup

theorem Tracks.releaseAll {owed : List Nat} {p : Progress} (h : Tracks count edges owed p)
    (howed : ∀ node ∈ owed, node < count) :
    Tracks count edges [] (owed.foldl Progress.release p) := by
  induction owed generalizing p with
  | nil => exact h
  | cons node rest ih =>
    rw [List.foldl_cons]
    exact ih (h.release (howed node List.mem_cons_self))
      fun other hother => howed other (List.mem_cons_of_mem _ hother)

/-- Moving the smallest ready node to the placed ones makes the edges out of it owed: this is the
first half of `Progress.place`. -/
theorem Tracks.moved {p : Progress} {node : Nat} {rest : List Nat} (h : Tracks count edges [] p)
    (hready : p.ready = node :: rest) :
    Tracks count edges (successors edges node)
      { p with ready := rest, placed := p.placed ++ [node] } := by
  have hmem := (h.ready node).1 (by rw [hready]; exact List.mem_cons_self)
  obtain ⟨hlt, hfresh, hzero⟩ := hmem
  have hasc := h.ascending
  rw [hready, List.pairwise_cons] at hasc
  constructor
  case length => exact h.length
  case pending =>
    intro other hother
    show p.pending other = _
    rw [h.pending other hother, List.count_nil, Nat.add_zero]
    exact inflow_append edges hfresh other
  case ready =>
    intro other
    show other ∈ rest ↔ other < count ∧ other ∉ p.placed ++ [node] ∧ p.pending other = 0
    have hother := h.ready other
    rw [hready, List.mem_cons] at hother
    by_cases ho : other = node
    · subst ho
      have hnot : other ∉ rest := fun hmem => Nat.lt_irrefl _ (hasc.1 other hmem)
      simp [hnot]
    · rw [List.mem_append, List.mem_singleton, not_or]
      constructor
      · intro hr
        have hp := hother.1 (.inr hr)
        exact ⟨hp.1, ⟨hp.2.1, ho⟩, hp.2.2⟩
      · rintro ⟨hlt', ⟨hfresh', -⟩, hzero'⟩
        exact (hother.2 ⟨hlt', hfresh', hzero'⟩).resolve_left ho
  case ascending => exact hasc.2
  case settled =>
    intro other hother
    rcases List.mem_append.1 hother with hold | hnew
    · exact h.settled other hold
    · rw [List.mem_singleton.1 hnew]
      exact ⟨hlt, hzero⟩
  case nodup =>
    rw [List.nodup_append]
    refine ⟨h.nodup, by simp, fun a ha b hb e => hfresh ?_⟩
    rw [← List.mem_singleton.1 hb, ← e]
    exact ha

/-- Placing the smallest ready node: `Tracks.moved`, then `Tracks.release` for each of its
`successors`. -/
theorem Tracks.place {p : Progress} {node : Nat} {rest : List Nat} (hw : Within count edges)
    (h : Tracks count edges [] p) (hready : p.ready = node :: rest) :
    Tracks count edges [] (place edges { p with ready := rest } node) := by
  apply (h.moved hready).releaseAll
  intro other hother
  exact (hw node other (mem_successors.1 hother)).2

theorem placed_place (edges : List Edge) (p : Progress) (node : Nat) :
    (place edges p node).placed = p.placed ++ [node] := by
  have hfold (owed : List Nat) (q : Progress) : (owed.foldl release q).placed = q.placed := by
    induction owed generalizing q with
    | nil => rfl
    | cons _ _ ih => exact ih _
  exact hfold _ _

theorem Tracks.run {p : Progress} (hw : Within count edges) (h : Tracks count edges [] p)
    (steps : Nat) : Tracks count edges [] (p.run edges steps) := by
  induction steps generalizing p with
  | zero => exact h
  | succ steps ih =>
    unfold Progress.run
    split
    · exact h
    case h_2 hready => exact ih (h.place hw hready)

/-- Ready are the nodes not placed all of whose predecessors are placed. So the ready list is fixed
by what is placed, whatever way the ordering has come. -/
theorem Tracks.mem_ready_iff {p : Progress} (h : Tracks count edges [] p) {node : Nat} :
    node ∈ p.ready ↔
      node < count ∧ node ∉ p.placed ∧ ∀ a, (a, node) ∈ edges → a ∈ p.placed := by
  rw [h.ready node, ← inflow_eq_zero_iff]
  constructor
  · rintro ⟨hlt, hfresh, hzero⟩
    rw [h.pending node hlt] at hzero
    exact ⟨hlt, hfresh, by omega⟩
  · rintro ⟨hlt, hfresh, hzero⟩
    rw [h.pending node hlt, hzero]
    exact ⟨hlt, hfresh, rfl⟩

/-! ### Which edges there are is all that counts -/

variable {others : List Edge}

theorem Tracks.ready_congr {p q : Progress} (hp : Tracks count edges [] p)
    (hq : Tracks count others [] q) (hedges : ∀ e, e ∈ edges ↔ e ∈ others)
    (hplaced : p.placed = q.placed) : p.ready = q.ready := by
  apply hp.ascending.eq_of_mem_iff hq.ascending
  intro node
  rw [hp.mem_ready_iff, hq.mem_ready_iff, hplaced]
  simp only [hedges]

theorem Tracks.run_congr {p q : Progress} (hw : Within count edges) (hv : Within count others)
    (hp : Tracks count edges [] p) (hq : Tracks count others [] q)
    (hedges : ∀ e, e ∈ edges ↔ e ∈ others) (hplaced : p.placed = q.placed) (steps : Nat) :
    (p.run edges steps).placed = (q.run others steps).placed := by
  induction steps generalizing p q with
  | zero => exact hplaced
  | succ steps ih =>
    have hready := hp.ready_congr hq hedges hplaced
    unfold Progress.run
    cases hr : p.ready with
    | nil =>
      rw [← hready, hr]
      exact hplaced
    | cons node rest =>
      rw [← hready, hr]
      refine ih (hp.place hw hr) (hq.place hv (hready ▸ hr)) ?_
      rw [placed_place, placed_place, hplaced]

end Progress

end Linearize

open Linearize

/-- Two listings of the same edges give the same order, or a cycle each: they place the same nodes
turn by turn, by `Tracks.mem_ready_iff`. -/
theorem linearize_congr {count : Nat} {edges others : List Edge} (hw : Within count edges)
    (hedges : ∀ e, e ∈ edges ↔ e ∈ others) :
    (∃ order, linearize count edges = .ok order ∧ linearize count others = .ok order) ∨
      ∃ c d, linearize count edges = .error c ∧ linearize count others = .error d := by
  have hv : Within count others := fun a b h => hw a b ((hedges (a, b)).2 h)
  have hplaced := Progress.Tracks.run_congr hw hv (Progress.tracks_start count edges)
    (Progress.tracks_start count others) hedges rfl count
  unfold linearize
  simp only [hplaced]
  split
  · exact .inl ⟨_, rfl, rfl⟩
  · exact .inr ⟨_, _, rfl, rfl⟩

end Wiring
