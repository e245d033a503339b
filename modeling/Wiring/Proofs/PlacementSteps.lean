import Wiring.Proofs.OrderingCycles

/-!
# Placing nodes one edge at a time

`Progress.run` takes a node from the ready ones, places it and counts off the edges that leave it.
`Loop.Step` does the same one edge at a time and keeps a record of the nodes that have been put
among the ready ones. At every moment (`Loop.Sound`) each edge that is still to be counted off is
one that the node at its end waits for, and what has been put among the ready nodes is either placed
or ready, each node once. So no counter is counted below zero, no node becomes ready twice, and
there are no more placements than nodes (`Loop.InRange`).

When nodes are left in the end, the search for a cycle has a node to start from, and wherever it
comes to there is a node to go back to, until it is back at a node where it has been
(`linearize_retraces`).

* **`Loop.Sound`** — the invariant, which `Loop.Step` keeps; `Loop.entered_release` says which nodes
  an edge puts among the ready ones.
* **`Loop.exists_last`** — there is a last moment, in which no edge is left, and it is the end of
  `Progress.run`.
* **`linearize_in_range`** — all of it for every count and all edges within it, the search for a
  cycle included.
-/

namespace Wiring.Linearize

/-- An ordering in progress, between two edges: a `Progress`, with what it still owes and has
done. -/
structure Loop where
  progress : Progress
  /-- The ends of the edges out of the node placed last that are still to be counted off, as in
  `Progress.Tracks`. -/
  owed : List Nat := []
  /-- The nodes that have been put among the ready ones, one entry for each time. -/
  entered : List Nat

namespace Loop

variable {count : Nat} {edges : List Edge} {l m : Loop}

def start (count : Nat) (edges : List Edge) : Loop :=
  { progress := .start count edges, entered := (Progress.start count edges).ready }

/-- One step of an ordering, which leaves no choice: while edges are owed they are counted off. -/
inductive Step (edges : List Edge) : Loop → Loop → Prop
  /-- The smallest ready node is placed, once all edges out of the one before are counted off. -/
  | pop {p : Progress} {node : Nat} {rest entered : List Nat} (hready : p.ready = node :: rest) :
      Step edges ⟨p, [], entered⟩
        ⟨{ p with ready := rest, placed := p.placed ++ [node] }, successors edges node, entered⟩
  /-- An edge is counted off by `Progress.release`. The node at its end has become ready if there is
  one ready node more. -/
  | release {p : Progress} {node : Nat} {owed entered : List Nat} :
      Step edges ⟨p, node :: owed, entered⟩
        ⟨p.release node, owed,
          if p.ready.length < (p.release node).ready.length then entered ++ [node] else entered⟩

/-- The steps that an ordering takes one after the other: `Relation.ReflTransGen` of `Loop.Step`. -/
abbrev Reaches (edges : List Edge) : Loop → Loop → Prop :=
  Relation.ReflTransGen (Step edges)

/-! ### What every step keeps -/

/-- The counters, the ready nodes and the placed ones agree by `Progress.Tracks`, and the record is
of those that are placed or ready. -/
structure Sound (count : Nat) (edges : List Edge) (l : Loop) : Prop where
  tracks : Progress.Tracks count edges l.owed l.progress
  owed : ∀ node ∈ l.owed, node < count
  entered : l.entered.Perm (l.progress.placed ++ l.progress.ready)

theorem sound_start (count : Nat) (edges : List Edge) : Sound count edges (start count edges) where
  tracks := Progress.tracks_start count edges
  owed _ hnode := nomatch hnode
  entered := .refl _

/-- A node that becomes ready is put on record, so the record stays a permutation of what is placed
or ready. -/
theorem entered_release {p : Progress} {node : Nat} {entered : List Nat}
    (h : entered.Perm (p.placed ++ p.ready)) :
    (if p.ready.length < (p.release node).ready.length then entered ++ [node] else entered).Perm
      (p.placed ++ (p.release node).ready) := by
  rw [Progress.ready_release]
  by_cases hlast : p.pending node - 1 = 0
  · -- the node waits for no other edge, so there is one ready node more
    have hperm := Progress.enqueue_perm node p.ready
    have hgrown : p.ready.length < (Progress.enqueue node p.ready).length := by
      rw [hperm.length_eq, List.length_cons]
      exact Nat.lt_succ_self _
    rw [if_pos hlast, if_pos hgrown]
    have hready : (p.ready ++ [node]).Perm (Progress.enqueue node p.ready) :=
      (List.perm_append_singleton node p.ready).trans hperm.symm
    have hentered := h.append_right [node]
    rw [List.append_assoc] at hentered
    exact hentered.trans (hready.append_left p.placed)
  · rw [if_neg hlast, if_neg (Nat.lt_irrefl _)]
    exact h

theorem Sound.step (hw : Within count edges) (h : Sound count edges l) (hstep : Step edges l m) :
    Sound count edges m := by
  cases hstep with
  | @pop p node rest entered hready =>
    refine ⟨h.tracks.moved hready, fun other hother => ?_, ?_⟩
    · exact (hw node other (mem_successors.1 hother)).2
    · -- the node goes from the ready ones to the placed ones, so the two have the same nodes together
      have hentered : entered.Perm (p.placed ++ p.ready) := h.entered
      rw [hready] at hentered
      simpa using hentered
  | @release p node owed entered =>
    obtain ⟨hnode, howed⟩ := List.forall_mem_cons.1 h.owed
    exact ⟨h.tracks.release hnode, howed, entered_release h.entered⟩

theorem sound_of_reaches (hw : Within count edges) (h : Reaches edges (start count edges) l) :
    Sound count edges l := by
  induction h with
  | refl => exact sound_start count edges
  | tail _ hstep ih => exact ih.step hw hstep

/-- Nothing is counted below zero, nothing is done twice, and no number is out of range: what
`Loop.Sound` comes to for the numbers that are stored. -/
structure InRange (count : Nat) (l : Loop) : Prop where
  /-- Before an edge is counted off, the node at its end waits for one edge at least. -/
  counted : ∀ node ∈ l.owed, node < count ∧ 0 < l.progress.pending node
  /-- No node has been put among the ready ones twice. -/
  once : l.entered.Nodup
  nodes : ∀ node ∈ l.entered, node < count
  /-- What has been put among the ready ones was placed since, or is ready. -/
  kept : l.entered.Perm (l.progress.placed ++ l.progress.ready)
  /-- Each node that was taken off the ready ones was placed. -/
  placements : l.progress.placed.length ≤ count

theorem Sound.inRange (h : Sound count edges l) : l.InRange count := by
  have hready : l.progress.ready.Nodup := h.tracks.ascending.imp Nat.ne_of_lt
  have hfresh : ∀ node ∈ l.progress.ready, node ∉ l.progress.placed := fun node hnode =>
    ((h.tracks.ready node).1 hnode).2.1
  have hplaced : ∀ node ∈ l.progress.placed, node < count := fun node hnode =>
    (h.tracks.settled node hnode).1
  constructor
  case counted =>
    exact fun node hnode => ⟨h.owed node hnode, h.tracks.pending_pos_of_owed (h.owed node hnode) hnode⟩
  case once =>
    rw [h.entered.nodup_iff, List.nodup_append']
    exact ⟨h.tracks.nodup, hready, fun node hold hnew => hfresh node hnew hold⟩
  case nodes =>
    intro node hnode
    rcases List.mem_append.1 (h.entered.mem_iff.1 hnode) with hold | hnew
    · exact hplaced node hold
    · exact ((h.tracks.ready node).1 hnew).1
  case kept => exact h.entered
  case placements => exact length_le_of_nodup h.tracks.nodup hplaced

/-! ### The steps are those of the ordering -/

theorem rightUnique_step : Relator.RightUnique (Step edges) := by
  intro l a b ha hb
  cases ha with
  | pop hready =>
    cases hb with
    | pop hother =>
      obtain ⟨rfl, rfl⟩ := List.cons.inj (hready.symm.trans hother)
      rfl
  | release =>
    cases hb
    rfl

theorem not_step {p : Progress} {entered : List Nat} (hready : p.ready = []) :
    ¬ Step edges ⟨p, [], entered⟩ m := by
  rintro ⟨hsome⟩
  rw [hready] at hsome
  cases hsome

theorem reaches_foldl_release (owed : List Nat) (p : Progress) (entered : List Nat) :
    ∃ later, Reaches edges ⟨p, owed, entered⟩ ⟨owed.foldl Progress.release p, [], later⟩ := by
  induction owed generalizing p entered with
  | nil => exact ⟨entered, .refl⟩
  | cons node rest ih =>
    obtain ⟨later, hrest⟩ := ih (p.release node) _
    exact ⟨later, .head .release hrest⟩

theorem reaches_run (steps : Nat) (p : Progress) (entered : List Nat) :
    ∃ later, Reaches edges ⟨p, [], entered⟩ ⟨p.run edges steps, [], later⟩ := by
  induction steps generalizing p entered with
  | zero => exact ⟨entered, .refl⟩
  | succ steps ih =>
    unfold Progress.run
    split
    case h_1 => exact ⟨entered, .refl⟩
    case h_2 node rest hready =>
      obtain ⟨between, hplace⟩ := reaches_foldl_release (successors edges node) _ entered
      obtain ⟨later, hrest⟩ := ih _ between
      exact ⟨later, .head (.pop hready) (hplace.trans hrest)⟩

/-- However far an ordering has come by `Loop.Step`, it goes on to where `run` comes to, and ends
there. -/
theorem exists_last (hw : Within count edges) :
    ∃ last, last.progress = (Progress.start count edges).run edges count ∧
      (∀ l, ¬ Step edges last l) ∧
      ∀ l, Reaches edges (start count edges) l → Reaches edges l last := by
  obtain ⟨later, hlast⟩ := @reaches_run edges count (.start count edges)
    (Progress.start count edges).ready
  have hend (l : Loop) : ¬ Step edges ⟨_, [], later⟩ l := not_step (Progress.ready_run_start hw)
  refine ⟨_, rfl, hend, fun l hl => ?_⟩
  -- the steps leave no choice, so one of the two comes before the other
  rcases hl.total_of_right_unique rightUnique_step hlast with hafter | hbefore
  · exact hafter
  · rcases hbefore.cases_head with rfl | ⟨next, hstep, -⟩
    · exact .refl
    · exact absurd hstep (hend next)

end Loop

open Loop

/-- At every moment of an ordering the counter of an edge that is to be counted off is above zero,
no node has become ready twice and no more nodes are placed than there are (`Loop.InRange`), and the
ordering goes on to where `run` comes to and ends there. When it fails, some node is `leftWaiting`.
From there on each node that is visited has a predecessor that waits, and after at most as many
steps as there are nodes one is visited again. -/
theorem linearize_in_range {count : Nat} {edges : List Edge} (hw : Within count edges) :
    (∀ l, Reaches edges (start count edges) l → l.InRange count) ∧
      (∃ last, last.progress = (Progress.start count edges).run edges count ∧
        (∀ l, ¬ Step edges last l) ∧
        ∀ l, Reaches edges (start count edges) l → Reaches edges l last) ∧
      ∀ cycle, linearize count edges = .error cycle →
        ∃ first, (List.range count).find? (leftWaiting count edges) = some first ∧
          (∀ walk current, Retraced edges (leftWaiting count edges) first walk current →
            current < count ∧ walk.length ≤ count ∧
              ∃ previous, (predecessors edges current).find? (leftWaiting count edges) =
                some previous) ∧
          ∃ walk again, Retraced edges (leftWaiting count edges) first walk again ∧ again ∈ walk ∧
            cycle = (walk.drop (walk.idxOf again)).reverse := by
  refine ⟨fun l hl => (sound_of_reaches hw hl).inRange, exists_last hw, fun cycle h => ?_⟩
  obtain ⟨first, hfirst, hrevisits⟩ := linearize_retraces hw h
  refine ⟨first, hfirst, fun walk current hwalk => ?_, hrevisits⟩
  have hback := hwalk.backwardWalk (List.find?_some hfirst)
  refine ⟨lt_of_leftWaiting hw hback.current_waits, ?_, ?_⟩
  · exact hback.length_le fun _ => lt_of_leftWaiting hw
  · exact hback.exists_previous fun _ => exists_leftWaiting hw

/-- The node 2 waits for two edges from the node 0. The nodes 3 and 4 wait for each other, and 1 for
one of them, too. -/
def tangledEdges : List Edge :=
  [(0, 2), (0, 2), (2, 1), (3, 4), (4, 3), (4, 1)]

theorem linearize_in_range_of_tangled :
    Within 5 tangledEdges ∧
      (∃ l, Reaches tangledEdges (start 5 tangledEdges) l ∧ l.owed = [2] ∧ l.entered = [0] ∧
        0 < l.progress.pending 2) ∧
      linearize 5 tangledEdges = .error [3, 4] ∧
      ∃ walk again, Retraced tangledEdges (leftWaiting 5 tangledEdges) 1 walk again ∧
        again ∈ walk ∧ walk.length ≤ 5 := by
  have hw : Within 5 tangledEdges := by
    intro a b h
    simp [tangledEdges] at h
    omega
  have hfails : linearize 5 tangledEdges = .error [3, 4] := by decide
  obtain ⟨hmoments, -, hsearch⟩ := linearize_in_range hw
  have hreached : ∃ l, Reaches tangledEdges (start 5 tangledEdges) l ∧ l.owed = [2] ∧ l.entered = [0] :=
    ⟨_, .tail (.single (.pop rfl)) .release, rfl, rfl⟩
  obtain ⟨l, hl, howed, hentered⟩ := hreached
  have hpending := ((hmoments l hl).counted 2 (howed ▸ List.mem_cons_self)).2
  obtain ⟨first, hfirst, hvisits, walk, again, hwalk, hagain, -⟩ := hsearch _ hfails
  have hone : (List.range 5).find? (leftWaiting 5 tangledEdges) = some 1 := by decide
  obtain rfl : first = 1 := Option.some.inj (hfirst.symm.trans hone)
  exact ⟨hw, ⟨l, hl, howed, hentered, hpending⟩, hfails, walk, again, hwalk, hagain,
    (hvisits walk again hwalk).2.1⟩

end Wiring.Linearize
