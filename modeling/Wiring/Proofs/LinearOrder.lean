import Mathlib.Data.Fintype.Order
import Wiring.Proofs.Prerequisites
import Wiring.Proofs.RosterEdges

/-!
# When entries can be put in order

An ordering that comes to an end has placed each node once, after all nodes that are asked to
precede it (`linearize_ok`). One that is stuck leaves nodes each of which waits for another of them
(`Tracks.circular`), so some node is asked to precede itself (`linearize_error`). So `Roster.order`
puts a list in order unless its constraints contradict each other, and then each of its entries has
a place (`Roster.order_perm`, `Roster.order_error_iff`).

* **`Progress.ordered_run`** — whatever has been placed is `Ordered`, at every turn of
  `Progress.run`.
* **`Progress.ready_run`** — after so many turns nothing is ready, or as many nodes have been
  placed; so with as many turns as there are nodes nothing is ready in the end
  (`Progress.ready_run_start`).
* **`not_circular_of_ordered`** — an order of all nodes and nodes that wait for each other exclude
  one another, so the two outcomes of `linearize` do.
-/

namespace Wiring

namespace Linearize

/-- There are nodes that are asked, in a circle, to stand before each other: some node comes back to
itself along what nodes need, their `predecessors`. -/
def Circular (edges : List Edge) : Prop :=
  ∃ node, Relation.TransGen (Needs (predecessors edges)) node node

/-- There are no more different nodes than the count, which bounds how many nodes are ever
placed. -/
theorem length_le_of_nodup {nodes : List Nat} {count : Nat} (hnodup : nodes.Nodup)
    (hlt : ∀ node ∈ nodes, node < count) : nodes.length ≤ count := by
  have hsub : nodes ⊆ List.range count := fun node hnode => List.mem_range.2 (hlt node hnode)
  simpa using (hnodup.subperm hsub).length_le

namespace Progress

variable {count : Nat} {edges : List Edge} {p : Progress}

theorem Tracks.length_placed_le (h : Tracks count edges [] p) : p.placed.length ≤ count :=
  length_le_of_nodup h.nodup fun node hnode => (h.settled node hnode).1

/-- A node is placed only after all that it needs: each turn of `run` takes a ready node, and
`Tracks.mem_ready_iff` says that its predecessors are placed. -/
theorem ordered_run (hw : Within count edges) (h : Tracks count edges [] p)
    (hordered : Ordered (predecessors edges) ∅ p.placed) (steps : Nat) :
    Ordered (predecessors edges) ∅ (p.run edges steps).placed := by
  induction steps generalizing p with
  | zero => exact hordered
  | succ steps ih =>
    unfold Progress.run
    split
    · exact hordered
    case h_2 node rest hready =>
      refine ih (h.place hw hready) ?_
      rw [placed_place]
      have hnode := (h.mem_ready_iff).1 (hready ▸ List.mem_cons_self)
      exact hordered.append (.singleton fun other hneeds =>
        .inr (hnode.2.2 other (mem_predecessors.1 hneeds)))

/-- An ordering stops early only if nothing is ready; else each step of `run` places one node. -/
theorem ready_run (steps : Nat) :
    (p.run edges steps).ready = [] ∨ (p.run edges steps).placed.length = p.placed.length + steps := by
  induction steps generalizing p with
  | zero => exact .inr rfl
  | succ steps ih =>
    unfold Progress.run
    split
    case h_1 hready => exact .inl hready
    case h_2 node rest _ =>
      refine ih.imp_right fun hlength => ?_
      rw [hlength, placed_place, List.length_append, List.length_singleton, Nat.add_assoc,
        Nat.add_comm 1]

/-- With as many steps as there are nodes an ordering comes to an end, since by `length_le_of_nodup`
no more nodes can be placed. -/
theorem ready_run_start (hw : Within count edges) :
    ((start count edges).run edges count).ready = [] := by
  have htracks := (tracks_start count edges).run hw count
  refine (ready_run count).elim id fun hall => List.eq_nil_iff_forall_not_mem.2 fun node hnode => ?_
  -- all nodes are placed already
  obtain ⟨hlt, hfresh, -⟩ := (htracks.ready node).1 hnode
  have hlong := length_le_of_nodup (List.nodup_cons.2 ⟨hfresh, htracks.nodup⟩)
    (List.forall_mem_cons.2 ⟨hlt, fun other hother => (htracks.settled other hother).1⟩)
  rw [List.length_cons, hall] at hlong
  omega

/-- If nothing is ready and not all is placed, each of the nodes left waits for another of them, so
the edges are `Circular`. -/
theorem Tracks.circular (hw : Within count edges) (h : Tracks count edges [] p)
    (hready : p.ready = []) {first : Nat} (hlt : first < count) (hfirst : first ∉ p.placed) :
    Circular edges := by
  by_contra hnone
  let left := {node : Fin count // node.1 ∉ p.placed}
  let waits (a b : left) : Prop := Relation.TransGen (Needs (predecessors edges)) b.1.1 a.1.1
  have : IsTrans left waits := ⟨fun _ _ _ h k => k.trans h⟩
  have : Std.Irrefl waits := ⟨fun a h => hnone ⟨_, h⟩⟩
  have hwf : WellFounded waits := Finite.wellFounded_of_trans_of_irrefl waits
  -- among those left there would be one that waits for none of them, which would be ready
  obtain ⟨last, -, hlast⟩ := hwf.has_min Set.univ ⟨⟨⟨first, hlt⟩, hfirst⟩, trivial⟩
  have hmem : last.1.1 ∈ p.ready := by
    refine h.mem_ready_iff.2 ⟨last.1.2, last.2, fun other hedge => ?_⟩
    by_contra hother
    exact hlast ⟨⟨other, (hw other _ hedge).1⟩, hother⟩ trivial (.single (mem_predecessors.2 hedge))
  rw [hready] at hmem
  cases hmem

end Progress

end Linearize

open Linearize

variable {count : Nat} {edges : List Edge}

/-- An order that `linearize` finds has each node once, after all that are asked to precede it: it
is a permutation of the nodes and `Ordered` by their `predecessors`. -/
theorem linearize_ok (hw : Within count edges) {order : List Nat}
    (h : linearize count edges = .ok order) :
    order.Perm (List.range count) ∧ Ordered (predecessors edges) ∅ order := by
  have htracks := (Progress.tracks_start count edges).run hw count
  simp only [linearize] at h
  split at h
  case isFalse => cases h
  case isTrue hlength =>
    obtain rfl := Except.ok.inj h
    refine ⟨?_, Progress.ordered_run hw (Progress.tracks_start count edges) ?_ count⟩
    · have hsub : (Progress.run edges count (Progress.start count edges)).placed ⊆ List.range count :=
        fun node hnode => List.mem_range.2 (htracks.settled node hnode).1
      refine (htracks.nodup.subperm hsub).perm_of_length_le ?_
      rw [List.length_range, hlength]
    · intro earlier node later heq
      exact absurd heq (by simp [Progress.start])

/-- An ordering that fails has nodes left, among which `stuckCycle` looks for a cycle. -/
theorem stopped_of_linearize (hw : Within count edges) {cycle : List Nat}
    (h : linearize count edges = .error cycle) :
    (∃ node < count, node ∉ ((Progress.start count edges).run edges count).placed) ∧
      cycle = stuckCycle count edges ((Progress.start count edges).run edges count) := by
  have htracks := (Progress.tracks_start count edges).run hw count
  simp only [linearize] at h
  split at h
  case isTrue => cases h
  case isFalse hlength =>
    have hplaced := htracks.length_placed_le
    refine ⟨?_, (Except.error.inj h).symm⟩
    -- fewer nodes are placed than there are
    by_contra hnone
    push Not at hnone
    have hlong := (List.nodup_range.subperm fun node hnode =>
      hnone node (List.mem_range.1 hnode)).length_le
    rw [List.length_range] at hlong
    omega

/-- Where all nodes stand after those that are asked to precede them, no node is asked to precede
itself, so there is no circle either. -/
theorem not_circular_of_ordered (hw : Within count edges) {order : List Nat}
    (hperm : order.Perm (List.range count)) (hordered : Ordered (predecessors edges) ∅ order) :
    ¬ Circular edges := by
  rintro ⟨node, hself⟩
  obtain ⟨other, hneeds, -⟩ := Relation.TransGen.head'_iff.1 hself
  have hlt := (hw other node (mem_predecessors.1 hneeds)).2
  have hmem : node ∈ order := hperm.mem_iff.2 (List.mem_range.2 hlt)
  exact hordered.not_transGen_self (hperm.nodup_iff.2 List.nodup_range) hmem hself

/-- There is no order just if nodes are asked, in a circle, to stand before each other. One way it
is `Tracks.circular`, the other `not_circular_of_ordered`. -/
theorem linearize_error (hw : Within count edges) :
    (∃ cycle, linearize count edges = .error cycle) ↔ Circular edges := by
  constructor
  · rintro ⟨cycle, h⟩
    obtain ⟨⟨node, hlt, hfresh⟩, -⟩ := stopped_of_linearize hw h
    exact ((Progress.tracks_start count edges).run hw count).circular hw
      (Progress.ready_run_start hw) hlt hfresh
  · intro hcircular
    cases h : linearize count edges with
    | error cycle => exact ⟨cycle, rfl⟩
    | ok order =>
      obtain ⟨hperm, hordered⟩ := linearize_ok hw h
      exact absurd hcircular (not_circular_of_ordered hw hperm hordered)

namespace Roster

variable {P : Type} {roster : Roster P}

/-- The constraints of the entries contradict each other: the `edges` of the roster are
`Circular`. -/
def Contradictory (roster : Roster P) : Prop :=
  Circular roster.edges

theorem order_error_iff : (∃ fault, roster.order = .error fault) ↔ roster.Contradictory := by
  rw [Contradictory, ← linearize_error (within_edges roster), Roster.order]
  cases linearize roster.size roster.edges with
  | ok positions => simp
  | error cycle => simp

theorem fault_of_order {fault : Fault} (h : roster.order = .error fault) :
    ∃ cycle, fault = .orderingCycle roster.list cycle := by
  rw [Roster.order] at h
  cases hlinear : linearize roster.size roster.edges with
  | ok positions =>
    rw [hlinear] at h
    cases h
  | error cycle =>
    rw [hlinear] at h
    exact ⟨_, (Except.error.inj h).symm⟩

theorem filterMap_getElem?_range {α : Type} (items : List α) :
    (List.range items.length).filterMap (items[·]?) = items := by
  induction items with
  | nil => rfl
  | cons item rest ih =>
    rw [List.length_cons, List.range_succ_eq_map, List.filterMap_cons, List.filterMap_map]
    exact congrArg (item :: ·) ih

/-- The order has each entry once, whatever was asked: it is a permutation of the entries. -/
theorem order_perm {entries : List (Entry P)} (h : roster.order = .ok entries) :
    entries.Perm roster.entries := by
  rw [Roster.order] at h
  cases hlinear : linearize roster.size roster.edges with
  | error cycle =>
    rw [hlinear] at h
    cases h
  | ok positions =>
    rw [hlinear] at h
    obtain rfl := Except.ok.inj h
    have hperm := (linearize_ok (within_edges roster) hlinear).1
    exact (hperm.filterMap _).trans (.of_eq (filterMap_getElem?_range roster.entries))

end Roster

end Wiring
