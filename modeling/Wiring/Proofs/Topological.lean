import Wiring.Proofs.LinearOrder

/-!
# Topological orders

`LinearExtension` says what an order of the nodes below a count is to be, without a word about how
it is found: it has each node once, and of every edge the first end before the second. `linearize`
finds such an order just if no node comes before itself along the edges, in the sense of `Cyclic`
(`linearize_topological`); that what it finds is one is `linearExtension_of_linearize`. Edges may be
listed several times, and a node may have an edge to itself, which is a cycle.

* **`Linearize.circular_iff_cyclic`** — `Linearize.Circular` follows the edges backwards and
  `Linearize.Cyclic` forwards, and they come to the same.
* **`Linearize.sublist_of_ordered`** — where `Ordered` holds, an edge is kept as a sublist of the
  order, which is how `Linearize.LinearExtension` has it.
-/

namespace Wiring

namespace Linearize

/-- There is an edge from the first node to the second, however often it is listed. -/
def Leads (edges : List Edge) (a b : Nat) : Prop :=
  (a, b) ∈ edges

/-- Some node leads back to itself, along one edge or several: `Relation.TransGen` of `Leads`. -/
def Cyclic (edges : List Edge) : Prop :=
  ∃ node, Relation.TransGen (Leads edges) node node

/-- The list has each node below `count` once, and of each edge the first end before the second.
Nothing is said of nodes that no edge compares; `LeastExtension` does that. -/
structure LinearExtension (count : Nat) (edges : List Edge) (order : List Nat) : Prop where
  perm : order.Perm (List.range count)
  precedes : ∀ a b, (a, b) ∈ edges → [a, b].Sublist order

variable {count : Nat} {edges : List Edge} {order : List Nat}

/-- A circle of nodes that need each other (`Circular`) is a cycle that is walked backwards, since
`Circular` looks at `predecessors` and `Cyclic` at edges. -/
theorem circular_iff_cyclic : Circular edges ↔ Cyclic edges := by
  have hswap : Needs (predecessors edges) = Function.swap (Leads edges) := by
    funext node other
    exact propext mem_predecessors
  unfold Circular Cyclic
  rw [hswap]
  simp only [Relation.transGen_swap]

/-- What comes after all that it needs, in the sense of `Ordered`, comes after the first end of each
edge that leads to it. -/
theorem sublist_of_ordered (h : Ordered (predecessors edges) ∅ order) {a b : Nat}
    (hedge : (a, b) ∈ edges) (hb : b ∈ order) : [a, b].Sublist order := by
  obtain ⟨earlier, later, rfl⟩ := List.append_of_mem hb
  have ha : a ∈ earlier :=
    (h earlier b later rfl a (mem_predecessors.2 hedge)).resolve_left fun hnone => hnone
  have hfirst : [a].Sublist earlier := List.singleton_sublist.2 ha
  have hsecond : [b].Sublist (b :: later) := List.singleton_sublist.2 List.mem_cons_self
  exact hfirst.append hsecond

/-- An order that `linearize` finds is a linear extension: both ends of an edge are nodes, so by
`linearize_ok` the second end has been placed, and by `sublist_of_ordered` it comes after the
first. -/
theorem linearExtension_of_linearize (hw : Within count edges) (h : linearize count edges = .ok order) :
    LinearExtension count edges order := by
  obtain ⟨hperm, hordered⟩ := linearize_ok hw h
  refine ⟨hperm, fun a b hedge => sublist_of_ordered hordered hedge ?_⟩
  exact hperm.mem_iff.2 (List.mem_range.2 (hw a b hedge).2)

end Linearize

open Linearize

/-- An order is found by `linearize` just if the edges have no cycle, and then the order has each
node once and keeps every edge. The first half is `linearize_error` read through
`circular_iff_cyclic`, the second `linearExtension_of_linearize`. -/
theorem linearize_topological {count : Nat} {edges : List Edge} (hw : Within count edges) :
    ((∃ order, linearize count edges = .ok order) ↔ ¬ Cyclic edges) ∧
      ∀ order, linearize count edges = .ok order → LinearExtension count edges order := by
  refine ⟨?_, fun order h => linearExtension_of_linearize hw h⟩
  rw [← circular_iff_cyclic, ← linearize_error hw]
  cases linearize count edges with
  | ok order => simp
  | error cycle => simp

/-- Two edges into one node, one of them listed twice, and a node that no edge touches. -/
def forkedEdges : List Edge :=
  [(3, 1), (2, 1), (3, 1), (1, 0)]

theorem linearize_topological_of_forked :
    Within 5 forkedEdges ∧ linearize 5 forkedEdges = .ok [2, 3, 1, 0, 4] ∧
      ¬ Cyclic forkedEdges ∧ LinearExtension 5 forkedEdges [2, 3, 1, 0, 4] := by
  have hw : Within 5 forkedEdges := by
    intro a b h
    simp [forkedEdges] at h
    omega
  have hfound : linearize 5 forkedEdges = .ok [2, 3, 1, 0, 4] := by decide
  obtain ⟨hiff, horder⟩ := linearize_topological hw
  exact ⟨hw, hfound, hiff.1 ⟨_, hfound⟩, horder _ hfound⟩

end Wiring
