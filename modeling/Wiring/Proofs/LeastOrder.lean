import Mathlib.Data.List.Lex
import Wiring.Proofs.Topological

/-!
# The least order

Of all orders that keep the edges, placing nodes finds the one that stands first in a dictionary
(`LeastExtension`). At each turn the smallest ready node is placed. An order that has come as far
goes on with a node that is ready too, since all its predecessors stand before it
(`Tracks.ready_of_extension`), so where the order that is found first differs from another it has
the smaller node (`Progress.Tracks.run_lexLe`).

There is one such order at most, and it is fixed by which edges there are, however often and in
whatever order they are listed (`linearize_least`).

* **`Linearize.LexLe`** — the order of a dictionary, in which an order comes after what it begins
  with (`LexLe.of_begins`).
* **`Linearize.lexLe_of_linearize`** — what `linearize` finds stands before every `LinearExtension`,
  by `Tracks.run_lexLe` from the start on.
-/

namespace Wiring

namespace Linearize

/-- The first list is the second, or stands before it in a dictionary, by `List.Lex`. -/
def LexLe (order other : List Nat) : Prop :=
  order = other ∨ List.Lex (· < ·) order other

/-- An order of the nodes that keeps the edges (a `LinearExtension`), and of all these the first in
a dictionary, in the sense of `LexLe`. -/
structure LeastExtension (count : Nat) (edges : List Edge) (order : List Nat) : Prop where
  extension : LinearExtension count edges order
  least : ∀ other, LinearExtension count edges other → LexLe order other

variable {count : Nat} {edges : List Edge} {order other : List Nat}

theorem LexLe.antisymm (h : LexLe order other) (h' : LexLe other order) : order = other := by
  rcases h with rfl | hlt
  · rfl
  · rcases h' with rfl | hgt
    · rfl
    · exact absurd hgt (List.lex_asymm Nat.lt_asymm hlt)

/-- What an order begins with stands before it in the sense of `LexLe`. -/
theorem LexLe.of_begins (h : order <+: other) : LexLe order other := by
  obtain ⟨later, rfl⟩ := h
  cases later with
  | nil => exact .inl (by simp)
  | cons node later =>
    have hlex : List.Lex (· < ·) (order ++ []) (order ++ node :: later) :=
      List.Lex.append_left (· < ·) List.Lex.nil order
    exact .inr (by simpa using hlex)

theorem LeastExtension.unique (h : LeastExtension count edges order)
    (h' : LeastExtension count edges other) : order = other :=
  (h.least other h'.extension).antisymm (h'.least order h.extension)

namespace LinearExtension

variable {earlier later : List Nat} {node : Nat}

theorem nodup (h : LinearExtension count edges order) : order.Nodup :=
  h.perm.nodup_iff.2 List.nodup_range

theorem mem_iff (h : LinearExtension count edges order) : node ∈ order ↔ node < count := by
  rw [h.perm.mem_iff, List.mem_range]

/-- What is asked to precede a node stands before it, in an order that is a `LinearExtension`. -/
theorem mem_earlier (h : LinearExtension count edges (earlier ++ node :: later)) {a : Nat}
    (hedge : (a, node) ∈ edges) : a ∈ earlier := by
  have hlater : node ∉ later :=
    (List.nodup_cons.1 (List.nodup_append.1 h.nodup).2.1).1
  obtain ⟨first, second, hsplit, hfirst, hsecond⟩ :=
    List.sublist_append_iff.1 (h.precedes a node hedge)
  cases first with
  | nil =>
    -- both ends would stand from the node on, so the node would be there again
    rw [List.nil_append] at hsplit
    rw [← hsplit, List.cons_sublist_cons'] at hsecond
    rcases hsecond with hboth | ⟨-, hnode⟩
    · exact absurd (hboth.subset (List.mem_cons_of_mem a List.mem_cons_self)) hlater
    · exact absurd (hnode.subset List.mem_cons_self) hlater
  | cons b first =>
    obtain ⟨rfl, -⟩ := List.cons.inj hsplit
    exact hfirst.subset List.mem_cons_self

end LinearExtension

namespace Progress

variable {p : Progress} {node : Nat} {later : List Nat}

/-- Whatever comes next in an order that begins with the placed nodes is ready: its predecessors
stand before it by `mem_earlier`, so they are placed, and `Tracks.mem_ready_iff` has the rest. -/
theorem Tracks.ready_of_extension (h : Tracks count edges [] p)
    (hother : LinearExtension count edges (p.placed ++ node :: later)) : node ∈ p.ready := by
  refine h.mem_ready_iff.2 ⟨?_, ?_, fun a hedge => hother.mem_earlier hedge⟩
  · exact hother.mem_iff.1 (List.mem_append_right _ List.mem_cons_self)
  · intro hplaced
    exact (List.nodup_append.1 hother.nodup).2.2 node hplaced node List.mem_cons_self rfl

theorem placed_prefix_run (edges : List Edge) (p : Progress) (steps : Nat) :
    p.placed <+: (p.run edges steps).placed := by
  induction steps generalizing p with
  | zero => exact List.prefix_refl _
  | succ steps ih =>
    unfold Progress.run
    split
    · exact List.prefix_refl _
    case h_2 node rest _ =>
      have hplace := ih (place edges { p with ready := rest } node)
      rw [placed_place] at hplace
      exact (List.prefix_append p.placed [node]).trans hplace

/-- From placed nodes with which another order begins, `run` goes on to nothing that stands after
that order in a dictionary: the node that it takes is the smallest of those that the other could go
on with. -/
theorem Tracks.run_lexLe (hw : Within count edges) (h : Tracks count edges [] p)
    (hother : LinearExtension count edges other) (hplaced : p.placed <+: other) (steps : Nat) :
    LexLe (p.run edges steps).placed other := by
  induction steps generalizing p with
  | zero => exact .of_begins hplaced
  | succ steps ih =>
    unfold Progress.run
    split
    case h_1 => exact .of_begins hplaced
    case h_2 node rest hready =>
      have hnode : node ∈ p.ready := by simp [hready]
      obtain ⟨hlt, hfresh, -⟩ := h.mem_ready_iff.1 hnode
      obtain ⟨later, rfl⟩ := hplaced
      cases later with
      | nil =>
        -- the other order has all nodes, but not the one that is placed next
        rw [List.append_nil] at hother
        exact absurd (hother.mem_iff.2 hlt) hfresh
      | cons next later =>
        have hnext : next = node ∨ next ∈ rest :=
          List.mem_cons.1 (hready ▸ h.ready_of_extension hother)
        rcases hnext with rfl | hnext
        · -- both go on with the same node
          refine ih (h.place hw hready) ?_
          rw [placed_place]
          exact ⟨later, (List.append_cons p.placed next later).symm⟩
        · -- the nodes ascend, so the one that is placed is smaller
          have hascending := h.ascending
          rw [hready, List.pairwise_cons] at hascending
          obtain ⟨more, hmore⟩ :=
            placed_prefix_run edges (Progress.place edges { p with ready := rest } node) steps
          rw [placed_place, List.append_assoc] at hmore
          rw [← hmore]
          exact .inr (List.Lex.append_left _ (.rel (hascending.1 next hnext)) p.placed)

end Progress

/-- No order that keeps the edges stands before the one that `linearize` finds. -/
theorem lexLe_of_linearize (hw : Within count edges) (h : linearize count edges = .ok order)
    (hother : LinearExtension count edges other) : LexLe order other := by
  have hrun := (Progress.tracks_start count edges).run_lexLe hw hother List.nil_prefix count
  simp only [linearize] at h
  split at h
  case isFalse => cases h
  case isTrue =>
    obtain rfl := Except.ok.inj h
    exact hrun

end Linearize

open Linearize

/-- The order that `linearize` finds is the one linear extension that stands first in a dictionary,
by `lexLe_of_linearize`, and other listings of the same edges give it too, by `linearize_congr`. -/
theorem linearize_least {count : Nat} {edges : List Edge} {order : List Nat} (hw : Within count edges)
    (h : linearize count edges = .ok order) :
    LeastExtension count edges order ∧
      (∀ other, LeastExtension count edges other → other = order) ∧
      ∀ others : List Edge, (∀ edge, edge ∈ others ↔ edge ∈ edges) →
        linearize count others = .ok order := by
  have hleast : LeastExtension count edges order :=
    ⟨linearExtension_of_linearize hw h, fun _ hother => lexLe_of_linearize hw h hother⟩
  refine ⟨hleast, fun other hother => hother.unique hleast, fun others hedges => ?_⟩
  rcases linearize_congr hw fun edge => (hedges edge).symm with ⟨found, hfound, hothers⟩ | ⟨_, _, hnone, _⟩
  · rw [hothers, ← h, hfound]
  · rw [h] at hnone
    cases hnone

/-- The node 0 waits for the node 2. Once 2 is placed, 0 goes before 3, which was ready all the
time. -/
def lateEdges : List Edge :=
  [(2, 0), (2, 0)]

theorem linearize_least_of_late :
    Within 4 lateEdges ∧ linearize 4 lateEdges = .ok [1, 2, 0, 3] ∧
      LeastExtension 4 lateEdges [1, 2, 0, 3] ∧ linearize 4 [(2, 0)] = .ok [1, 2, 0, 3] := by
  have hw : Within 4 lateEdges := by
    intro a b h
    simp [lateEdges] at h
    omega
  have hfound : linearize 4 lateEdges = .ok [1, 2, 0, 3] := by decide
  obtain ⟨hleast, -, hothers⟩ := linearize_least hw hfound
  exact ⟨hw, hfound, hleast, hothers [(2, 0)] fun edge => by simp [lateEdges]⟩

end Wiring
