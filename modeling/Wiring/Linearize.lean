/-!
# Linear orders that keep a set of edges

Nodes are the numbers below a count. An edge `(a, b)` asks for `a` before `b`. Of the nodes whose
predecessors have all been placed, `Progress.run` places the smallest next, so nodes that no edge
compares keep their order, and the result depends on nothing but the edges. When some nodes can
never be placed the edges form a cycle, and `Linearize.stuckCycle` reports one in the order of its
edges.
-/

namespace Wiring

namespace Linearize

/-- A request that the first node stand before the second. -/
abbrev Edge := Nat × Nat

/-- The nodes that `node` is asked to precede, once for each edge, in the order of the edges. -/
def successors (edges : List Edge) (node : Nat) : List Nat :=
  edges.filterMap fun edge => if edge.1 = node then some edge.2 else none

/-- The nodes asked to precede `node`, once for each edge, in the order of the edges. -/
def predecessors (edges : List Edge) (node : Nat) : List Nat :=
  edges.filterMap fun edge => if edge.2 = node then some edge.1 else none

theorem mem_successors {edges : List Edge} {a b : Nat} :
    b ∈ successors edges a ↔ (a, b) ∈ edges := by
  simp only [successors, List.mem_filterMap]
  constructor
  · rintro ⟨edge, hedge, h⟩
    split at h
    · cases h
      subst a
      exact hedge
    · cases h
  · exact fun h => ⟨(a, b), h, by simp⟩

theorem mem_predecessors {edges : List Edge} {a b : Nat} :
    a ∈ predecessors edges b ↔ (a, b) ∈ edges := by
  simp only [predecessors, List.mem_filterMap]
  constructor
  · rintro ⟨edge, hedge, h⟩
    split at h
    · cases h
      subst b
      exact hedge
    · cases h
  · exact fun h => ⟨(a, b), h, by simp⟩

/-- How far an ordering has come, between two turns of `run`. -/
structure Progress where
  /-- For each node, the number of edges into it from nodes not yet placed. -/
  waiting : List Nat
  /-- The nodes that may be placed next, ascending, as `enqueue` keeps them. -/
  ready : List Nat
  /-- The nodes placed so far, in the order in which `place` took them. -/
  placed : List Nat := []

namespace Progress

/-- The number of edges that `node` still waits for, by `waiting`. -/
def pending (p : Progress) (node : Nat) : Nat :=
  p.waiting.getD node 0

/-- Puts a node among those that are ready, which stay ascending. -/
def enqueue (node : Nat) : List Nat → List Nat
  | [] => [node]
  | head :: rest => if node ≤ head then node :: head :: rest else head :: enqueue node rest

/-- Nothing is placed; the nodes without `predecessors` are ready. -/
def start (count : Nat) (edges : List Edge) : Progress :=
  let waiting := (List.range count).map fun node => (predecessors edges node).length
  { waiting, ready := (List.range count).filter fun node => waiting.getD node 0 = 0 }

/-- Counts off one edge into `node`, which becomes ready when it was the last that it waited for. -/
def release (p : Progress) (node : Nat) : Progress :=
  let left := p.pending node - 1
  { p with
    waiting := p.waiting.set node left
    ready := if left = 0 then enqueue node p.ready else p.ready }

/-- Places `node` and counts off the edges that leave it, by `release` of each of its
`successors`. -/
def place (edges : List Edge) (p : Progress) (node : Nat) : Progress :=
  (successors edges node).foldl release { p with placed := p.placed ++ [node] }

/-- Places the smallest ready node, at most `steps` times. As many steps as there are nodes are
enough, since `place` takes each of them once. -/
def run (edges : List Edge) : (steps : Nat) → Progress → Progress
  | 0, p => p
  | steps + 1, p =>
    match p.ready with
    | [] => p
    -- the ready nodes ascend, so the first is the smallest
    | node :: rest => run edges steps (place edges { p with ready := rest } node)

end Progress

/-- Follows edges backwards from `current` through nodes that cannot be placed, until a node comes
again; the stretch of the `walk` from its first visit on, read forwards, is a cycle. -/
def traceBack (edges : List Edge) (stuck : Nat → Bool) :
    (steps : Nat) → (walk : List Nat) → (current : Nat) → List Nat
  | 0, walk, _ => walk
  | steps + 1, walk, current =>
    if current ∈ walk then (walk.drop (walk.idxOf current)).reverse
    else
      match (predecessors edges current).find? stuck with
      | none => walk ++ [current]
      | some previous => traceBack edges stuck steps (walk ++ [current]) previous

/-- A cycle among the nodes that are still waiting, found by `traceBack` from the smallest of
them. -/
def stuckCycle (count : Nat) (edges : List Edge) (p : Progress) : List Nat :=
  let stuck := fun node => decide (0 < p.pending node)
  match (List.range count).find? stuck with
  | none => []
  | some first => traceBack edges stuck (count + 1) [] first

end Linearize

/-- The nodes below `count` in an order that keeps every edge, by `run`, or a cycle of edges, by
`stuckCycle`, where not all can be placed. Both ends of every edge have to be below `count`. -/
def linearize (count : Nat) (edges : List Linearize.Edge) : Except (List Nat) (List Nat) :=
  let final := (Linearize.Progress.start count edges).run edges count
  if final.placed.length = count then .ok final.placed
  else .error (Linearize.stuckCycle count edges final)

end Wiring
