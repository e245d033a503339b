import Wiring.Fault
import Wiring.Table

/-!
# Who waits for whom

A resolve stack cannot see a cycle that spans threads: two threads that each produce one of two
singletons which need each other would wait for each other forever. The `WaitGraph` of an injector
records the thread that produces each singleton and the singleton that each thread waits for. A
thread that would close a loop, as `chainTo` finds it, is refused by `await` instead of being left
to wait.
-/

namespace Wiring

/-- A thread, by the number under which `World.threads` counted it. -/
abbrev ThreadId := Nat

/-- Which thread produces a key (`producing`), and which key a thread waits for (`awaiting`). -/
structure WaitGraph where
  producing : Table Key ThreadId := .empty
  awaiting : Table ThreadId Key := .empty

namespace WaitGraph

/-- Each key that is passed leaves one less of the keys that are waited for. This bounds the walk of
`chainTo`. -/
theorem length_filter_lt {keys chain : List Key} {next : Key} (hmem : next ∈ keys) (hfresh : next ∉ chain) :
    (keys.filter (· ∉ chain ++ [next])).length < (keys.filter (· ∉ chain)).length := by
  have hsub : keys.filter (· ∉ chain ++ [next]) =
      (keys.filter (· ∉ chain)).filter (· ≠ next) := by
    rw [List.filter_filter]
    apply List.filter_congr
    intro key _
    simp [and_comm]
  rw [hsub]
  exact List.length_filter_lt_length_iff_exists.2
    ⟨next, List.mem_filter.2 ⟨hmem, by simpa using hfresh⟩, by simp⟩

/-- Goes from `current` to its producer, from there to the key that the producer waits for, and so
on. The keys passed are given back if the walk comes to a key that `me` produces; it ends without
result where nobody produces, where the producer does not wait, and where a key comes again. -/
def chainTo (graph : WaitGraph) (me : ThreadId) (chain : List Key) (current : Key) :
    Option (List Key) :=
  match graph.producing.get? current with
  | none => none
  | some producer =>
    if producer = me then some chain
    else
      match _ : graph.awaiting.get? producer with
      | none => none
      | some next =>
        if next ∈ chain then none else graph.chainTo me (chain ++ [next]) next
termination_by (graph.awaiting.values.filter (· ∉ chain)).length
decreasing_by
  rename_i hnext hfresh
  exact length_filter_lt (Table.mem_values_of_get? hnext) hfresh

/-- Records that `me` is about to wait for `key`, unless that wait would never end: `chainTo` comes
back to `me` then, and the fault is `cyclicBinding`. -/
def await (graph : WaitGraph) (me : ThreadId) (key : Key) : Except Fault WaitGraph :=
  match graph.chainTo me [key] key with
  | some chain => .error (.cyclicBinding (chain ++ [key]))
  | none => .ok { graph with awaiting := graph.awaiting.insert me key }

/-- The thread `me` waits no longer and produces `key`. -/
def startProducing (graph : WaitGraph) (me : ThreadId) (key : Key) : WaitGraph :=
  { producing := graph.producing.insert key me, awaiting := graph.awaiting.erase me }

/-- The production of `key` is over, whoever was recorded as its producer. -/
def stopProducing (graph : WaitGraph) (key : Key) : WaitGraph :=
  { graph with producing := graph.producing.erase key }

/-- The thread `me` no longer waits for `key`; a wait of `me` for another key stands. -/
def stopAwaiting (graph : WaitGraph) (me : ThreadId) (key : Key) : WaitGraph :=
  if graph.awaiting.get? me = some key then
    { graph with awaiting := graph.awaiting.erase me }
  else graph

/-- A refused wait is a cycle among bindings: the chain that `chainTo` has found, closed by
`key`. -/
theorem await_eq_error_iff {graph : WaitGraph} {me : ThreadId} {key : Key} {fault : Fault} :
    graph.await me key = .error fault ↔
      ∃ chain, graph.chainTo me [key] key = some chain ∧
        fault = .cyclicBinding (chain ++ [key]) := by
  unfold await
  cases graph.chainTo me [key] key <;> simp [eq_comm]

/-- A wait that is let through changes what `me` waits for, and nothing else of the graph. -/
theorem await_eq_ok_iff {graph waiting : WaitGraph} {me : ThreadId} {key : Key} :
    graph.await me key = .ok waiting ↔
      graph.chainTo me [key] key = none ∧
        waiting = { graph with awaiting := graph.awaiting.insert me key } := by
  unfold await
  cases graph.chainTo me [key] key <;> simp [eq_comm]

end WaitGraph

end Wiring
