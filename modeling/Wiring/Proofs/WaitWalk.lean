import Mathlib.Logic.Relation
import Wiring.WaitGraph

/-!
# Walks through a graph of waits

The search `chainTo` walks from a key to its producer, to the key that the producer waits for, and
so on. It finds the thread it looks for just if the walk comes to a key which that thread produces,
in any graph, cyclic or not (`WaitGraph.chainTo_isSome_iff`). So a wait that is let through closes
no loop of threads that wait for each other (`WaitGraph.Calm`), and none of the other changes of a
graph closes one either.

* **`Leads`** and **`Meets`** — one step of the walk, and a walk that comes to a thread.
* **`not_meets_of_closed`** — a walk among keys that lead only to each other comes nowhere else.
* **`Calm.await`** and **`Calm.startProducing`** — the two changes that could close a loop.
-/

namespace Wiring.WaitGraph

variable {graph : WaitGraph} {me : ThreadId} {key : Key}

/-! ### What the walk finds -/

/-- The walk goes from `key` to `next`, for which the producer of `key` in `producing` waits. -/
def Leads (graph : WaitGraph) (key next : Key) : Prop :=
  ∃ producer, graph.producing.get? key = some producer ∧ graph.awaiting.get? producer = some next

/-- The walk from `key`, by `Leads`, comes to a key that `me` produces. -/
def Meets (graph : WaitGraph) (me : ThreadId) (key : Key) : Prop :=
  ∃ last, Relation.ReflTransGen graph.Leads key last ∧ graph.producing.get? last = some me

theorem meets_of_chainTo {chain found : List Key}
    (h : graph.chainTo me chain key = some found) : graph.Meets me key := by
  fun_induction chainTo graph me chain key with
  | case1 => cases h
  | case2 chain key hproducer => exact ⟨key, .refl, hproducer⟩
  | case3 => cases h
  | case4 => cases h
  | case5 chain key producer hproducer _ next hnext _ ih =>
    obtain ⟨last, hwalk, hlast⟩ := ih h
    exact ⟨last, .head ⟨producer, hproducer, hnext⟩ hwalk, hlast⟩

/-- The keys passed before are no way to `me`, and from each of them the walk goes on by `Leads` to
a key that was passed. -/
def Passed (graph : WaitGraph) (me : ThreadId) (chain : List Key) (key : Key) : Prop :=
  ∀ passed ∈ chain, passed ≠ key →
    graph.producing.get? passed ≠ some me ∧ ∀ next, graph.Leads passed next → next ∈ chain

/-- The walk never leaves keys among which alone it can go on, so it `Meets` nobody who produces
none of them. -/
theorem not_meets_of_closed {chain : List Key} (hkey : key ∈ chain)
    (hclosed : ∀ passed ∈ chain,
      graph.producing.get? passed ≠ some me ∧ ∀ next, graph.Leads passed next → next ∈ chain) :
    ¬ graph.Meets me key := by
  have hstay (last : Key) (hwalk : Relation.ReflTransGen graph.Leads key last) :
      last ∈ chain := by
    induction hwalk with
    | refl => exact hkey
    | tail _ hstep ih => exact (hclosed _ ih).2 _ hstep
  rintro ⟨last, hwalk, hlast⟩
  exact (hclosed last (hstay last hwalk)).1 hlast

/-- From a key that nobody produces, or whose producer does not wait, the walk by `Leads` does not
go on. -/
theorem not_meets_of_stuck (hme : graph.producing.get? key ≠ some me)
    (hstuck : ∀ next, ¬ graph.Leads key next) : ¬ graph.Meets me key := by
  rintro ⟨last, hwalk, hlast⟩
  cases Relation.ReflTransGen.cases_head hwalk with
  | inl heq =>
    rw [← heq] at hlast
    exact hme hlast
  | inr hstep =>
    obtain ⟨next, hnext, -⟩ := hstep
    exact hstuck next hnext

theorem Leads.unique {next other : Key} (h : graph.Leads key next) (k : graph.Leads key other) :
    next = other := by
  obtain ⟨producer, hproducer, hnext⟩ := h
  obtain ⟨again, hagain, hother⟩ := k
  rw [hproducer] at hagain
  cases hagain
  rw [hnext] at hother
  exact Option.some.inj hother

/-- A walk that does not find `me` by `chainTo` would not find it however long it went on. -/
theorem not_meets_of_chainTo {chain : List Key} (hkey : key ∈ chain)
    (hpassed : graph.Passed me chain key) (h : graph.chainTo me chain key = none) :
    ¬ graph.Meets me key := by
  fun_induction chainTo graph me chain key with
  | case1 chain key hproducer =>
    refine not_meets_of_stuck (by simp [hproducer]) ?_
    rintro next ⟨producer, hsome, -⟩
    rw [hproducer] at hsome
    cases hsome
  | case2 => cases h
  | case3 chain key producer hproducer hne hnext =>
    refine not_meets_of_stuck (by simp [hproducer, hne]) ?_
    rintro next ⟨other, hother, hsome⟩
    rw [hproducer] at hother
    cases hother
    rw [hnext] at hsome
    cases hsome
  | case4 chain key producer hproducer hne next hnext hmem =>
    -- the walk is back at a key it has passed, so the keys it has passed are all it will see
    have hleads : graph.Leads key next := ⟨producer, hproducer, hnext⟩
    refine not_meets_of_closed hkey fun passed hp => ?_
    by_cases heq : passed = key
    · subst heq
      refine ⟨by simp [hproducer, hne], fun other hother => ?_⟩
      rw [hother.unique hleads]
      exact hmem
    · exact hpassed passed hp heq
  | case5 chain key producer hproducer hne next hnext hfresh ih =>
    have hleads : graph.Leads key next := ⟨producer, hproducer, hnext⟩
    have hrest : ¬ graph.Meets me next := by
      refine ih (by simp) ?_ h
      intro passed hp hpne
      have hold : passed ∈ chain := by simpa [hpne] using hp
      by_cases heq : passed = key
      · subst heq
        refine ⟨by simp [hproducer, hne], fun other hother => ?_⟩
        rw [hother.unique hleads]
        simp
      · obtain ⟨hme, hgo⟩ := hpassed passed hold heq
        exact ⟨hme, fun other hother => List.mem_append_left _ (hgo other hother)⟩
    rintro ⟨last, hwalk, hlast⟩
    cases Relation.ReflTransGen.cases_head hwalk with
    | inl heq =>
      rw [← heq, hproducer] at hlast
      exact hne (Option.some.inj hlast)
    | inr hstep =>
      obtain ⟨other, hother, hrestwalk⟩ := hstep
      rw [hother.unique hleads] at hrestwalk
      exact hrest ⟨last, hrestwalk, hlast⟩

theorem chainTo_isSome_iff :
    (graph.chainTo me [key] key).isSome ↔ graph.Meets me key := by
  cases hfound : graph.chainTo me [key] key with
  | some found => exact ⟨fun _ => meets_of_chainTo hfound, fun _ => rfl⟩
  | none =>
    have hnot : ¬ graph.Meets me key := by
      refine not_meets_of_chainTo (List.mem_singleton_self key) ?_ hfound
      intro passed hp hne
      exact absurd (List.mem_singleton.1 hp) hne
    exact ⟨fun h => (nomatch h), fun h => absurd h hnot⟩

/-! ### Loops of waiting threads -/

/-- The first thread is `awaiting` a key that the other produces. -/
def WaitsFor (graph : WaitGraph) (waiter producer : ThreadId) : Prop :=
  ∃ key, graph.awaiting.get? waiter = some key ∧ graph.producing.get? key = some producer

/-- Threads do not wait for each other in a loop of `WaitsFor`. -/
def Calm (graph : WaitGraph) : Prop :=
  WellFounded fun producer waiter => graph.WaitsFor waiter producer

theorem meets_of_waitsFor {producer : ThreadId} (hproducer : graph.producing.get? key = some producer)
    (h : Relation.ReflTransGen graph.WaitsFor producer me) : graph.Meets me key := by
  induction h using Relation.ReflTransGen.head_induction_on generalizing key with
  | refl => exact ⟨key, .refl, hproducer⟩
  | head hwait _ ih =>
    obtain ⟨next, hawaits, hnext⟩ := hwait
    obtain ⟨last, hwalk, hlast⟩ := ih hnext
    exact ⟨last, .head ⟨_, hproducer, hawaits⟩ hwalk, hlast⟩

/-- A new wait by `await` closes no loop, since the walk from the key does not come back. -/
theorem Calm.await {waiting : WaitGraph} (h : graph.Calm)
    (hawait : graph.await me key = .ok waiting) : waiting.Calm := by
  obtain ⟨hnone, rfl⟩ := await_eq_ok_iff.1 hawait
  have hnot : ¬ graph.Meets me key := by
    rw [← chainTo_isSome_iff, hnone]
    exact Bool.false_ne_true
  have hother (a b : ThreadId) (ha : a ≠ me)
      (hab : WaitsFor { graph with awaiting := graph.awaiting.insert me key } a b) :
      graph.WaitsFor a b := by
    obtain ⟨next, hawaits, hnext⟩ := hab
    have hne : me ≠ a := fun e => ha e.symm
    exact ⟨next, by rwa [Table.get?_insert_of_ne _ _ hne] at hawaits, hnext⟩
  -- first the threads that do not come to wait for `me`, then `me`, then all
  have hapart (a : ThreadId) (ha : ¬ Relation.ReflTransGen graph.WaitsFor a me) :
      Acc (fun b a => WaitsFor { graph with awaiting := graph.awaiting.insert me key } a b) a := by
    induction h.apply a with
    | intro a _ ih =>
      refine ⟨a, fun b hab => ?_⟩
      have hne : a ≠ me := fun e => ha (e ▸ .refl)
      have hold : graph.WaitsFor a b := hother a b hne hab
      exact ih b hold fun hb => ha (.head hold hb)
  have hself :
      Acc (fun b a => WaitsFor { graph with awaiting := graph.awaiting.insert me key } a b) me := by
    refine ⟨me, fun b hab => hapart b fun hb => ?_⟩
    obtain ⟨next, hawaits, hnext⟩ := hab
    rw [Table.get?_insert_self] at hawaits
    cases hawaits
    exact hnot (meets_of_waitsFor hnext hb)
  refine ⟨fun a => ?_⟩
  induction h.apply a with
  | intro a _ ih =>
    by_cases ha : a = me
    · rw [ha]
      exact hself
    · exact ⟨a, fun b hab => ih b (hother a b ha hab)⟩

/-- Whoever now comes to wait for `me` by `startProducing` waits for a thread that does not wait. -/
theorem Calm.startProducing (h : graph.Calm) (me : ThreadId) (key : Key) :
    (graph.startProducing me key).Calm := by
  have hsplit (a b : ThreadId) (hab : (graph.startProducing me key).WaitsFor a b) :
      a ≠ me ∧ (b = me ∨ graph.WaitsFor a b) := by
    obtain ⟨next, hawaits, hnext⟩ := hab
    rw [WaitGraph.startProducing, Table.get?_erase] at hawaits
    rw [WaitGraph.startProducing, Table.get?_insert] at hnext
    have hne : me ≠ a := by
      rintro rfl
      simp at hawaits
    rw [if_neg hne] at hawaits
    refine ⟨fun e => hne e.symm, ?_⟩
    by_cases heq : key = next
    · rw [if_pos heq] at hnext
      exact .inl (Option.some.inj hnext).symm
    · rw [if_neg heq] at hnext
      exact .inr ⟨next, hawaits, hnext⟩
  have hself : Acc (fun b a => (graph.startProducing me key).WaitsFor a b) me :=
    ⟨me, fun b hab => absurd rfl (hsplit me b hab).1⟩
  refine ⟨fun a => ?_⟩
  induction h.apply a with
  | intro a _ ih =>
    refine ⟨a, fun b hab => ?_⟩
    rcases (hsplit a b hab).2 with rfl | hold
    · exact hself
    · exact ih b hold

theorem Calm.mono {other : WaitGraph} (h : graph.Calm)
    (hsub : ∀ a b, other.WaitsFor a b → graph.WaitsFor a b) : other.Calm :=
  Subrelation.wf (fun {b a} hab => hsub a b hab) h

theorem Calm.stopProducing (h : graph.Calm) (key : Key) : (graph.stopProducing key).Calm := by
  refine h.mono ?_
  rintro a b ⟨next, hawaits, hnext⟩
  rw [WaitGraph.stopProducing, Table.get?_erase] at hnext
  split at hnext
  · cases hnext
  · exact ⟨next, hawaits, hnext⟩

theorem Calm.stopAwaiting (h : graph.Calm) (me : ThreadId) (key : Key) :
    (graph.stopAwaiting me key).Calm := by
  rw [WaitGraph.stopAwaiting]
  split
  · refine h.mono ?_
    rintro a b ⟨next, hawaits, hnext⟩
    rw [Table.get?_erase] at hawaits
    split at hawaits
    · cases hawaits
    · exact ⟨next, hawaits, hnext⟩
  · exact h

end Wiring.WaitGraph
