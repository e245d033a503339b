import Mathlib.Data.List.Chain
import Wiring.Proofs.WaitWalk
import Wiring.World

/-!
# Which waits are refused

A thread that is about to wait for a key follows the waits of the others from that key, by
`WaitGraph.chainTo`. The search takes one turn for each key that it comes to, and no more turns than
there are threads that wait (`WaitGraph.search_chainTo`), also where the others wait for each other
in a loop. It decides whether the walk comes to a key that the thread itself produces: if it does,
the keys on the way are a chain of waits that leads from the key to the thread (`WaitGraph.Closes`),
and the wait is refused with that chain. If not, the wait is put on record, and nothing else changes
(`World.awaitKey_decides`).

* **`WaitGraph.Search`** — the turns of the search, one rule for each way to go on or to end.
* **`World.Awaits`** — what a wait that is let through changes: the one entry of its thread.
-/

namespace Wiring

namespace WaitGraph

variable {graph : WaitGraph} {me : ThreadId} {key : Key}

/-! ### How long the search takes -/

/-- The search of `chainTo` that has come to `current` by way of `chain` ends with `found` after so
many turns. -/
inductive Search (graph : WaitGraph) (me : ThreadId) :
    Nat → List Key → Key → Option (List Key) → Prop
  | unproduced {chain : List Key} {current : Key} (h : graph.producing.get? current = none) :
      Search graph me 1 chain current none
  | arrived {chain : List Key} {current : Key} (h : graph.producing.get? current = some me) :
      Search graph me 1 chain current (some chain)
  | idle {chain : List Key} {current : Key} {producer : ThreadId}
      (h : graph.producing.get? current = some producer) (hother : producer ≠ me)
      (hidle : graph.awaiting.get? producer = none) : Search graph me 1 chain current none
  | again {chain : List Key} {current next : Key} (h : graph.Leads current next) (hseen : next ∈ chain) :
      Search graph me 1 chain current none
  | on {turns : Nat} {chain : List Key} {current next : Key} {found : Option (List Key)}
      (h : graph.Leads current next) (hnew : next ∉ chain)
      (hrest : Search graph me turns (chain ++ [next]) next found) :
      Search graph me (turns + 1) chain current found

/-- With each turn of `Search` but the last, one of the keys that are waited for is used up. -/
theorem search_chainTo (chain : List Key) (current : Key) :
    ∃ turns ≤ (graph.awaiting.values.filter (· ∉ chain)).length + 1,
      graph.Search me turns chain current (graph.chainTo me chain current) := by
  fun_induction chainTo graph me chain current with
  | case1 chain current hnone => exact ⟨1, Nat.le_add_left 1 _, .unproduced hnone⟩
  | case2 chain current hmine => exact ⟨1, Nat.le_add_left 1 _, .arrived hmine⟩
  | case3 chain current producer hproducer hother hidle =>
    exact ⟨1, Nat.le_add_left 1 _, .idle hproducer hother hidle⟩
  | case4 chain current producer hproducer _ next hnext hseen =>
    exact ⟨1, Nat.le_add_left 1 _, .again ⟨producer, hproducer, hnext⟩ hseen⟩
  | case5 chain current producer hproducer _ next hnext hnew ih =>
    obtain ⟨turns, hturns, hsearch⟩ := ih
    refine ⟨turns + 1, ?_, .on ⟨producer, hproducer, hnext⟩ hnew hsearch⟩
    have hless := length_filter_lt (Table.mem_values_of_get? hnext) hnew
    omega

/-! ### What the search finds -/

/-- By way of `chain` the waits lead from `key` to `me`, by `Leads`: the producer of each of its
keys waits for the next one, and `me` produces the last. -/
structure Closes (graph : WaitGraph) (me : ThreadId) (key : Key) (chain : List Key) : Prop where
  starts : chain.head? = some key
  distinct : chain.Nodup
  leads : chain.IsChain graph.Leads
  ends : ∃ last, chain.getLast? = some last ∧ graph.producing.get? last = some me

theorem closes_of_chainTo {chain found : List Key} {current : Key} (hstarts : chain.head? = some key)
    (hdistinct : chain.Nodup) (hleads : chain.IsChain graph.Leads)
    (hcurrent : chain.getLast? = some current) (h : graph.chainTo me chain current = some found) :
    graph.Closes me key found := by
  fun_induction chainTo graph me chain current with
  | case1 => cases h
  | case2 chain current hmine =>
    cases h
    exact ⟨hstarts, hdistinct, hleads, current, hcurrent, hmine⟩
  | case3 => cases h
  | case4 => cases h
  | case5 chain current producer hproducer _ next hnext hnew ih =>
    have hlead : graph.Leads current next := ⟨producer, hproducer, hnext⟩
    refine ih ?_ ?_ ?_ (by simp) h
    · rw [List.head?_append, hstarts]
      rfl
    · rw [List.nodup_append]
      exact ⟨hdistinct, by simp, fun a ha b hb e => hnew (List.mem_singleton.1 hb ▸ e ▸ ha)⟩
    · refine List.isChain_append.2 ⟨hleads, .singleton next, fun last hlast first hfirst => ?_⟩
      rw [hcurrent] at hlast
      cases hlast
      cases hfirst
      exact hlead

theorem closes_of_await {fault : Fault} (h : graph.await me key = .error fault) :
    ∃ chain, graph.Closes me key chain ∧ fault = .cyclicBinding (chain ++ [key]) := by
  obtain ⟨chain, hchain, rfl⟩ := await_eq_error_iff.1 h
  have hcloses := closes_of_chainTo rfl (by simp) (List.isChain_singleton key) rfl hchain
  exact ⟨chain, hcloses, rfl⟩

/-- A wait is refused by `await` just if the walk from its key `Meets` the thread that is to
wait. -/
theorem await_eq_error_iff_meets : (∃ fault, graph.await me key = .error fault) ↔ graph.Meets me key := by
  rw [← chainTo_isSome_iff, Option.isSome_iff_exists]
  constructor
  · rintro ⟨fault, h⟩
    obtain ⟨chain, hchain, -⟩ := await_eq_error_iff.1 h
    exact ⟨chain, hchain⟩
  · rintro ⟨chain, hchain⟩
    exact ⟨_, await_eq_error_iff.2 ⟨chain, hchain, rfl⟩⟩

end WaitGraph

namespace World

variable {ρ σ π : Type} {w : World ρ σ π} {id : InjectorId} {key : Key}

theorem awaitKey_cases (w : World ρ σ π) (id : InjectorId) (key : Key) :
    (∃ fault, (w.injector id).waits.await w.thread key = .error fault ∧ w.awaitKey id key = w.raise fault) ∨
      ∃ waits, (w.injector id).waits.await w.thread key = .ok waits ∧
        w.awaitKey id key = (.ok (), w.setWaits id waits) := by
  unfold awaitKey
  cases (w.injector id).waits.await w.thread key with
  | error fault => exact .inl ⟨fault, rfl, rfl⟩
  | ok waits => exact .inr ⟨waits, rfl, rfl⟩

/-- A wait that has been let through is on record in `awaiting`, and all else is as it was. -/
structure Awaits (w : World ρ σ π) (id : InjectorId) (key : Key) (after : World ρ σ π) : Prop where
  rest : after = w.setWaits id (after.injector id).waits
  producing : (after.injector id).waits.producing = (w.injector id).waits.producing
  awaiting : ∀ thread, (after.injector id).waits.awaiting.get? thread =
    if thread = w.thread then some key else (w.injector id).waits.awaiting.get? thread

theorem awaits_of_await (hid : id.index < w.injectors.size) {waits : WaitGraph}
    (h : (w.injector id).waits.await w.thread key = .ok waits) : w.Awaits id key (w.setWaits id waits) := by
  obtain ⟨-, rfl⟩ := WaitGraph.await_eq_ok_iff.1 h
  have hwaits (waits : WaitGraph) : ((w.setWaits id waits).injector id).waits = waits := by
    rw [setWaits, injector_modifyInjector_self w _ hid]
  refine ⟨by rw [hwaits], by rw [hwaits], fun thread => ?_⟩
  rw [hwaits, Table.get?_insert]
  by_cases hthread : w.thread = thread
  · simp [hthread]
  · have hne : ¬ thread = w.thread := fun e => hthread e.symm
    simp [hthread, hne]

/-- Whatever is on record of an injector's productions and waits, the `Search` of a thread that is
about to wait for a key comes to an end. The wait is refused just if the walk from the key `Meets`
the thread. The fault tells how, and the waits stay as they are; else the thread waits for the key
by `Awaits`, and that is all that changes. -/
theorem awaitKey_decides (w : World ρ σ π) {id : InjectorId} (hid : id.index < w.injectors.size)
    (key : Key) :
    let graph := (w.injector id).waits
    (∃ turns ≤ graph.awaiting.size + 1,
      graph.Search w.thread turns [key] key (graph.chainTo w.thread [key] key)) ∧
    ((∃ fault, fault.kind = .cyclicBinding ∧ (w.awaitKey id key).1 = .error fault) ↔
      graph.Meets w.thread key) ∧
    (∀ fault after, w.awaitKey id key = (.error fault, after) → after = w.note (.fault fault) ∧
      ∃ chain, graph.Closes w.thread key chain ∧ fault = .cyclicBinding (chain ++ [key])) ∧
    ∀ after, w.awaitKey id key = (.ok (), after) → w.Awaits id key after := by
  intro graph
  refine ⟨?_, ?_, ?_, ?_⟩
  · obtain ⟨turns, hturns, hsearch⟩ :
        ∃ turns ≤ _ + 1, graph.Search w.thread turns [key] key _ := WaitGraph.search_chainTo [key] key
    have hfilter : (graph.awaiting.values.filter (· ∉ [key])).length ≤ graph.awaiting.values.length :=
      List.length_filter_le _ _
    have hsize : graph.awaiting.values.length = graph.awaiting.size := List.length_map _
    exact ⟨turns, by omega, hsearch⟩
  · rw [← WaitGraph.await_eq_error_iff_meets]
    rcases w.awaitKey_cases id key with ⟨fault, hawait, hraise⟩ | ⟨waits, hawait, hgranted⟩
    · obtain ⟨chain, -, rfl⟩ := WaitGraph.closes_of_await hawait
      rw [hraise]
      exact ⟨fun _ => ⟨_, hawait⟩, fun _ => ⟨_, rfl, rfl⟩⟩
    · rw [hgranted]
      constructor
      · rintro ⟨_, _, hfault⟩
        cases hfault
      · rintro ⟨_, hfault⟩
        cases hawait.symm.trans hfault
  · intro fault after hfault
    rcases w.awaitKey_cases id key with ⟨_, hawait, hraise⟩ | ⟨_, _, hgranted⟩
    · cases hraise.symm.trans hfault
      exact ⟨rfl, WaitGraph.closes_of_await hawait⟩
    · cases hgranted.symm.trans hfault
  · intro after hok
    rcases w.awaitKey_cases id key with ⟨_, _, hraise⟩ | ⟨waits, hawait, hgranted⟩
    · cases hraise.symm.trans hok
    · cases hgranted.symm.trans hok
      exact awaits_of_await hid hawait

/-! ### Waits beside a loop

Threads 1 and 2 wait for each other. Thread 3 waits for what thread 4 produces, and thread 4 is at work. -/

def ring (name : String) : Key := ⟨.plain "Ring", some (.text name)⟩

def ringWorld : World Unit Unit Unit where
  injectors := #[{
    waits := {
      producing := ⟨[(ring "a", 1), (ring "b", 2), (ring "c", 3), (ring "d", 4)]⟩
      awaiting := ⟨[(1, ring "b"), (2, ring "a"), (3, ring "d")]⟩ } }]
  thread := 4
  threads := 5
  memory := ()

/-- Thread 4 may not wait for thread 3, and may wait for those in the loop of `ringWorld`. -/
theorem awaitKey_decides_of_ring :
    (⟨0⟩ : InjectorId).index < ringWorld.injectors.size ∧
      (ringWorld.awaitKey ⟨0⟩ (ring "c")).1 = .error (.cyclicBinding [ring "c", ring "d", ring "c"]) ∧
      (ringWorld.injector ⟨0⟩).waits.Closes 4 (ring "c") [ring "c", ring "d"] ∧
      ¬ (ringWorld.injector ⟨0⟩).waits.Meets 4 (ring "a") ∧
      ∃ after, ringWorld.awaitKey ⟨0⟩ (ring "a") = (.ok (), after) ∧
        ringWorld.Awaits ⟨0⟩ (ring "a") after := by
  have hid : (⟨0⟩ : InjectorId).index < ringWorld.injectors.size := Nat.zero_lt_one
  obtain ⟨-, -, hrefused, -⟩ := awaitKey_decides ringWorld hid (ring "c")
  obtain ⟨-, hmeets, -, hgranted⟩ := awaitKey_decides ringWorld hid (ring "a")
  have hc : (ringWorld.awaitKey ⟨0⟩ (ring "c")).1 =
      .error (.cyclicBinding [ring "c", ring "d", ring "c"]) := by
    have hfound : (ringWorld.injector ⟨0⟩).waits.chainTo ringWorld.thread [ring "c"] (ring "c") =
        some [ring "c", ring "d"] := by
      rw [WaitGraph.chainTo]
      show WaitGraph.chainTo _ _ [ring "c", ring "d"] (ring "d") = _
      rw [WaitGraph.chainTo]
      rfl
    rw [awaitKey, WaitGraph.await_eq_error_iff.2 ⟨_, hfound, rfl⟩]
    rfl
  have ha : (ringWorld.awaitKey ⟨0⟩ (ring "a")).1 = .ok () := by
    have hlost : (ringWorld.injector ⟨0⟩).waits.chainTo ringWorld.thread [ring "a"] (ring "a") = none := by
      rw [WaitGraph.chainTo]
      show WaitGraph.chainTo _ _ [ring "a", ring "b"] (ring "b") = _
      rw [WaitGraph.chainTo]
      rfl
    rw [awaitKey, WaitGraph.await_eq_ok_iff.2 ⟨hlost, rfl⟩]
  refine ⟨hid, hc, ?_, ?_, ?_⟩
  · obtain ⟨-, chain, hcloses, hfault⟩ := hrefused _ _ (Prod.ext hc rfl)
    have hchain : [ring "c", ring "d"] ++ [ring "c"] = chain ++ [ring "c"] := Fault.cyclicBinding.inj hfault
    rw [List.append_cancel_right hchain]
    exact hcloses
  · intro hmeet
    obtain ⟨fault, -, hfault⟩ := hmeets.2 hmeet
    cases ha.symm.trans hfault
  · exact ⟨_, Prod.ext ha rfl, hgranted _ (Prod.ext ha rfl)⟩

end World

end Wiring
