import Mathlib.Data.List.Induction
import Wiring.Proofs.Reentry

/-!
# What a graph of waits knows of the productions

Threads wait for keys and produce under keys, in any order, and each of them ends what it began
(`Guarded.step`). The graph names at most one producer of a key, and the end of a production takes
that name out, whoever it names. Several threads may produce under one key at once, since a key gets
a new wrapper while the factory of the old one still runs. Then the graph goes by the last beginning
or end of a production under the key (`Guarded.producing_of_play`): a thread it names does produce
the key, but while it names nobody there may be a thread that does. It is right throughout if
productions under one key never overlap (`Guarded.Apart`).

* **`Guarded.FollowsLast`** — what the graph says of a key after a history; `FollowsLast.step` is
  one deed.
* **`Guarded.Overlooked`** — a production that goes on unnamed, since another of the same key ended
  last.
* **`not_mirrors`** — a wrapper that is replaced while its factory runs leads there.
-/

namespace Wiring

/-- What a thread does to a `WaitGraph`. -/
inductive Deed where
  | await (me : ThreadId) (key : Key)
  | startProducing (me : ThreadId) (key : Key)
  /-- A production that `me` began under the key ends, by `WaitGraph.stopProducing`. -/
  | stopProducing (me : ThreadId) (key : Key)
  /-- A wait of `me` for the key ends, by `WaitGraph.stopAwaiting`. -/
  | stopAwaiting (me : ThreadId) (key : Key)

/-- The deed begins or ends a production under the key, by `startProducing` or `stopProducing`. -/
inductive Deed.Produces (key : Key) : Deed → Prop
  | start (me : ThreadId) : Produces key (.startProducing me key)
  | stop (me : ThreadId) : Produces key (.stopProducing me key)

/-- A `WaitGraph` beside the productions and the waits that are going on. -/
structure Guarded where
  graph : WaitGraph := {}
  producers : List (ThreadId × Key) := []
  waiters : List (ThreadId × Key) := []

namespace Guarded

/-- The state after a `Deed`. A thread ends nothing that it has not begun, and a wait that is
refused does not begin. -/
def step (s : Guarded) : Deed → Option Guarded
  | .await me key =>
    match s.graph.await me key with
    | .error _ => some s
    | .ok graph => some { s with graph, waiters := (me, key) :: s.waiters }
  | .startProducing me key =>
    some { s with graph := s.graph.startProducing me key, producers := (me, key) :: s.producers }
  | .stopProducing me key =>
    if (me, key) ∈ s.producers then
      some { s with graph := s.graph.stopProducing key, producers := s.producers.erase (me, key) }
    else none
  | .stopAwaiting me key =>
    if (me, key) ∈ s.waiters then
      some { s with graph := s.graph.stopAwaiting me key, waiters := s.waiters.erase (me, key) }
    else none

/-- The state that deeds lead to, by one `step` after the other, from a graph without waits and
productions. -/
def play (deeds : List Deed) : Option Guarded :=
  deeds.foldlM step {}

/-- The graph names a producer of a key just while somebody is among its `producers`, and then one
who is. -/
def Mirrors (s : Guarded) : Prop :=
  ∀ key,
    ((∃ me, s.graph.producing.get? key = some me) ↔ ∃ me, (me, key) ∈ s.producers) ∧
      ∀ me, s.graph.producing.get? key = some me → (me, key) ∈ s.producers

variable {ρ σ π : Type} {s t : Guarded} {deed : Deed} {deeds : List Deed} {me : ThreadId} {key : Key}

theorem play_concat :
    play (deeds ++ [deed]) = some t ↔ ∃ s, play deeds = some s ∧ s.step deed = some t := by
  unfold play
  rw [List.foldlM_append]
  simp [Option.bind_eq_some_iff]

/-! ### What one deed does -/

theorem step_start (h : s.step (.startProducing me key) = some t) :
    t.graph.producing = s.graph.producing.insert key me ∧ t.producers = (me, key) :: s.producers := by
  cases h
  exact ⟨rfl, rfl⟩

theorem step_stop (h : s.step (.stopProducing me key) = some t) :
    (me, key) ∈ s.producers ∧ t.graph.producing = s.graph.producing.erase key ∧
      t.producers = s.producers.erase (me, key) := by
  simp only [step] at h
  split at h
  case isTrue hlive =>
    cases h
    exact ⟨hlive, rfl, rfl⟩
  case isFalse => cases h

/-- A wait changes nothing about who produces, neither the graph nor the `producers`. -/
theorem step_wait (h : s.step deed = some t) (hwait : ∀ key, ¬ deed.Produces key) :
    t.graph.producing = s.graph.producing ∧ t.producers = s.producers := by
  cases deed with
  | startProducing me key => exact absurd (.start me) (hwait key)
  | stopProducing me key => exact absurd (.stop me) (hwait key)
  | await me key =>
    simp only [step] at h
    split at h
    case h_1 =>
      cases h
      exact ⟨rfl, rfl⟩
    case h_2 graph hgraph =>
      cases h
      obtain ⟨_, rfl⟩ := WaitGraph.await_eq_ok_iff.1 hgraph
      exact ⟨rfl, rfl⟩
  | stopAwaiting me key =>
    simp only [step] at h
    split at h
    case isTrue =>
      cases h
      refine ⟨?_, rfl⟩
      show (s.graph.stopAwaiting me key).producing = _
      unfold WaitGraph.stopAwaiting
      split <;> rfl
    case isFalse => cases h

/-- What is done about other keys, by `Deed.Produces`, changes neither the name under a key nor who
produces it. -/
theorem step_of_not_produces (h : s.step deed = some t) (hother : ¬ deed.Produces key) :
    t.graph.producing.get? key = s.graph.producing.get? key ∧
      ∀ me, (me, key) ∈ t.producers ↔ (me, key) ∈ s.producers := by
  cases deed with
  | startProducing you other =>
    have hne : other ≠ key := fun heq => hother (heq ▸ .start you)
    obtain ⟨hgraph, hlive⟩ := step_start h
    rw [hgraph, hlive, Table.get?_insert_of_ne _ _ hne]
    refine ⟨rfl, fun me => ?_⟩
    simp [Ne.symm hne]
  | stopProducing you other =>
    have hne : other ≠ key := fun heq => hother (heq ▸ .stop you)
    obtain ⟨_, hgraph, hlive⟩ := step_stop h
    rw [hgraph, hlive, Table.get?_erase]
    refine ⟨by simp [hne], fun me => List.mem_erase_of_ne ?_⟩
    simp [Ne.symm hne]
  | await you other =>
    obtain ⟨hgraph, hlive⟩ := step_wait h (by intro key h; cases h)
    simp [hgraph, hlive]
  | stopAwaiting you other =>
    obtain ⟨hgraph, hlive⟩ := step_wait h (by intro key h; cases h)
    simp [hgraph, hlive]

/-! ### What a history of deeds leads to -/

/-- The deed is the last of those that begin or end a production under the key by
`Deed.Produces`. -/
def Last (key : Key) (deed : Deed) (deeds : List Deed) : Prop :=
  ∃ earlier later, deeds = earlier ++ deed :: later ∧ deed.Produces key ∧
    ∀ other ∈ later, ¬ other.Produces key

theorem last_concat_self (h : deed.Produces key) {other : Deed} :
    Last key other (deeds ++ [deed]) ↔ other = deed := by
  constructor
  · rintro ⟨earlier, later, heq, _, hquiet⟩
    cases later using List.reverseRecOn with
    | nil => exact (List.cons.inj (List.append_inj' heq rfl).2).1.symm
    | append_singleton later last _ =>
      rw [← List.cons_append, ← List.append_assoc] at heq
      obtain rfl : deed = last := (List.cons.inj (List.append_inj' heq rfl).2).1
      exact absurd h (hquiet _ (by simp))
  · rintro rfl
    exact ⟨deeds, [], rfl, h, fun _ hother => nomatch hother⟩

theorem last_concat (h : ¬ deed.Produces key) {other : Deed} :
    Last key other (deeds ++ [deed]) ↔ Last key other deeds := by
  constructor
  · rintro ⟨earlier, later, heq, hother, hquiet⟩
    cases later using List.reverseRecOn with
    | nil =>
      obtain rfl : deed = other := (List.cons.inj (List.append_inj' heq rfl).2).1
      exact absurd hother h
    | append_singleton later last _ =>
      rw [← List.cons_append, ← List.append_assoc] at heq
      exact ⟨earlier, later, (List.append_inj' heq rfl).1, hother,
        fun d hd => hquiet d (List.mem_append_left _ hd)⟩
  · rintro ⟨earlier, later, rfl, hother, hquiet⟩
    refine ⟨earlier, later ++ [deed], by simp, hother, fun d hd => ?_⟩
    rcases List.mem_append.1 hd with hd | hd
    · exact hquiet d hd
    · rwa [List.mem_singleton.1 hd]

/-- What the graph says of a key is told by the `Last` deed about its production. -/
structure FollowsLast (deeds : List Deed) (s : Guarded) (key : Key) : Prop where
  named : ∀ me, s.graph.producing.get? key = some me ↔ Last key (.startProducing me key) deeds
  live : ∀ me, s.graph.producing.get? key = some me → (me, key) ∈ s.producers
  unnamed : ∀ me, (me, key) ∈ s.producers →
    (s.graph.producing.get? key = none ↔ ∃ you, Last key (.stopProducing you key) deeds)

theorem followsLast_nil : FollowsLast [] {} key := by
  have hnone (deed : Deed) : ¬ Last key deed [] := by
    rintro ⟨earlier, later, heq, _⟩
    simp at heq
  exact {
    named := fun me => iff_of_false nofun (hnone _)
    live := nofun
    unnamed := nofun }

/-- One `step` keeps it: a production that begins puts its thread in, one that ends leaves no
name. -/
theorem FollowsLast.step (h : FollowsLast deeds s key) (hstep : s.step deed = some t) :
    FollowsLast (deeds ++ [deed]) t key := by
  by_cases hdeed : deed.Produces key
  · cases hdeed with
    | start me =>
      obtain ⟨hgraph, hlive⟩ := step_start hstep
      have hlast (other : Deed) : Last key other (deeds ++ [.startProducing me key]) ↔
          other = .startProducing me key := last_concat_self (.start me)
      have hname : t.graph.producing.get? key = some me := by
        rw [hgraph, Table.get?_insert_self]
      refine ⟨fun you => ?named, fun you hyou => ?live, fun you _ => ?unnamed⟩
      case named =>
        rw [hname, hlast]
        simp [eq_comm]
      case live =>
        rw [hname] at hyou
        cases hyou
        rw [hlive]
        exact List.mem_cons_self
      case unnamed =>
        rw [hname]
        simp [hlast]
    | stop me =>
      obtain ⟨_, hgraph, _⟩ := step_stop hstep
      have hlast (other : Deed) : Last key other (deeds ++ [.stopProducing me key]) ↔
          other = .stopProducing me key := last_concat_self (.stop me)
      have hname : t.graph.producing.get? key = none := by
        rw [hgraph, Table.get?_erase, if_pos rfl]
      refine ⟨fun you => ?named, fun you hyou => ?live, fun you _ => ?unnamed⟩
      case named =>
        rw [hname, hlast]
        simp
      case live =>
        rw [hname] at hyou
        cases hyou
      case unnamed =>
        rw [hname]
        simp [hlast]
  -- any other deed leaves the name as it was, and what was done last about the key
  · obtain ⟨hgraph, hlive⟩ := step_of_not_produces hstep hdeed
    refine ⟨fun me => ?named, fun me hme => ?live, fun me hme => ?unnamed⟩
    case named =>
      rw [hgraph, last_concat hdeed]
      exact h.named me
    case live =>
      rw [hgraph] at hme
      exact (hlive me).2 (h.live me hme)
    case unnamed =>
      rw [hgraph, h.unnamed me ((hlive me).1 hme)]
      exact exists_congr fun you => (last_concat hdeed).symm

theorem followsLast_of_play (h : play deeds = some s) : FollowsLast deeds s key := by
  induction deeds using List.reverseRecOn generalizing s with
  | nil =>
    cases h
    exact followsLast_nil
  | append_singleton deeds deed ih =>
    obtain ⟨before, hbefore, hstep⟩ := play_concat.1 h
    exact (ih hbefore).step hstep

/-! ### Productions that overlap -/

/-- At no time of the history, as `play` tells it, are there two productions under one key. -/
def Apart (deeds : List Deed) : Prop :=
  ∀ earlier s, earlier <+: deeds → play earlier = some s → (s.producers.map (·.2)).Nodup

/-- While nothing is done about a key by `Deed.Produces`, whoever produces it goes on. -/
theorem producers_of_quiet {earlier later : List Deed} (h : play (earlier ++ later) = some t)
    (hquiet : ∀ deed ∈ later, ¬ deed.Produces key) :
    ∃ s, play earlier = some s ∧ ∀ me, (me, key) ∈ t.producers ↔ (me, key) ∈ s.producers := by
  induction later using List.reverseRecOn generalizing t with
  | nil => exact ⟨t, by simpa using h, fun _ => Iff.rfl⟩
  | append_singleton later deed ih =>
    rw [← List.append_assoc] at h
    obtain ⟨before, hbefore, hstep⟩ := play_concat.1 h
    obtain ⟨s, hs, hlive⟩ := ih hbefore fun d hd => hquiet d (List.mem_append_left _ hd)
    have hdeed : ¬ deed.Produces key := hquiet deed (by simp)
    exact ⟨s, hs, fun me => ((step_of_not_produces hstep hdeed).2 me).trans (hlive me)⟩

/-- Another production of the key ended `Last`, while this one was going on. -/
def Overlooked (deeds : List Deed) (me : ThreadId) (key : Key) : Prop :=
  ∃ earlier you later before, deeds = earlier ++ .stopProducing you key :: later ∧
    (∀ deed ∈ later, ¬ deed.Produces key) ∧ play earlier = some before ∧
    (you, key) ∈ before.producers ∧ (me, key) ∈ before.producers.erase (you, key)

theorem get?_eq_none_iff_overlooked (h : play deeds = some s) (hlive : (me, key) ∈ s.producers) :
    s.graph.producing.get? key = none ↔ Overlooked deeds me key := by
  rw [(followsLast_of_play h).unnamed me hlive]
  constructor
  · rintro ⟨you, earlier, later, rfl, _, hquiet⟩
    rw [← List.singleton_append, ← List.append_assoc] at h
    obtain ⟨after, hafter, hkept⟩ := producers_of_quiet h hquiet
    obtain ⟨before, hbefore, hstep⟩ := play_concat.1 hafter
    obtain ⟨hyou, _, hproducers⟩ := step_stop hstep
    exact ⟨earlier, you, later, before, rfl, hquiet, hbefore, hyou, hproducers ▸ (hkept me).1 hlive⟩
  · rintro ⟨earlier, you, later, before, hdeeds, hquiet, _⟩
    exact ⟨you, earlier, later, hdeeds, .stop you, hquiet⟩

theorem not_overlooked_of_apart (h : Apart deeds) : ¬ Overlooked deeds me key := by
  rintro ⟨earlier, you, later, before, rfl, _, hbefore, hyou, hstays⟩
  -- both productions are going on just before the end of the one
  have hnodup := h earlier before (List.prefix_append _ _) hbefore
  rw [((List.perm_cons_erase hyou).map (·.2)).nodup_iff] at hnodup
  have hmem : key ∈ (before.producers.erase (you, key)).map (·.2) := List.mem_map_of_mem hstays
  exact (List.nodup_cons.1 hnodup).1 hmem

theorem mirrors_of_apart (h : play deeds = some s) (hapart : Apart deeds) : s.Mirrors := by
  intro key
  have hlive : ∀ me, s.graph.producing.get? key = some me → (me, key) ∈ s.producers :=
    (followsLast_of_play h).live
  refine ⟨⟨fun ⟨me, hme⟩ => ⟨me, hlive me hme⟩, fun ⟨me, hme⟩ => ?_⟩, hlive⟩
  apply Option.ne_none_iff_exists'.1
  intro hnone
  exact not_overlooked_of_apart hapart ((get?_eq_none_iff_overlooked h hme).1 hnone)

/-- The graph names the thread whose production under the key began `Last`, until any production
under it ends. So a thread that is named does produce the key, one that produces goes unnamed just
while it is `Overlooked`, after the end of another production of the same key, and nothing of this
happens where productions stay `Apart`. -/
theorem producing_of_play (h : play deeds = some s) :
    (∀ key me, s.graph.producing.get? key = some me ↔ Last key (.startProducing me key) deeds) ∧
      (∀ key me, s.graph.producing.get? key = some me → (me, key) ∈ s.producers) ∧
      (∀ key me, (me, key) ∈ s.producers →
        (s.graph.producing.get? key = none ↔ Overlooked deeds me key)) ∧
      (Apart deeds → s.Mirrors) :=
  ⟨fun _ => (followsLast_of_play h).named, fun _ => (followsLast_of_play h).live,
    fun _ _ => get?_eq_none_iff_overlooked h, mirrors_of_apart h⟩

/-! ### A wrapper that is replaced while its factory runs -/

/-- Whenever something is asked, the productions of all delegates at work, by `Moment.inProgress`,
have a name in the waits. -/
def NamesAll (moments : List (Moment ρ σ π)) : Prop :=
  ∀ {earlier request v later}, moments = earlier ++ .asked request v :: later →
    ∀ {id slot key}, (id, slot, key) ∈ Frame.makings (Moment.inProgress [] earlier) →
      ∃ me, (v.injector id).waits.producing.get? key = some me

def shared : Key := ⟨.plain "Replaced", some (.text "shared")⟩

/-- Two threads produce under one key, and the second comes to an end. -/
def overlapping : List Deed :=
  [.await 0 shared, .startProducing 0 shared, .await 1 shared, .startProducing 1 shared,
    .stopProducing 1 shared, .stopAwaiting 1 shared]

/-- The first thread of `overlapping` still produces, and the graph names nobody. -/
theorem play_overlapping :
    ∃ s, play overlapping = some s ∧ (0, shared) ∈ s.producers ∧
      s.graph.producing.get? shared = none := by
  have hany : (play overlapping).any (fun s => (0, shared) ∈ s.producers ∧
      s.graph.producing.get? shared = none) = true := by decide +kernel
  cases hs : play overlapping with
  | none =>
    rw [hs] at hany
    cases hany
  | some s =>
    rw [hs] at hany
    exact ⟨s, rfl, by simpa using hany⟩

theorem producing_of_play_overlapping :
    ∃ s, play overlapping = some s ∧ (0, shared) ∈ s.producers ∧ Overlooked overlapping 0 shared ∧
      ¬ Apart overlapping := by
  obtain ⟨s, hs, hlive, hnone⟩ := play_overlapping
  obtain ⟨_, _, hoverlooked, hmirrors⟩ := producing_of_play hs
  refine ⟨s, hs, hlive, (hoverlooked shared 0 hlive).1 hnone, fun hapart => ?_⟩
  obtain ⟨me, hme⟩ := (hmirrors hapart shared).1.2 ⟨0, hlive⟩
  rw [hnone] at hme
  cases hme

/-- The factory shuts its injector down and has another thread resolve the key, which the new
wrapper makes; then it looks at the injector. The other thread only makes an object. -/
def replacedHost : Host Unit Bool Unit where
  make _ id := do
    let first : Bool ← Code.act .recall
    if first then
      let _ ← Code.act (.remember false)
      let _ ← Code.act (.shutDown id)
      let _ ← Code.send (.resolveApart id shared)
      let _ ← Code.act (.inspect id)
    return .ok (← Code.act (.allocate (.plain ())))
  stage _ _ object := pure (.ok object)
  hook _ _ _ := pure (.ok ())
  kind _ := default
  imports _ := []
  configure _ _ := pure (.ok ())

def replacedCode : Code Unit Bool Unit Unit := do
  let id ← Code.act .newInjector
  let _ ← Code.act (.bind id shared (.factory (.plain "Replaced") ()) .singleton)
  let _ ← Code.send (.resolve id shared)

def replacedCourse : List (Moment Unit Bool Unit) :=
  replacedHost.course 12 replacedCode { memory := true }

/-- Whom the first injector's waits name for the key `shared` when something is asked. -/
def named? : Moment ρ σ π → Option (Option ThreadId)
  | .asked _ v => some ((v.injector ⟨0⟩).waits.producing.get? shared)
  | _ => none

theorem eq_of_named? {m : Moment ρ σ π} {name : Option ThreadId} (h : named? m = some name) :
    ∃ request v, m = .asked request v ∧ (v.injector ⟨0⟩).waits.producing.get? shared = name := by
  cases m with
  | asked request v =>
    cases h
    exact ⟨request, v, rfl, rfl⟩
  | _ => cases h

/-- When the factory of `replacedHost` looks at its injector, its own production has no name there,
and not every history of deeds leads to a state that `Mirrors` who produces. -/
theorem not_mirrors :
    (¬ ∀ deeds s, play deeds = some s → s.Mirrors) ∧ ¬ NamesAll replacedCourse := by
  constructor
  · intro hmirrors
    obtain ⟨s, hs, hlive, hnone⟩ := play_overlapping
    obtain ⟨me, hme⟩ := (hmirrors _ _ hs shared).1.2 ⟨0, hlive⟩
    rw [hnone] at hme
    cases hme
  · intro hnames
    have hlook : (replacedCourse.drop 16).head?.bind named? = some none := by decide +kernel
    have hmaking : (⟨0⟩, ⟨0⟩, shared) ∈
        Frame.makings (Moment.inProgress [] (replacedCourse.take 16)) := by decide +kernel
    have hcourse := (List.take_append_drop 16 replacedCourse).symm
    generalize replacedCourse.take 16 = earlier at hmaking hcourse
    cases hdrop : replacedCourse.drop 16 with
    | nil =>
      rw [hdrop] at hlook
      cases hlook
    | cons m later =>
      rw [hdrop] at hlook hcourse
      obtain ⟨request, v, rfl, hnone⟩ := eq_of_named? hlook
      obtain ⟨me, hme⟩ := hnames hcourse hmaking
      rw [hnone] at hme
      cases hme

end Guarded

end Wiring
