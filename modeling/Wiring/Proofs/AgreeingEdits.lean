import Wiring.Proofs.LeastOrder
import Wiring.Proofs.OrderingCycles
import Wiring.Proofs.RosterContents

/-!
# Edits that agree with the order

A list is put in order anew whenever it is produced, and what was found before is not looked at.
Still, two kinds of edits leave the order as it was (`agreeing_edits_keep_order`).

A request that the present order keeps already leaves it among the orders that keep all requests. Of
these it was the least by `linearize_least`, and now there are fewer, so it is the least again
(`linearize_of_agreeing`).

A new entry that no request names is ready all the time. But of the nodes that are ready it is the
last, and until all others are placed one of them is ready too, so it comes after them
(`Progress.Tracks.run_of_new_node`).

* **`Roster.keys_of_agreeing`** and **`Roster.keys_of_new_key`** — the two kinds of edits, seen from
  the keys of the list; `Roster.keys_of_order_iff` leads from one to the other.
* **`ListCall.Requests.unique`** — a call asks for one order at most, so the request that is granted
  is the one that the order keeps already.
* **`World.shuffled_playList`** — how the sets of an entry are run through does not matter after a
  history either.
-/

namespace Wiring

namespace Linearize

variable {count : Nat} {edges others : List Edge} {order : List Nat}

/-! ### More edges -/

theorem LinearExtension.ordered (h : LinearExtension count edges order) :
    Ordered (predecessors edges) ∅ order := by
  rintro earlier node later rfl other hneeds
  exact .inr (h.mem_earlier (mem_predecessors.1 hneeds))

/-- Where some order keeps the edges, one is found: by `linearize_topological` they have no cycle
then. -/
theorem LinearExtension.exists_linearize (hw : Within count edges)
    (h : LinearExtension count edges order) : ∃ found, linearize count edges = .ok found := by
  cases hfound : linearize count edges with
  | ok found => exact ⟨found, rfl⟩
  | error cycle =>
    have hcircular := (linearize_error hw).1 ⟨cycle, hfound⟩
    exact absurd hcircular (not_circular_of_ordered hw h.perm h.ordered)

/-- Edges that the order keeps may be added to those for which `linearize` found it, and it is found
again, for it is a `LeastExtension` of the larger set too. -/
theorem linearize_of_agreeing (hw : Within count edges) (hv : Within count others)
    (h : linearize count edges = .ok order) (hkept : ∀ edge ∈ edges, edge ∈ others)
    (hagree : ∀ a b, (a, b) ∈ others → (a, b) ∈ edges ∨ [a, b].Sublist order) :
    linearize count others = .ok order := by
  have hold := linearExtension_of_linearize hw h
  have hstill : LinearExtension count others order :=
    ⟨hold.perm, fun a b hedge => (hagree a b hedge).elim (hold.precedes a b) id⟩
  obtain ⟨found, hfound⟩ := hstill.exists_linearize hv
  -- the order that is found now kept the edges that there were before, too
  have hnew := linearExtension_of_linearize hv hfound
  have hbefore : LinearExtension count edges found :=
    ⟨hnew.perm, fun a b hedge => hnew.precedes a b (hkept (a, b) hedge)⟩
  have hsame : found = order :=
    (lexLe_of_linearize hv hfound hstill).antisymm (lexLe_of_linearize hw h hbefore)
  rw [hfound, hsame]

/-! ### One more node -/

namespace Progress

variable {p q : Progress}

/-- A node that no edge touches is ready besides those that are ready without it, and comes last in
the ready list by `Tracks.mem_ready_iff`. -/
theorem Tracks.ready_of_new_node (hw : Within count edges) (hp : Tracks count edges [] p)
    (hq : Tracks (count + 1) others [] q) (hedges : ∀ edge, edge ∈ others ↔ edge ∈ edges)
    (hplaced : p.placed = q.placed) : q.ready = p.ready ++ [count] := by
  have hlast : (p.ready ++ [count]).Pairwise (· < ·) := by
    refine List.pairwise_append.2 ⟨hp.ascending, List.pairwise_singleton _ _, ?_⟩
    intro node hnode last hlast
    rw [List.mem_singleton.1 hlast]
    exact ((hp.ready node).1 hnode).1
  apply hq.ascending.eq_of_mem_iff hlast
  intro node
  rw [List.mem_append, List.mem_singleton, hq.mem_ready_iff, hp.mem_ready_iff, ← hplaced]
  simp only [hedges]
  by_cases hnode : node = count
  · subst hnode
    have hfresh : node ∉ p.placed := fun hmem => Nat.lt_irrefl _ (hp.settled node hmem).1
    have halone (a : Nat) (hedge : (a, node) ∈ edges) : a ∈ p.placed :=
      absurd (hw a node hedge).2 (Nat.lt_irrefl _)
    exact iff_of_true ⟨Nat.lt_succ_self _, hfresh, halone⟩ (.inr rfl)
  · have hlt : node < count + 1 ↔ node < count := by omega
    rw [hlt, or_iff_left hnode]

/-- As long as other nodes can be placed, a node that no edge touches makes no difference to `run`:
by `Tracks.ready_of_new_node` it is never the first that is ready. -/
theorem Tracks.run_of_new_node (hw : Within count edges) (hv : Within (count + 1) others)
    (hp : Tracks count edges [] p) (hq : Tracks (count + 1) others [] q)
    (hedges : ∀ edge, edge ∈ others ↔ edge ∈ edges) (hplaced : p.placed = q.placed) {steps : Nat}
    (hsteps : (p.run edges steps).placed.length = p.placed.length + steps) :
    (p.run edges steps).placed = (q.run others steps).placed := by
  induction steps generalizing p q with
  | zero => exact hplaced
  | succ steps ih =>
    have hready := hp.ready_of_new_node hw hq hedges hplaced
    unfold Progress.run at hsteps ⊢
    cases hnodes : p.ready with
    | nil =>
      simp only [hnodes] at hsteps
      omega
    | cons node rest =>
      rw [hnodes, List.cons_append] at hready
      simp only [hnodes] at hsteps
      simp only [hready]
      refine ih (hp.place hw hnodes) (hq.place hv hready) ?_ ?_
      · rw [placed_place, placed_place, hplaced]
      · rw [hsteps, placed_place, List.length_append, List.length_singleton, Nat.add_assoc,
          Nat.add_comm 1]

theorem run_of_ready_nil (h : p.ready = []) (steps : Nat) : p.run edges steps = p := by
  cases steps with
  | zero => rfl
  | succ steps =>
    unfold Progress.run
    simp only [h]

theorem run_succ (edges : List Edge) (p : Progress) (steps : Nat) :
    p.run edges (steps + 1) = (p.run edges steps).run edges 1 := by
  induction steps generalizing p with
  | zero => rfl
  | succ steps ih =>
    cases hnodes : p.ready with
    | nil => rw [run_of_ready_nil hnodes, run_of_ready_nil hnodes, run_of_ready_nil hnodes]
    | cons node rest =>
      have hstep (more : Nat) :
          p.run edges (more + 1) = (place edges { p with ready := rest } node).run edges more := by
        rw [Progress.run]
        simp only [hnodes]
      rw [hstep, hstep, ih]

end Progress

theorem linearize_of_new_node (hw : Within count edges) (hedges : ∀ edge, edge ∈ others ↔ edge ∈ edges)
    (h : linearize count edges = .ok order) : linearize (count + 1) others = .ok (order ++ [count]) := by
  have hv : Within (count + 1) others := fun a b hedge =>
    have ⟨ha, hb⟩ := hw a b ((hedges (a, b)).1 hedge)
    ⟨Nat.lt_succ_of_lt ha, Nat.lt_succ_of_lt hb⟩
  have hp := Progress.tracks_start count edges
  have hq := Progress.tracks_start (count + 1) others
  have hextension := linearExtension_of_linearize hw h
  simp only [linearize] at h
  split at h
  case isFalse => cases h
  case isTrue hlength =>
    obtain rfl := Except.ok.inj h
    -- without the last step both have placed the same nodes, which are all but the new one
    have hplaced := hp.run_of_new_node hw hv hq hedges rfl (hlength.trans (Nat.zero_add count).symm)
    have hnone : (Progress.run edges count (.start count edges)).ready = [] := by
      refine List.eq_nil_iff_forall_not_mem.2 fun node hnode => ?_
      obtain ⟨hlt, hfresh, -⟩ := (hp.run hw count).mem_ready_iff.1 hnode
      exact hfresh (hextension.mem_iff.2 hlt)
    have hready := (hp.run hw count).ready_of_new_node hw (hq.run hv count) hedges hplaced
    rw [hnone, List.nil_append] at hready
    have hlast : (Progress.run others (count + 1) (.start (count + 1) others)).placed =
        (Progress.run edges count (.start count edges)).placed ++ [count] := by
      rw [Progress.run_succ, Progress.run, hplaced]
      simp only [hready]
      exact Progress.placed_place others _ count
    simp only [linearize]
    rw [hlast, if_pos (by rw [List.length_append, List.length_singleton, hlength])]

end Linearize

open Linearize

namespace Roster

variable {P : Type} {roster changed : Roster P} {keys : List Key} {key : Key}

/-- The keys in order are those at the positions in order that `linearize` finds for the `edges`. -/
theorem keys_of_order_iff : roster.order.map (·.map (·.key)) = .ok keys ↔
    ∃ positions, linearize roster.size roster.edges = .ok positions ∧
      keys = positions.filterMap (roster.keys[·]?) := by
  unfold order
  cases linearize roster.size roster.edges with
  | error cycle =>
    constructor
    · exact fun h => nomatch h
    · rintro ⟨_, h, -⟩
      cases h
  | ok positions =>
    show Except.ok ((positions.filterMap (roster.entries[·]?)).map (·.key)) = .ok keys ↔ _
    rw [keys_of_positions]
    simp [eq_comm]

/-- Where one key stands before another, so do their positions, as each key stands at one
position. -/
theorem sublist_positions (hnodup : roster.keys.Nodup) {positions : List Nat} {i j : Nat} {a b : Key}
    (ha : roster.keys[i]? = some a) (hb : roster.keys[j]? = some b)
    (hwithin : ∀ position ∈ positions, position < roster.size)
    (h : [a, b].Sublist (positions.filterMap (roster.keys[·]?))) : [i, j].Sublist positions := by
  have hat (position : Nat) (hposition : position ∈ positions) :
      roster.keys[position]? = some (roster.keyAt position) := by
    rw [← length_keys] at hwithin
    rw [keyAt_eq (List.getElem?_eq_getElem (hwithin position hposition)),
      List.getElem?_eq_getElem (hwithin position hposition)]
  have hkeys : positions.filterMap (roster.keys[·]?) = positions.map roster.keyAt := by
    rw [← List.filterMap_eq_map]
    exact List.filterMap_congr hat
  rw [hkeys, List.sublist_map_iff] at h
  obtain ⟨found, hfound, heq⟩ := h
  obtain ⟨x, rest, rfl, hx, hrest⟩ := List.map_eq_cons_iff.1 heq.symm
  obtain ⟨y, rest, rfl, hy, hnil⟩ := List.map_eq_cons_iff.1 hrest
  obtain rfl := List.map_eq_nil_iff.1 hnil
  -- the keys are different, so they stand where they were found
  have hsame {position place : Nat} {name : Key} (hmem : position ∈ positions)
      (hname : roster.keyAt position = name) (hplace : roster.keys[place]? = some name) :
      position = place := by
    have hget := hat position hmem
    exact (List.getElem?_inj (List.getElem?_eq_some_iff.1 hget).1 hnodup).1
      (by rw [hget, hplace, hname])
  obtain rfl := hsame (hfound.subset (by simp)) hx ha
  obtain rfl := hsame (hfound.subset (by simp)) hy hb
  exact hfound

/-- The keys stay in order if all that is asked now by `Roster.Asks` was asked before, or is kept by
the order: `linearize_of_agreeing` in terms of keys. -/
theorem keys_of_agreeing (hnodup : roster.keys.Nodup) (h : roster.order.map (·.map (·.key)) = .ok keys)
    (hkeys : changed.keys = roster.keys) (hkept : ∀ a b, roster.Asks a b → changed.Asks a b)
    (hagree : ∀ a b, changed.Asks a b → roster.Asks a b ∨ [a, b].Sublist keys) :
    changed.order.map (·.map (·.key)) = .ok keys := by
  obtain ⟨positions, hpositions, rfl⟩ := keys_of_order_iff.1 h
  have hwithin := within_edges roster
  have hextension := linearExtension_of_linearize hwithin hpositions
  have hsize : changed.size = roster.size := by rw [← length_keys, ← length_keys, hkeys]
  have hnodup' : changed.keys.Nodup := hkeys ▸ hnodup
  refine keys_of_order_iff.2 ⟨positions, ?_, by rw [hkeys]⟩
  rw [hsize]
  refine linearize_of_agreeing hwithin (hsize ▸ within_edges changed) hpositions ?_ ?_
  · rintro ⟨i, j⟩ hedge
    obtain ⟨a, b, ha, hb, hasked⟩ := (mem_edges hnodup).1 hedge
    exact (mem_edges hnodup').2 ⟨a, b, hkeys ▸ ha, hkeys ▸ hb, hkept a b hasked⟩
  · intro i j hedge
    obtain ⟨a, b, ha, hb, hasked⟩ := (mem_edges hnodup').1 hedge
    rw [hkeys] at ha hb
    refine (hagree a b hasked).imp (fun hold => (mem_edges hnodup).2 ⟨a, b, ha, hb, hold⟩) ?_
    exact sublist_positions hnodup ha hb fun position hposition => hextension.mem_iff.1 hposition

/-- A key that comes last, of which nothing is asked, stands last in the order:
`Tracks.run_of_new_node` in terms of keys. -/
theorem keys_of_new_key (hnodup : changed.keys.Nodup) (h : roster.order.map (·.map (·.key)) = .ok keys)
    (hkeys : changed.keys = roster.keys ++ [key]) (hasks : ∀ a b, changed.Asks a b ↔ roster.Asks a b)
    (hunnamed : ∀ other, ¬ roster.Asks key other ∧ ¬ roster.Asks other key) :
    changed.order.map (·.map (·.key)) = .ok (keys ++ [key]) := by
  obtain ⟨positions, hpositions, rfl⟩ := keys_of_order_iff.1 h
  have hnodup' : roster.keys.Nodup := (List.nodup_append.1 (hkeys ▸ hnodup)).1
  have hextension := linearExtension_of_linearize (within_edges roster) hpositions
  have hsize : changed.size = roster.size + 1 := by
    rw [← length_keys, ← length_keys, hkeys, List.length_append, List.length_singleton]
  -- the new key comes after all others, so these keep their positions
  have hthere {position : Nat} {name : Key} (hname : name ≠ key) :
      changed.keys[position]? = some name ↔ roster.keys[position]? = some name := by
    rw [hkeys, List.getElem?_append]
    split
    case isTrue => rfl
    case isFalse hle =>
      rw [List.getElem?_eq_none (Nat.le_of_not_lt hle)]
      simp only [List.getElem?_singleton, reduceCtorEq, iff_false]
      split
      · exact fun heq => hname (Option.some.inj heq).symm
      · exact nofun
  refine keys_of_order_iff.2 ⟨positions ++ [roster.size], ?_, ?_⟩
  · rw [hsize]
    refine linearize_of_new_node (within_edges roster) ?_ hpositions
    rintro ⟨i, j⟩
    rw [mem_edges hnodup, mem_edges hnodup']
    refine exists_congr fun a => exists_congr fun b => ?_
    rw [hasks, ← and_assoc, ← and_assoc]
    refine and_congr_left fun hasked => and_congr (hthere ?_) (hthere ?_)
    · exact fun heq => (hunnamed b).1 (heq ▸ hasked)
    · exact fun heq => (hunnamed a).2 (heq ▸ hasked)
  · rw [List.filterMap_append, hkeys]
    congr 1
    · refine List.filterMap_congr fun position hposition => ?_
      have hlt : position < roster.keys.length := by
        rw [length_keys]
        exact hextension.mem_iff.1 hposition
      rw [List.getElem?_append_left hlt]
    · rw [← length_keys]
      simp

end Roster

open ListCall

variable {ρ σ π : Type} {w : World ρ σ π} {id : RosterId}

namespace ListCall

variable {call : ListCall ρ} {a b : Key}

/-- None of the requests that were granted among `calls`, by `GrantedIn`, is about `key`. -/
def Unnamed (w : World ρ σ π) (id : RosterId) (calls : List (ListCall ρ)) (key : Key) : Prop :=
  ∀ other, ¬ GrantedIn w id calls key other ∧ ¬ GrantedIn w id calls other key

theorem Requests.added?_eq_none (h : call.Requests a b) : call.added? = none := by
  cases call with
  | add => exact h.elim
  | place => rfl

/-- A request is made by one of the two that it is about, the `target?` of the call. -/
theorem Requests.exists_target (h : call.Requests a b) : ∃ entry ∈ [a, b], call.target? = some entry := by
  cases call with
  | add => exact h.elim
  | place entry side other =>
    refine ⟨entry, ?_, rfl⟩
    cases side with
    | after => simp [h.2]
    | before => simp [h.1]

/-- A call asks for one thing, by `ListCall.Requests`. -/
theorem Requests.unique {x y : Key} (h : call.Requests a b) (h' : call.Requests x y) : a = x ∧ b = y := by
  cases call with
  | add => exact h.elim
  | place entry side other => cases side <;> exact ⟨h.1.symm.trans h'.1, h.2.symm.trans h'.2⟩

end ListCall

namespace World

/-- What the list has come to after some calls, its sets of requests run through in any order: its
keys are the `addedKeys`, and what it asks for is what was granted. -/
theorem shuffled_playList (hid : id.index < w.rosters.size) (hnew : (w.roster id).entries = [])
    {calls : List (ListCall ρ)} {roster : Roster (Provider ρ)}
    (h : roster.Shuffled ((w.playList id calls).roster id)) :
    roster.keys = addedKeys calls ∧ roster.keys.Nodup ∧
      (∀ a b, roster.Asks a b ↔ GrantedIn w id calls a b) ∧
      (((w.playList id calls).setRoster id roster).orderedKeys id).1 =
        roster.order.map (·.map (·.key)) := by
  obtain ⟨hkeys, hnodup, hasks⟩ := roster_playList hid hnew calls
  refine ⟨h.keys.trans hkeys, h.keys ▸ hnodup, fun a b => h.asks_iff.trans (hasks a b), ?_⟩
  rw [orderedKeys_eq, roster_setRoster _ _ (lt_size_playList hid calls)]

/-- A list that can be put in order is put in the same order after a call that asks for what the
order keeps already (`keys_of_agreeing`), and in that order followed by the new entry after one that
adds an entry of which nothing has been asked (`keys_of_new_key`). -/
theorem agreeing_edits_keep_order (hid : id.index < w.rosters.size)
    (hnew : (w.roster id).entries = []) {calls : List (ListCall ρ)} {roster : Roster (Provider ρ)}
    (hroster : roster.Shuffled ((w.playList id calls).roster id)) {keys : List Key}
    (hkeys : (((w.playList id calls).setRoster id roster).orderedKeys id).1 = .ok keys) :
    (∀ (call : ListCall ρ) a b, call.Requests a b → [a, b].Sublist keys →
      ((w.playList id calls).callList id call).1 = .ok () ∧
      ∀ changed : Roster (Provider ρ), changed.Shuffled ((w.playList id (calls ++ [call])).roster id) →
        (((w.playList id (calls ++ [call])).setRoster id changed).orderedKeys id).1 = .ok keys) ∧
    ∀ entry provider, entry ∉ addedKeys calls → Unnamed w id calls entry →
      ∀ changed : Roster (Provider ρ),
        changed.Shuffled ((w.playList id (calls ++ [.add entry provider])).roster id) →
        (((w.playList id (calls ++ [.add entry provider])).setRoster id changed).orderedKeys id).1 =
          .ok (keys ++ [entry]) := by
  obtain ⟨hadded, hnodup, hasks, horder⟩ := shuffled_playList hid hnew hroster
  rw [horder] at hkeys
  constructor
  · intro call a b hrequest hagree
    have hthere (key : Key) (hkey : key ∈ [a, b]) : key ∈ ((w.playList id calls).roster id).keys := by
      obtain ⟨positions, -, rfl⟩ := Roster.keys_of_order_iff.1 hkeys
      obtain ⟨position, -, hposition⟩ := List.mem_filterMap.1 (hagree.subset hkey)
      exact hroster.keys ▸ List.mem_of_getElem? hposition
    obtain ⟨entry, hentry, htarget⟩ := hrequest.exists_target
    have hok := callList_of_mem (lt_size_playList hid calls) htarget (hthere entry hentry)
    refine ⟨hok, fun changed hchanged => ?_⟩
    obtain ⟨hadded', -, hasks', horder'⟩ := shuffled_playList hid hnew hchanged
    rw [horder']
    refine Roster.keys_of_agreeing hnodup hkeys ?_ ?_ ?_
    · rw [hadded', hadded, addedKeys_append_singleton, hrequest.added?_eq_none]
    · intro x y hasked
      exact (hasks' x y).2 (grantedIn_append_singleton.2 (.inl ((hasks x y).1 hasked)))
    -- what is asked now was asked before, or it is what the call asks, and the order keeps that already
    · intro x y hasked
      refine (grantedIn_append_singleton.1 ((hasks' x y).1 hasked)).imp (hasks x y).2 fun hlast => ?_
      obtain ⟨rfl, rfl⟩ := hrequest.unique hlast.1
      exact hagree
  · intro entry provider hfresh hunnamed changed hchanged
    obtain ⟨hadded', hnodup', hasks', horder'⟩ := shuffled_playList hid hnew hchanged
    rw [horder']
    refine Roster.keys_of_new_key hnodup' hkeys ?_ ?_ ?_
    · rw [hadded', hadded, addedKeys_append_singleton]
      exact if_neg hfresh
    · intro a b
      rw [hasks, hasks', grantedIn_append_singleton]
      exact or_iff_left fun hlast => hlast.1
    · intro other
      rw [hasks, hasks]
      exact hunnamed other

/-! ### Two edits of three entries

The order is 1, 2, 0, so the entry 0 may be asked to stand after the entry 1, which it does not have to as
yet. The entry 3 comes last. The entry 7 would not have to, since the entry 1 has been asked to stand after
it. -/

theorem agreeing_edits_keep_order_of_first :
    ((withNewList.playList ⟨0⟩ firstHistory).orderedKeys ⟨0⟩).1 =
        .ok [.ofObject (.plain "entry") 1, .ofObject (.plain "entry") 2, .ofObject (.plain "entry") 0] ∧
      ((withNewList.playList ⟨0⟩ (firstHistory ++
        [.place (.ofObject (.plain "entry") 0) .after (.ofObject (.plain "entry") 1)])).orderedKeys ⟨0⟩).1 =
        .ok [.ofObject (.plain "entry") 1, .ofObject (.plain "entry") 2, .ofObject (.plain "entry") 0] ∧
      Unnamed withNewList ⟨0⟩ firstHistory (.ofObject (.plain "entry") 3) ∧
      ((withNewList.playList ⟨0⟩ (firstHistory ++
        [.add (.ofObject (.plain "entry") 3) (.fixed ⟨3⟩)])).orderedKeys ⟨0⟩).1 =
        .ok [.ofObject (.plain "entry") 1, .ofObject (.plain "entry") 2, .ofObject (.plain "entry") 0,
          .ofObject (.plain "entry") 3] := by
  have hid : (⟨0⟩ : RosterId).index < withNewList.rosters.size := by decide
  have hkeys : ((withNewList.playList ⟨0⟩ firstHistory).orderedKeys ⟨0⟩).1 =
      .ok [.ofObject (.plain "entry") 1, .ofObject (.plain "entry") 2, .ofObject (.plain "entry") 0] := by
    rfl
  have hunnamed : Unnamed withNewList ⟨0⟩ firstHistory (.ofObject (.plain "entry") 3) := by
    intro other
    have hentries : ((withNewList.playList ⟨0⟩ firstHistory).roster ⟨0⟩).entries =
        [⟨.ofObject (.plain "entry") 0, .fixed ⟨0⟩, [], []⟩,
          ⟨.ofObject (.plain "entry") 1, .fixed ⟨1⟩, [.ofObject (.plain "entry") 7], []⟩,
          ⟨.ofObject (.plain "entry") 2, .fixed ⟨2⟩, [], [.ofObject (.plain "entry") 0]⟩] := rfl
    rw [← (roster_playList hid rfl firstHistory).2.2, ← (roster_playList hid rfl firstHistory).2.2]
    simp [Roster.Asks, Entry.Asks, hentries, Key.ofObject]
  obtain ⟨hrequests, hadditions⟩ :=
    agreeing_edits_keep_order hid rfl (.refl ((withNewList.playList ⟨0⟩ firstHistory).roster ⟨0⟩)) hkeys
  refine ⟨hkeys, ?_, hunnamed, ?_⟩
  · exact (hrequests (.place (.ofObject (.plain "entry") 0) .after (.ofObject (.plain "entry") 1)) _ _ ⟨rfl, rfl⟩
      (by decide)).2 _ (.refl _)
  · exact hadditions _ _ (by decide +kernel) hunnamed _ (.refl _)

end World

end Wiring
