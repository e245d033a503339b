import Mathlib.Data.List.Induction
import Wiring.Collections
import Wiring.Proofs.RosterEdges

/-!
# Histories of a list

A list that starts without entries is changed by calls (`ListCall`) that add an entry or ask for an
order. Of the history two things show in the order of the entries: in which order the distinct keys
were first added (`addedKeys`), and which requests between entries were granted
(`ListCall.GrantedIn`). Histories that agree in these give the same order
(`orderedKeys_of_same_requests`), however the sets of requests are run through.

* **`World.callList`** and **`World.playList`** — one call and a history of calls on a list in a
  world; `World.callList_cases` says all that one call can do.
* **`World.roster_playList`** — what a history leaves: the keys are `addedKeys`, and the requests
  those of `ListCall.GrantedIn`.
-/

namespace Wiring

variable {ρ σ π : Type}

/-- A call on a list: `World.enrol` of an entry, or `World.place`. -/
inductive ListCall (ρ : Type) where
  | add (entry : Key) (provider : Provider ρ)
  | place (entry : Key) (side : Side) (other : Key)

namespace ListCall

/-- The key that a call adds, if it adds one. -/
def added? : ListCall ρ → Option Key
  | .add entry _ => some entry
  | _ => none

/-- The call asks that `a` stand before `b`, as `Side.Puts` reads it. -/
def Requests (a b : Key) : ListCall ρ → Prop
  | .add _ _ => False
  | .place entry side other => side.Puts entry other a b

/-- What a call makes of a roster, or the fault that it comes to: `Roster.add` or `Roster.place`. -/
def change : ListCall ρ → Roster (Provider ρ) → Except Fault (Roster (Provider ρ))
  | .add entry provider, roster => .ok (roster.add entry provider)
  | .place entry side other, roster => roster.place entry side other

theorem keys_change {call : ListCall ρ} {roster changed : Roster (Provider ρ)}
    (h : call.change roster = .ok changed) :
    changed.keys = match call.added? with
      | some key => if key ∈ roster.keys then roster.keys else roster.keys ++ [key]
      | none => roster.keys := by
  cases call with
  | add entry provider =>
    cases h
    exact Roster.keys_add roster entry provider
  | place entry side other => exact Roster.keys_place h

theorem asks_change {call : ListCall ρ} {roster changed : Roster (Provider ρ)} {a b : Key}
    (h : call.change roster = .ok changed) :
    changed.Asks a b ↔ roster.Asks a b ∨ call.Requests a b := by
  cases call with
  | add entry provider =>
    cases h
    rw [Roster.asks_add]
    exact (or_false _).symm ▸ Iff.rfl
  | place entry side other => exact Roster.asks_place h

end ListCall

namespace World

/-- Carries out a call on the list at `id`, with its note in the log. -/
def callList (w : World ρ σ π) (id : RosterId) : ListCall ρ → Except Fault Unit × World ρ σ π
  | .add entry provider => (.ok (), w.enrol id entry provider)
  | .place entry side other => w.place id entry side other

/-- The world after calls on the list at `id`, each by `callList`, whether they succeeded or not. -/
def playList (w : World ρ σ π) (id : RosterId) (calls : List (ListCall ρ)) : World ρ σ π :=
  calls.foldl (fun w call => (w.callList id call).2) w

theorem playList_append_singleton (w : World ρ σ π) (id : RosterId) (calls : List (ListCall ρ))
    (call : ListCall ρ) :
    w.playList id (calls ++ [call]) = ((w.playList id calls).callList id call).2 := by
  unfold playList
  rw [List.foldl_append]
  rfl

theorem roster_setRoster (w : World ρ σ π) {id : RosterId} (roster : Roster (Provider ρ))
    (h : id.index < w.rosters.size) : (w.setRoster id roster).roster id = roster := by
  simp [setRoster, World.roster, h]

@[simp] theorem size_rosters_setRoster (w : World ρ σ π) (id : RosterId)
    (roster : Roster (Provider ρ)) : (w.setRoster id roster).rosters.size = w.rosters.size := by
  simp [setRoster]

/-- A call either changes the roster and succeeds, as `ListCall.change` has it, or fails and leaves
the roster alone. -/
theorem callList_cases (w : World ρ σ π) {id : RosterId} (hid : id.index < w.rosters.size)
    (call : ListCall ρ) :
    (∃ changed, call.change (w.roster id) = .ok changed ∧ (w.callList id call).1 = .ok () ∧
        (w.callList id call).2.roster id = changed) ∨
      ∃ fault, call.change (w.roster id) = .error fault ∧
        w.callList id call = w.raise fault := by
  cases call with
  | add entry provider => exact .inl ⟨_, rfl, rfl, roster_setRoster w _ hid⟩
  | place entry side other =>
    show (∃ _, _ ∧ (w.place id entry side other).1 = _ ∧ _) ∨ ∃ _, _ ∧ w.place id entry side other = _
    cases hplace : (w.roster id).place entry side other with
    | error fault => exact .inr ⟨fault, hplace, changeRoster_of_error hplace⟩
    | ok changed =>
      have hchanged : w.place id entry side other = (.ok (), w.setRoster id changed) :=
        changeRoster_of_ok hplace
      rw [hchanged]
      refine .inl ⟨changed, hplace, rfl, ?_⟩
      show (w.place id entry side other).2.roster id = changed
      rw [hchanged]
      exact roster_setRoster w changed hid

theorem size_rosters_callList (w : World ρ σ π) (id : RosterId) (call : ListCall ρ) :
    (w.callList id call).2.rosters.size = w.rosters.size := by
  cases call with
  | add entry provider => exact size_rosters_setRoster w id _
  | place entry side other =>
    show (w.place id entry side other).2.rosters.size = _
    unfold place changeRoster
    split
    · rfl
    · exact size_rosters_setRoster w id _

theorem size_rosters_playList (w : World ρ σ π) (id : RosterId) (calls : List (ListCall ρ)) :
    (w.playList id calls).rosters.size = w.rosters.size := by
  induction calls using List.reverseRecOn with
  | nil => rfl
  | append_singleton calls call ih =>
    rw [playList_append_singleton, size_rosters_callList, ih]

/-- Calls on a list do away with none, so the roster stays where it is. -/
theorem lt_size_playList {w : World ρ σ π} {id : RosterId} (hid : id.index < w.rosters.size)
    (calls : List (ListCall ρ)) : id.index < (w.playList id calls).rosters.size := by
  rw [size_rosters_playList]
  exact hid

end World

namespace ListCall

/-- Among `calls`, made in turn on the list at `id`, one that succeeded asked that `a` stand before
`b`, by `ListCall.Requests`. -/
def GrantedIn (w : World ρ σ π) (id : RosterId) (calls : List (ListCall ρ)) (a b : Key) : Prop :=
  ∃ earlier call later, calls = earlier ++ call :: later ∧ call.Requests a b ∧
    ((w.playList id earlier).callList id call).1 = .ok ()

/-- The distinct keys that `calls` add, in the order in which they are first added. -/
def addedKeys (calls : List (ListCall ρ)) : List Key :=
  (calls.filterMap added?).eraseDups

theorem grantedIn_append_singleton {w : World ρ σ π} {id : RosterId} {calls : List (ListCall ρ)}
    {call : ListCall ρ} {a b : Key} :
    GrantedIn w id (calls ++ [call]) a b ↔ GrantedIn w id calls a b ∨
      (call.Requests a b ∧ ((w.playList id calls).callList id call).1 = .ok ()) := by
  constructor
  · rintro ⟨earlier, made, later, hsplit, hrequest, hok⟩
    rcases List.eq_nil_or_concat later with rfl | ⟨before, last, rfl⟩
    · obtain ⟨rfl, hcall⟩ := List.append_inj' hsplit rfl
      cases hcall
      exact .inr ⟨hrequest, hok⟩
    · have hsplit' : calls ++ [call] = (earlier ++ made :: before) ++ [last] := by
        rw [hsplit]
        simp
      obtain ⟨rfl, -⟩ := List.append_inj' hsplit' rfl
      exact .inl ⟨earlier, made, before, rfl, hrequest, hok⟩
  · rintro (⟨earlier, made, later, rfl, hrequest, hok⟩ | ⟨hrequest, hok⟩)
    · exact ⟨earlier, made, later ++ [call], by simp, hrequest, hok⟩
    · exact ⟨calls, call, [], rfl, hrequest, hok⟩

theorem addedKeys_append_singleton (calls : List (ListCall ρ)) (call : ListCall ρ) :
    addedKeys (calls ++ [call]) = match call.added? with
      | some key => if key ∈ addedKeys calls then addedKeys calls else addedKeys calls ++ [key]
      | none => addedKeys calls := by
  unfold addedKeys
  rw [List.filterMap_append]
  cases hadded : call.added? with
  | none => simp [hadded]
  | some key =>
    rw [List.filterMap_cons_some hadded, List.filterMap_nil, List.eraseDups_append]
    generalize calls.filterMap added? = keys
    by_cases hmem : key ∈ keys
    · simp [hmem, List.mem_eraseDups, List.removeAll]
    · simp [hmem, List.mem_eraseDups, List.removeAll, List.eraseDups_cons]

end ListCall

open ListCall

namespace World

variable {w : World ρ σ π} {id : RosterId}

/-- After any calls on a new list its keys are those added (`addedKeys`), and what its entries ask
for by `Roster.Asks` is what was granted. -/
theorem roster_playList (hid : id.index < w.rosters.size) (hnew : (w.roster id).entries = [])
    (calls : List (ListCall ρ)) :
    ((w.playList id calls).roster id).keys = addedKeys calls ∧
      ((w.playList id calls).roster id).keys.Nodup ∧
      ∀ a b, ((w.playList id calls).roster id).Asks a b ↔ GrantedIn w id calls a b := by
  induction calls using List.reverseRecOn with
  | nil =>
    have hkeys : ((w.playList id []).roster id).keys = [] := by
      show (w.roster id).entries.map (·.key) = []
      rw [hnew]
      rfl
    refine ⟨hkeys, by rw [hkeys]; exact List.nodup_nil, fun a b => ?_⟩
    have hleft : ¬ ((w.playList id []).roster id).Asks a b := by
      rintro ⟨e, he, -⟩
      change e ∈ (w.roster id).entries at he
      rw [hnew] at he
      cases he
    have hright : ¬ GrantedIn w id [] a b := by
      rintro ⟨earlier, call, later, hsplit, -⟩
      simp at hsplit
    exact iff_of_false hleft hright
  | append_singleton calls call ih =>
    obtain ⟨hkeys, hnodup, hasks⟩ := ih
    have hsize : id.index < (w.playList id calls).rosters.size := by
      rw [size_rosters_playList]
      exact hid
    rw [playList_append_singleton, addedKeys_append_singleton]
    simp only [grantedIn_append_singleton]
    rcases callList_cases (w.playList id calls) hsize call with
      ⟨changed, hchange, hok, hroster⟩ | ⟨fault, hchange, hraise⟩
    · rw [hroster, ← hkeys, keys_change hchange]
      refine ⟨rfl, ?_, fun a b => ?_⟩
      · split
        case h_1 key _ =>
          split
          · exact hnodup
          case isFalse hfresh =>
            rw [List.nodup_append]
            exact ⟨hnodup, by simp,
              fun a ha b hb e => hfresh (List.mem_singleton.1 hb ▸ e ▸ ha)⟩
        · exact hnodup
      · rw [asks_change hchange, hasks a b, hok]
        simp
    · -- a call that fails adds no entry, and grants nothing
      have hnone : call.added? = none := by
        cases call with
        | add => cases hchange
        | place => rfl
      rw [hraise, hnone]
      refine ⟨hkeys, hnodup, fun a b => ?_⟩
      show ((w.playList id calls).roster id).Asks a b ↔ _
      rw [hasks a b]
      simp [raise]

theorem orderedKeys_eq (w : World ρ σ π) (id : RosterId) :
    (w.orderedKeys id).1 = (w.roster id).order.map (·.map (·.key)) := by
  unfold orderedKeys ordered
  cases (w.roster id).order <;> rfl

/-- Two histories of new lists give the same order, or a contradiction each (`SameOrder`), if the
distinct keys were first added in the same order and the same requests between entries were granted.
The sets of requests may be run through in any order, as `Roster.Shuffled` says. -/
theorem orderedKeys_of_same_requests {v : World ρ σ π} {other : RosterId}
    (hid : id.index < w.rosters.size) (hnew : (w.roster id).entries = [])
    (hother : other.index < v.rosters.size) (hnewOther : (v.roster other).entries = [])
    {calls callsOther : List (ListCall ρ)} (hkeys : addedKeys calls = addedKeys callsOther)
    (hgranted : ∀ a ∈ addedKeys calls, ∀ b ∈ addedKeys calls,
      GrantedIn w id calls a b ↔ GrantedIn v other callsOther a b)
    {roster rosterOther : Roster (Provider ρ)}
    (hroster : roster.Shuffled ((w.playList id calls).roster id))
    (hrosterOther : rosterOther.Shuffled ((v.playList other callsOther).roster other)) :
    Roster.SameOrder (((w.playList id calls).setRoster id roster).orderedKeys id).1
      (((v.playList other callsOther).setRoster other rosterOther).orderedKeys other).1 := by
  obtain ⟨hk, hnodup, hasks⟩ := roster_playList hid hnew calls
  obtain ⟨hkOther, -, hasksOther⟩ := roster_playList hother hnewOther callsOther
  have hsize : id.index < (w.playList id calls).rosters.size := by
    rw [size_rosters_playList]
    exact hid
  have hsizeOther : other.index < (v.playList other callsOther).rosters.size := by
    rw [size_rosters_playList]
    exact hother
  rw [orderedKeys_eq, orderedKeys_eq, roster_setRoster _ _ hsize, roster_setRoster _ _ hsizeOther]
  have hrosterKeys : roster.keys = addedKeys calls := hroster.keys.trans hk
  -- the keys and what they ask of each other are all that the order depends on
  apply Roster.order_congr
  · rw [hrosterKeys, hrosterOther.keys, hkOther, hkeys]
  · rw [hroster.keys]
    exact hnodup
  · intro a ha b hb
    rw [hrosterKeys] at ha hb
    rw [hroster.asks_iff, hrosterOther.asks_iff, hasks, hasksOther]
    exact hgranted a ha b hb

/-! ### Two histories of three entries

In both `firstHistory` and `secondHistory` the entry 2 is to stand before the entry 0. The second
asks for it from the other side, before the entry 2 is there, and twice; the first also names an
entry that is never there. -/

/-- A world with one list, which has no entries. -/
def withNewList : World Unit Unit Unit where
  rosters := #[{ list := .ofObject (.plain "entry") 9 }]
  memory := ()

def firstHistory : List (ListCall Unit) :=
  let entry := Key.ofObject (.plain "entry")
  [.add (entry 0) (.fixed ⟨0⟩), .add (entry 1) (.fixed ⟨1⟩), .add (entry 2) (.fixed ⟨2⟩),
    .place (entry 2) .before (entry 0), .place (entry 1) .after (entry 7)]

def secondHistory : List (ListCall Unit) :=
  let entry := Key.ofObject (.plain "entry")
  [.add (entry 0) (.fixed ⟨3⟩), .place (entry 0) .after (entry 2), .place (entry 2) .after (entry 0),
    .add (entry 1) (.fixed ⟨1⟩), .add (entry 2) (.fixed ⟨2⟩), .place (entry 0) .after (entry 2),
    .add (entry 0) (.fixed ⟨0⟩)]

theorem orderedKeys_of_two_histories :
    (∀ a ∈ addedKeys firstHistory, ∀ b ∈ addedKeys firstHistory,
      GrantedIn withNewList ⟨0⟩ firstHistory a b ↔ GrantedIn withNewList ⟨0⟩ secondHistory a b) ∧
    Roster.SameOrder
      (((withNewList.playList ⟨0⟩ firstHistory).setRoster ⟨0⟩
        ((withNewList.playList ⟨0⟩ firstHistory).roster ⟨0⟩)).orderedKeys ⟨0⟩).1
      (((withNewList.playList ⟨0⟩ secondHistory).setRoster ⟨0⟩
        ((withNewList.playList ⟨0⟩ secondHistory).roster ⟨0⟩)).orderedKeys ⟨0⟩).1 := by
  have hid : (⟨0⟩ : RosterId).index < withNewList.rosters.size := by decide
  have hgranted : ∀ a ∈ addedKeys firstHistory, ∀ b ∈ addedKeys firstHistory,
      GrantedIn withNewList ⟨0⟩ firstHistory a b ↔
        GrantedIn withNewList ⟨0⟩ secondHistory a b := by
    intro a ha b hb
    rw [← (roster_playList hid rfl firstHistory).2.2,
      ← (roster_playList hid rfl secondHistory).2.2]
    revert a b
    decide +kernel
  have hkeys : addedKeys firstHistory = addedKeys secondHistory := by decide +kernel
  exact ⟨hgranted, orderedKeys_of_same_requests hid rfl hid rfl hkeys hgranted (.refl _) (.refl _)⟩

end World

end Wiring
