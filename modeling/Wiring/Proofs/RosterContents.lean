import Wiring.Proofs.ListHistory

/-!
# What a list records of the calls on it

A list that starts without entries and is changed by calls holds what the calls say, and nothing
else (`Roster.Records`). Its entries are the distinct keys that were added, in the order of their
first addition. Each has the provider that was last added for its key, and the keys that calls on it
named, as far as these calls succeeded. The index finds each entry where it stands.

A call is an edit of each entry, which leaves alone all but one (`ListCall.edit`), and one that adds
a new key comes with an entry for it (`Roster.entries_change`). A call that names an entry that was
never added fails and changes nothing (`change_of_target`).

* **`Entry.Records`** — what one entry holds of the calls; `Records.edit`, `Records.failed` and
  `Records.new` are the ways in which a call goes on.
* **`World.entries_playList`** — induction on the history, with `Roster.change_cases` for the last
  call.
* **`World.list_records_calls`** — `Roster.Records` after any calls, and what each further call is
  answered.
-/

namespace Wiring

variable {ρ σ π : Type}

namespace ListCall

/-- The entry that a call is to place, which has to be there; an addition has none. -/
def target? : ListCall ρ → Option Key
  | .add _ _ => none
  | .place entry _ _ => some entry

/-- The provider that a call adds for `key`, if it adds one. -/
def provides? (key : Key) : ListCall ρ → Option (Provider ρ)
  | .add entry provider => if entry = key then some provider else none
  | .place _ _ _ => none

/-- The provider that was last added for `key`, by `provides?`. -/
def lastProvider? (calls : List (ListCall ρ)) (key : Key) : Option (Provider ρ) :=
  calls.reverse.findSome? (provides? key)

/-- Among `calls`, made in turn on the list at `id`, `call` was made and succeeded. -/
def Succeeded (w : World ρ σ π) (id : RosterId) (calls : List (ListCall ρ)) (call : ListCall ρ) : Prop :=
  ∃ earlier, earlier ++ [call] <+: calls ∧ ((w.playList id earlier).callList id call).1 = .ok ()

/-- The entry that a call brings when its key is none of `keys`: with its provider, and asking for
nothing. -/
def newEntries (keys : List Key) : ListCall ρ → List (Entry (Provider ρ))
  | .add entry provider => if entry ∈ keys then [] else [{ key := entry, provider }]
  | .place _ _ _ => []

/-- What a call that succeeds makes of an entry that is there. Entries of other keys stay as they
are. -/
def edit : ListCall ρ → Entry (Provider ρ) → Entry (Provider ρ)
  | .add entry provider, e => if e.key = entry then { e with provider } else e
  | .place entry side other, e => if e.key = entry then e.ask side other else e

/-! ### What an edit does to each part of an entry -/

section

variable (call : ListCall ρ) (e : Entry (Provider ρ))

@[simp] theorem key_edit : (call.edit e).key = e.key := by
  cases call <;> simp only [edit] <;> split <;> simp

theorem provider_edit : (call.edit e).provider = (call.provides? e.key).getD e.provider := by
  cases call with
  | add entry provider =>
    by_cases h : e.key = entry
    · simp [edit, provides?, h]
    · simp [edit, provides?, h, Ne.symm h]
  | place entry side other =>
    simp only [edit]
    split <;> simp [provides?]

theorem nodup_includeKey {keys : List Key} (h : keys.Nodup) (key : Key) :
    (Roster.includeKey keys key).Nodup := by
  unfold Roster.includeKey
  split
  case isTrue => exact h
  case isFalse hnew => simpa using h.concat hnew

variable {side : Side}

theorem mem_asked_edit {other : Key} :
    other ∈ (call.edit e).asked side ↔ other ∈ e.asked side ∨ call = .place e.key side other := by
  cases call with
  | add entry provider =>
    simp only [edit, reduceCtorEq, or_false]
    split <;> rfl
  | place entry asked key =>
    rw [edit]
    split
    case isTrue h =>
      rw [Entry.asked_ask]
      split <;> simp_all [Roster.mem_includeKey, eq_comm]
    case isFalse h => simp [Ne.symm h]

theorem nodup_asked_edit (h : (e.asked side).Nodup) : ((call.edit e).asked side).Nodup := by
  cases call with
  | add entry provider =>
    simp only [edit]
    split <;> exact h
  | place entry asked key =>
    rw [edit]
    split
    case isTrue =>
      rw [Entry.asked_ask]
      split
      · exact nodup_includeKey h key
      · exact h
    case isFalse => exact h

end

/-! ### Calls that come last -/

theorem lastProvider?_append_singleton (calls : List (ListCall ρ)) (call : ListCall ρ) (key : Key) :
    lastProvider? (calls ++ [call]) key = (call.provides? key).or (lastProvider? calls key) := by
  rw [lastProvider?, List.reverse_append, List.reverse_singleton, List.singleton_append,
    List.findSome?_cons]
  cases call.provides? key <;> rfl

theorem succeeded_append_singleton {w : World ρ σ π} {id : RosterId} {calls : List (ListCall ρ)}
    {last call : ListCall ρ} :
    Succeeded w id (calls ++ [last]) call ↔ Succeeded w id calls call ∨
      (call = last ∧ ((w.playList id calls).callList id last).1 = .ok ()) := by
  constructor
  · rintro ⟨earlier, hprefix, hok⟩
    rcases List.prefix_concat_iff.1 hprefix with hall | hearlier
    · obtain ⟨rfl, hcall⟩ := List.append_inj' hall rfl
      cases hcall
      exact .inr ⟨rfl, hok⟩
    · exact .inl ⟨earlier, hearlier, hok⟩
  · rintro (⟨earlier, hprefix, hok⟩ | ⟨rfl, hok⟩)
    · exact ⟨earlier, hprefix.trans (List.prefix_append calls [last]), hok⟩
    · exact ⟨calls, List.prefix_rfl, hok⟩

theorem mem_addedKeys {calls : List (ListCall ρ)} {key : Key} :
    key ∈ addedKeys calls ↔ ∃ call ∈ calls, call.added? = some key := by
  rw [addedKeys, List.mem_eraseDups, List.mem_filterMap]

end ListCall

namespace Roster

open ListCall

/-- Entries with other keys are left alone by a change of those with `key`. -/
theorem map_of_other_keys {P : Type} {entries : List (Entry P)} {key : Key} (f : Entry P → Entry P)
    (h : ∀ e ∈ entries, e.key ≠ key) :
    (entries.map fun e => if e.key = key then f e else e) = entries :=
  (List.map_congr_left fun e he => if_neg (h e he)).trans (List.map_id entries)

/-- Of different keys each has one entry, so a change of one entry by `Roster.modify` is one of all
entries with its key. -/
theorem entries_modify_eq_map {P : Type} {roster : Roster P} (hnodup : roster.keys.Nodup) {key : Key}
    (f : Entry P → Entry P) (hf : ∀ e, (f e).key = e.key) (h : roster.contains key = true) :
    (roster.modify key f hf).entries = roster.entries.map fun e => if e.key = key then f e else e := by
  obtain ⟨earlier, e, later, hentries, rfl, hmodified⟩ := entries_modify f hf h
  rw [keys, hentries, List.map_append, List.map_cons, List.nodup_middle, List.nodup_cons,
    ← List.map_append] at hnodup
  have hother (other : Entry P) (hmem : other ∈ earlier ++ later) : other.key ≠ e.key :=
    fun heq => hnodup.1 (heq ▸ List.mem_map_of_mem hmem)
  rw [hmodified, hentries, List.map_append, List.map_cons, if_pos rfl,
    map_of_other_keys f fun other hmem => hother other (List.mem_append_left later hmem),
    map_of_other_keys f fun other hmem => hother other (List.mem_append_right earlier hmem)]

@[simp] theorem list_modify {P : Type} (roster : Roster P) (key : Key) (f : Entry P → Entry P)
    (hf : ∀ e, (f e).key = e.key) : (roster.modify key f hf).list = roster.list := by
  unfold modify
  split <;> rfl

/-- A call that succeeds changes an entry that is there by `Roster.modify`, or adds one that is
not. -/
theorem change_cases {call : ListCall ρ} {roster changed : Roster (Provider ρ)}
    (h : call.change roster = .ok changed) :
    (∃ entry f hf, roster.contains entry = true ∧ changed = roster.modify entry f hf ∧
        (call.edit = fun e => if e.key = entry then f e else e) ∧ call.newEntries roster.keys = []) ∨
      ∃ entry provider, call = .add entry provider ∧ entry ∉ roster.keys ∧ changed.list = roster.list ∧
        changed.entries = roster.entries ++ [{ key := entry, provider }] := by
  cases call with
  | add entry provider =>
    cases h
    show (∃ _ _ _, _ ∧ roster.add entry provider = _ ∧ _) ∨ _
    by_cases hthere : roster.contains entry = true
    · rw [add, dif_pos hthere]
      exact .inl ⟨entry, _, _, hthere, rfl, rfl, if_pos (contains_iff.1 hthere)⟩
    · rw [add, dif_neg hthere]
      exact .inr ⟨entry, provider, rfl, fun hmem => hthere (contains_iff.2 hmem), rfl, rfl⟩
  | place entry side other =>
    obtain ⟨hthere, hchanged⟩ := place_eq_ok_iff.1 h
    exact .inl ⟨entry, _, _, hthere, hchanged, rfl, rfl⟩

/-- A call that succeeds edits each entry by `ListCall.edit`, and brings one for a key that is
new. -/
theorem entries_change {call : ListCall ρ} {roster changed : Roster (Provider ρ)}
    (hnodup : roster.keys.Nodup) (h : call.change roster = .ok changed) :
    changed.entries = roster.entries.map call.edit ++ call.newEntries roster.keys := by
  rcases change_cases h with
    ⟨entry, f, hf, hthere, rfl, hedit, hnone⟩ | ⟨entry, provider, rfl, hnew, -, hentries⟩
  · rw [hedit, hnone, List.append_nil]
    exact entries_modify_eq_map hnodup f hf hthere
  · have hsame : roster.entries.map (edit (.add entry provider)) = roster.entries :=
      map_of_other_keys _ fun e he heq => hnew (heq ▸ List.mem_map_of_mem he)
    rw [hentries, hsame, newEntries, if_neg hnew]

theorem list_change {call : ListCall ρ} {roster changed : Roster (Provider ρ)}
    (h : call.change roster = .ok changed) : changed.list = roster.list := by
  rcases change_cases h with ⟨entry, f, hf, -, rfl, -⟩ | ⟨_, _, -, -, hlist, -⟩
  · exact list_modify roster entry f hf
  · exact hlist

/-- A call succeeds if the entry that it is to place is there, and fails with `entryNotFound` if
not. -/
theorem change_of_target {call : ListCall ρ} {roster : Roster (Provider ρ)} {entry : Key}
    (htarget : call.target? = some entry) :
    (entry ∈ roster.keys → ∃ changed, call.change roster = .ok changed) ∧
      (entry ∉ roster.keys → call.change roster = .error (.entryNotFound roster.list entry)) := by
  rw [← contains_iff]
  cases call with
  | add => cases htarget
  | place target side other =>
    obtain rfl := Option.some.inj htarget
    exact ⟨fun hthere => ⟨_, place_eq_ok_iff.2 ⟨hthere, rfl⟩⟩,
      fun hmissing => place_eq_error_iff.2 ⟨Bool.eq_false_iff.2 hmissing, rfl⟩⟩

end Roster

open ListCall

/-- An entry has the provider that was last added for its key (`lastProvider?`), and on each side
the keys that were named by the calls on it that `Succeeded`. -/
structure Entry.Records (w : World ρ σ π) (id : RosterId) (calls : List (ListCall ρ))
    (e : Entry (Provider ρ)) : Prop where
  provider : lastProvider? calls e.key = some e.provider
  asked_nodup : ∀ side, (e.asked side).Nodup
  mem_asked : ∀ side other, other ∈ e.asked side ↔ Succeeded w id calls (.place e.key side other)

namespace Entry.Records

variable {w : World ρ σ π} {id : RosterId} {calls : List (ListCall ρ)} {call : ListCall ρ}
  {e : Entry (Provider ρ)}

/-- A call that succeeds leaves its mark on the entry that it is about, by `ListCall.edit`, and on
no other. -/
theorem edit (h : e.Records w id calls) (hok : ((w.playList id calls).callList id call).1 = .ok ()) :
    (call.edit e).Records w id (calls ++ [call]) where
  provider := by
    rw [key_edit, lastProvider?_append_singleton, h.provider, provider_edit]
    cases call.provides? e.key <;> rfl
  asked_nodup side := nodup_asked_edit call e (h.asked_nodup side)
  mem_asked side other := by
    rw [mem_asked_edit, h.mem_asked, key_edit, succeeded_append_singleton, and_iff_left hok, eq_comm]

/-- A call that fails adds nothing, and leaves no mark on any entry. -/
theorem failed (h : e.Records w id calls) (hnone : call.provides? e.key = none)
    (hfail : ((w.playList id calls).callList id call).1 ≠ .ok ()) : e.Records w id (calls ++ [call]) where
  provider := by
    rw [lastProvider?_append_singleton, hnone, h.provider]
    rfl
  asked_nodup := h.asked_nodup
  mem_asked side other := by
    rw [h.mem_asked, succeeded_append_singleton, or_iff_left fun hcall => hfail hcall.2]

/-- A new entry has no marks, since no call on it can have succeeded: there was no such entry. -/
theorem new {key : Key} {provider : Provider ρ}
    (hnone : ∀ call, call.target? = some key → ¬ Succeeded w id calls call) :
    Entry.Records w id (calls ++ [.add key provider]) { key, provider } where
  provider := by
    rw [lastProvider?_append_singleton]
    simp [provides?]
  asked_nodup side := by cases side <;> exact List.nodup_nil
  mem_asked side other := by
    cases side <;> simp [Entry.asked, succeeded_append_singleton, hnone (.place key _ other) rfl]

end Entry.Records

/-- The list holds what `calls` say, as they were made in turn on a new list at `id`: the keys and
entries, each by `Entry.Records`, the index, and edges within range. -/
structure Roster.Records (w : World ρ σ π) (id : RosterId) (calls : List (ListCall ρ))
    (roster : Roster (Provider ρ)) : Prop where
  list : roster.list = (w.roster id).list
  keys : roster.keys = addedKeys calls
  nodup : roster.keys.Nodup
  entries : ∀ e ∈ roster.entries, e.Records w id calls
  position : ∀ key place, roster.position? key = some place ↔ roster.keys[place]? = some key
  contains : ∀ key, roster.contains key = true ↔ key ∈ roster.keys
  size : roster.size = roster.keys.length
  edges : ∀ a b, (a, b) ∈ roster.edges → a < roster.size ∧ b < roster.size

namespace World

variable {w : World ρ σ π} {id : RosterId}

theorem callList_of_mem (hid : id.index < w.rosters.size) {call : ListCall ρ} {entry : Key}
    (htarget : call.target? = some entry) (h : entry ∈ (w.roster id).keys) :
    (w.callList id call).1 = .ok () := by
  obtain ⟨changed, hchange⟩ := (Roster.change_of_target htarget).1 h
  rcases callList_cases w hid call with ⟨_, _, hok, _⟩ | ⟨fault, hfail, _⟩
  · exact hok
  · rw [hchange] at hfail
    cases hfail

theorem callList_of_not_mem (hid : id.index < w.rosters.size) {call : ListCall ρ} {entry : Key}
    (htarget : call.target? = some entry) (h : entry ∉ (w.roster id).keys) :
    w.callList id call = w.raise (.entryNotFound (w.roster id).list entry) := by
  have hchange := (Roster.change_of_target htarget).2 h
  rcases callList_cases w hid call with ⟨changed, hok, _⟩ | ⟨fault, hfail, hraise⟩
  · rw [hchange] at hok
    cases hok
  · rw [hchange] at hfail
    cases hfail
    exact hraise

/-- A call on an entry succeeds only after one that added it, so its target is among `addedKeys`. -/
theorem mem_addedKeys_of_succeeded (hid : id.index < w.rosters.size) (hnew : (w.roster id).entries = [])
    {calls : List (ListCall ρ)} {call : ListCall ρ} (h : Succeeded w id calls call) {entry : Key}
    (htarget : call.target? = some entry) : entry ∈ addedKeys calls := by
  obtain ⟨earlier, hprefix, hok⟩ := h
  have hsize := lt_size_playList hid earlier
  by_contra hnot
  have hmissing : entry ∉ ((w.playList id earlier).roster id).keys := by
    rw [(roster_playList hid hnew earlier).1, mem_addedKeys]
    rintro ⟨added, hadded, hkey⟩
    have hmem := hprefix.subset (List.mem_append_left [call] hadded)
    exact hnot (mem_addedKeys.2 ⟨added, hmem, hkey⟩)
  rw [callList_of_not_mem hsize htarget hmissing] at hok
  cases hok

theorem list_playList (hid : id.index < w.rosters.size) (calls : List (ListCall ρ)) :
    ((w.playList id calls).roster id).list = (w.roster id).list := by
  induction calls using List.reverseRecOn with
  | nil => rfl
  | append_singleton calls call ih =>
    have hsize := lt_size_playList hid calls
    rw [playList_append_singleton]
    rcases callList_cases (w.playList id calls) hsize call with
      ⟨changed, hchange, _, hroster⟩ | ⟨_, _, hraise⟩
    · rw [hroster, Roster.list_change hchange, ih]
    · rw [hraise]
      exact ih

/-- After any calls each entry records those that were about it: by induction on the calls, the last
of which either succeeds (`Entry.Records.edit`) or fails (`Entry.Records.failed`). -/
theorem entries_playList (hid : id.index < w.rosters.size) (hnew : (w.roster id).entries = [])
    (calls : List (ListCall ρ)) :
    ∀ e ∈ ((w.playList id calls).roster id).entries, e.Records w id calls := by
  induction calls using List.reverseRecOn with
  | nil =>
    intro e he
    change e ∈ (w.roster id).entries at he
    rw [hnew] at he
    cases he
  | append_singleton calls call ih =>
    obtain ⟨hkeys, hnodup, -⟩ := roster_playList hid hnew calls
    have hsize := lt_size_playList hid calls
    rw [playList_append_singleton]
    intro e he
    rcases callList_cases (w.playList id calls) hsize call with
      ⟨changed, hchange, hok, hroster⟩ | ⟨fault, hchange, hraise⟩
    -- the entry was there and is edited, or it is the one that the call adds
    · rw [hroster, Roster.entries_change hnodup hchange] at he
      rcases List.mem_append.1 he with hold | hfresh
      · obtain ⟨old, hmem, rfl⟩ := List.mem_map.1 hold
        exact (ih old hmem).edit hok
      · cases call with
        | place => cases hfresh
        | add entry provider =>
          rw [newEntries, hkeys] at hfresh
          split at hfresh
          case isTrue => cases hfresh
          case isFalse hmissing =>
            obtain rfl := List.mem_singleton.1 hfresh
            -- no earlier call was about it, for one that succeeded would have found it there
            exact .new fun call htarget hcall =>
              hmissing (mem_addedKeys_of_succeeded hid hnew hcall htarget)
    -- adding never fails, so this call provides nothing
    · have hnone : call.provides? e.key = none := by
        cases call with
        | add => cases hchange
        | place => rfl
      rw [hraise] at he
      refine (ih e he).failed hnone ?_
      rw [hraise]
      exact fun hok => nomatch hok

/-- After any calls on a new list it holds what they say, by `Roster.Records`. A further call on an
entry succeeds if the entry was added; else it fails with `entryNotFound`, and no list is
changed. -/
theorem list_records_calls (hid : id.index < w.rosters.size) (hnew : (w.roster id).entries = [])
    (calls : List (ListCall ρ)) :
    ((w.playList id calls).roster id).Records w id calls ∧
      ∀ (call : ListCall ρ) (entry : Key), call.target? = some entry →
        (entry ∈ addedKeys calls → ((w.playList id calls).callList id call).1 = .ok ()) ∧
        (entry ∉ addedKeys calls → ∃ fault, fault = .entryNotFound (w.roster id).list entry ∧
          fault.kind = .bindingNotFound ∧ ((w.playList id calls).callList id call).1 = .error fault ∧
          ((w.playList id calls).callList id call).2.rosters = (w.playList id calls).rosters) := by
  obtain ⟨hkeys, hnodup, -⟩ := roster_playList hid hnew calls
  have hlist := list_playList hid calls
  have hsize := lt_size_playList hid calls
  constructor
  · exact {
      list := hlist
      keys := hkeys
      nodup := hnodup
      entries := entries_playList hid hnew calls
      position := fun key place => Roster.position?_eq_some_iff hnodup
      contains := fun key => Roster.contains_iff
      size := (Roster.length_keys _).symm
      edges := Roster.within_edges _ }
  · intro call entry htarget
    rw [← hkeys]
    refine ⟨callList_of_mem hsize htarget, fun hmissing => ⟨_, rfl, rfl, ?_⟩⟩
    rw [callList_of_not_mem hsize htarget hmissing, hlist]
    exact ⟨rfl, rfl⟩

/-- Of the calls of `secondHistory` one asks too early to place an entry, and one provides anew for
an entry that was asked to stand after another. -/
theorem list_records_calls_of_second :
    (⟨0⟩ : RosterId).index < withNewList.rosters.size ∧ (withNewList.roster ⟨0⟩).entries = [] ∧
      ((withNewList.playList ⟨0⟩ secondHistory).roster ⟨0⟩).Records withNewList ⟨0⟩ secondHistory ∧
      ((withNewList.playList ⟨0⟩ secondHistory).callList ⟨0⟩
        (.place (.ofObject (.plain "entry") 1) .after (.ofObject (.plain "entry") 7))).1 = .ok () ∧
      ∃ fault, fault.kind = .bindingNotFound ∧
        ((withNewList.playList ⟨0⟩ secondHistory).callList ⟨0⟩
          (.place (.ofObject (.plain "entry") 7) .before (.ofObject (.plain "entry") 1))).1 = .error fault := by
  have hid : (⟨0⟩ : RosterId).index < withNewList.rosters.size := by decide
  obtain ⟨hrecords, hcalls⟩ := list_records_calls hid rfl secondHistory
  have hthere := (hcalls (.place (.ofObject (.plain "entry") 1) .after (.ofObject (.plain "entry") 7)) _ rfl).1
  have hmissing := (hcalls (.place (.ofObject (.plain "entry") 7) .before (.ofObject (.plain "entry") 1)) _ rfl).2
  obtain ⟨fault, -, hkind, hfails, -⟩ := hmissing (by decide +kernel)
  exact ⟨hid, rfl, hrecords, hthere (by decide +kernel), fault, hkind, hfails⟩

end World

end Wiring
