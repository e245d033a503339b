import Wiring.Proofs.Mismatches
import Wiring.Session.Routines
import Wiring.Session.Operations

/-!
# Type mismatches in runs

Each fault is noted when it arises. So the notes of a run tell that nothing in it brings up a
mismatch but calls that come to something else than the collection that they look for: the
mismatches noted are those of the calls that the run can be accounted for with (`World.Tallies`),
whatever the container does on its own account in between. Since bindings are stored under their own
keys in every state of every run, these are exact, and harmless (`type_mismatch_exact_harmless`).

Calls that are made of several are judged as a whole (`Collection.Exact`), by what one of them is
(`Collection.Sought`).

* **`Engine.obeys_tallied`** — the steps of the engine bring up no mismatch.
* **`Exact.of_loop`** — a call that is made of several is exact if each of them is sought;
  `exact_constrain` and `exact_putAll` are the two there are.
-/

namespace Wiring

variable {ρ σ π α : Type}

/-! ### What runs come to -/

/-- The mismatch of a call: one that it fails with by `Action.fault?`, or one that the host's own
code has found and reports. -/
def Call.mismatch? (call : Call ρ σ π) : Option Fault :=
  (call.action.reported?.or (call.action.fault? call.reply)).filter (·.kind = .typeMismatch)

namespace World

variable {w v after : World ρ σ π} {calls more : List (Call ρ σ π)}

/-- Of all that an action does, it notes the mismatch that it comes to, by `Call.mismatch?`. -/
theorem Keyed.mismatches_perform (hw : w.Keyed) (action : Action ρ σ π) :
    (action.perform w).2.mismatches = w.mismatches ++ (Call.mismatch? ⟨action, w⟩).toList := by
  cases hreported : action.reported? with
  | some fault =>
    cases action <;> cases hreported
    refine (mismatches_note w (.fault fault)).trans (congrArg (w.mismatches ++ ·) ?_)
    show (if fault.kind = .typeMismatch then some fault else none).toList =
      ((some fault).filter (·.kind = .typeMismatch)).toList
    simp [Option.filter]
  | none =>
    have hcall : Call.mismatch? ⟨action, w⟩ =
        (action.fault? (action.perform w).1).filter (·.kind = .typeMismatch) := by
      unfold Call.mismatch?
      rw [hreported]
      rfl
    rw [hcall]
    -- either this is a mismatch that the action comes to, or nothing that it notes is one
    by_cases hmeets : ∃ fault, action.Meets w fault
    · obtain ⟨fault, hfault⟩ := hmeets
      obtain ⟨hfails, hafter⟩ := Action.perform_of_meets hw hfault
      obtain ⟨c, id, key, _, _, rfl⟩ := hfault
      rw [hfails, hafter]
      exact mismatches_note w _
    · obtain ⟨hfault, hnotes⟩ := Action.matched_of_not_meets hw (not_exists.1 hmeets) hreported
      rw [hnotes]
      cases hfails : action.fault? (action.perform w).1 with
      | none => exact (List.append_nil _).symm
      | some fault => simp [Option.filter, hfault fault hfails]

/-- By the calls, as in `Passes`, the one world comes of the other, and the mismatches noted
meanwhile are those of the calls. -/
structure Tallies (w : World ρ σ π) (calls : List (Call ρ σ π)) (after : World ρ σ π) : Prop where
  passes : w.Passes calls after
  mismatches : w.Registered → after.mismatches = w.mismatches ++ calls.filterMap Call.mismatch?

namespace Tallies

theorem own (h : w.SameStock after) (hnotes : w.Matches after) : w.Tallies [] after where
  passes := .of_sameStock h
  mismatches _ := Eq.trans hnotes (List.append_nil _).symm

theorem trans (h : w.Tallies calls v) (h' : v.Tallies more after) : w.Tallies (calls ++ more) after where
  passes := h.passes.trans h'.passes
  mismatches hw := by
    rw [h'.mismatches (h.passes.registered hw), h.mismatches hw, List.filterMap_append, List.append_assoc]

theorem call (action : Action ρ σ π) (w : World ρ σ π) : w.Tallies [⟨action, w⟩] (action.perform w).2 where
  passes := (Passes.refl w).call action
  mismatches hw := by
    rw [hw.keyed.mismatches_perform action, List.filterMap_cons, List.filterMap_nil]
    cases Call.mismatch? ⟨action, w⟩ <;> rfl

instance : IsAccount (Tallies : World ρ σ π → List (Call ρ σ π) → World ρ σ π → Prop) where
  refl w := own (.refl w) (.refl w)
  trans := trans
  switchTo w thread stack := own (.switchTo w thread stack) (.of_log rfl)

end Tallies

end World

namespace Engine

open Run World

theorem tallied_now {f : World ρ σ π → α × World ρ σ π} (hstock : ∀ w, SameStock w (f w).2)
    (hnotes : ∀ w, Matches w (f w).2) : (Run.now f).Each (ToldBy Tallies) :=
  toldBy_now fun w => .own (hstock w) (hnotes w)

/-- The engine brings up no mismatch of its own: each of its steps is `ToldBy` an account that
`Tallies`. What it notes of one, an action might have reported. -/
theorem obeys_tallied : Engine.Obeys (ToldBy Tallies : (α : Type) →
    (World ρ σ π → Except Halt (α × World ρ σ π)) → Prop) where
  halt _ _ _ _ _ heq := nomatch heq
  act action w a after heq := by
    have hcall := Tallies.call action w
    rw [Except.ok.inj heq] at hcall
    exact ⟨_, hcall⟩
  note event w a after heq := by
    cases heq
    cases event
    case fault fault => exact ⟨_, .call (.report fault) w⟩
    all_goals exact ⟨[], .own (.note w _) (.note w rfl)⟩
  noteList _ _ := tallied_now (fun w => .note w _) fun w => .note w rfl
  hooks _ _ := tallied_now .refl .refl
  rows _ := tallied_now .refl .refl
  installed _ _ := tallied_now .refl .refl
  markInstalled id _ := tallied_now (fun w => .modifyInjector w id fun _ => rfl) fun _ => .of_log rfl
  ordered roster := tallied_now (SameStock.ordered · roster) fun w => (MatchedBy.ordered w roster).notes
  takeSlot _ := toldBy_takeSlot fun w => .own (.setSlot w _ _) (.of_log rfl)
  setSlot slot kept := tallied_now (SameStock.setSlot · slot kept) fun _ => .of_log rfl
  awaitKey id key := tallied_now (SameStock.awaitKey · id key) fun w => (MatchedBy.awaitKey w id key).notes
  stopAwaiting id _ := tallied_now (fun w => .setWaits w id _) fun _ => .of_log rfl
  startProducing id _ := tallied_now (fun w => .setWaits w id _) fun _ => .of_log rfl
  stopProducing id _ := tallied_now (fun w => .setWaits w id _) fun _ => .of_log rfl
  fork := tallied_now (fun _ => .of_eq rfl (Nat.le_refl _) rfl rfl rfl) fun _ => .of_log rfl
  switchTo _ _ := tallied_now (fun w => .switchTo w _ _) fun _ => .of_log rfl
  together steps _ h := toldBy_together
    (fun _ _ => .own (.of_eq rfl (Nat.le_refl _) rfl rfl rfl) (.of_log rfl)) h steps

end Engine

/-! ### Calls that are made of several

A handle asks the same of each of its entries, and several values are put into a map one by one, up to the first
fault. Such a call looks for the collection once for each of them, so not at all if there are none. -/

namespace World

/-- Bindings, kept values and the entries of collections are the same, in all injectors. -/
structure SameState (w after : World ρ σ π) : Prop where
  holdings : w.SameHoldings after
  rosters : after.rosters = w.rosters
  catalogs : after.catalogs = w.catalogs

end World

/-- The `RegistryCall` that is made for a builder. -/
def Collection.builds (key : Key) : Collection → RegistryCall ρ π
  | .list => .listBuilder key
  | .map => .mapBuilder key

theorem Action.registers_of_reaches {action : Action ρ σ π} {c : Collection} {id : InjectorId} {key : Key}
    (h : action.reaches = some (c, id, key)) : action.registers = some (id, c.builds key) := by
  cases action <;> cases h <;> rfl

namespace World

variable {w : World ρ σ π} {id : InjectorId} {key : Key} {c : Collection} {action : Action ρ σ π}

/-- A call that finds its collection leaves the key bound to it, so the key is not `Foreign` after
it. -/
theorem not_foreign_perform (hw : w.Registered) (hreaches : action.reaches = some (c, id, key))
    (h : ¬ c.Foreign w id key) : ¬ c.Foreign (action.perform w).2 id key := by
  by_cases hid : id.index < w.injectors.size
  · obtain ⟨place, hopened, _⟩ := Collection.opened_of_not_foreign hw.keyed h
    have hbound := Collection.BoundTo.of_opened hw hid hopened
    have hsame : (c.opened w id key).2.SameBindings (action.perform w).2 := by
      have hrest := (SameHoldings.perform_of_registers (w := w) (Action.registers_of_reaches hreaches)).sameBindings
      cases c <;> exact hrest
    obtain ⟨view, slots, r, hrep, hview, hbase⟩ := hbound
    have hafter := hrep.of_sameBindings hsame
    rintro ⟨binding, hget, hforeign⟩
    rw [hafter.get?_eq_some hview] at hget
    cases hget
    exact hforeign place hbase
  · -- there is no such injector, and none is made
    have hnew : action ≠ .newInjector := by
      rintro rfl
      cases hreaches
    have hnone : (action.perform w).2.injectors[id.index]? = none := by
      rw [Array.getElem?_eq_none_iff, injectors_perform w hnew]
      exact Nat.le_of_not_lt hid
    rintro ⟨binding, hget, _⟩
    rw [World.injector, hnone] at hget
    cases hget

end World

namespace Collection

/-- What is done looks for the collection of the key, and does nothing if the key is `Foreign` to
it. -/
structure Sought (c : Collection) (id : InjectorId) (key : Key)
    (step : World ρ σ π → Except Fault Unit × World ρ σ π) : Prop where
  refused : ∀ w, w.Registered → c.Foreign w id key →
    (step w).1 = .error (.typeMismatch key c.expected) ∧ w.SameState (step w).2
  found : ∀ w, w.Registered → ¬ c.Foreign w id key → (step w).2.Registered ∧ ¬ c.Foreign (step w).2 id key ∧
    ∀ fault, (step w).1 = .error fault → fault.kind ≠ .typeMismatch

/-- Whatever has been bound before, the call comes to an end. It fails with a mismatch just if it
has to look for the collection and the key is `Foreign` to it, and then it has changed nothing, by
`SameState`. -/
def Exact (c : Collection) (id : InjectorId) (key : Key) (idle : Prop)
    (call : World ρ σ π → Except Halt (Except Fault Unit × World ρ σ π)) : Prop :=
  ∀ w, w.Registered → ∃ reply after, call w = .ok (reply, after) ∧
    ∀ fault, fault.kind = .typeMismatch →
      (reply = .error fault ↔ ¬ idle ∧ c.Foreign w id key ∧ fault = .typeMismatch key c.expected) ∧
        (reply = .error fault → w.SameState after)

variable {c : Collection} {id : InjectorId} {key : Key}

theorem Sought.of_action (action : World ρ σ π → Action ρ σ π) (made : World ρ σ π → World ρ σ π)
    {step : World ρ σ π → Except Fault Unit × World ρ σ π}
    (hreaches : ∀ w, (action w).reaches = some (c, id, key)) (hmade : ∀ w : World ρ σ π, w.SameState (made w))
    (hregistered : ∀ w : World ρ σ π, w.Registered → (made w).Registered)
    (hfault : ∀ w fault, (action w).fault? ((action w).perform (made w)).1 = some fault ↔ (step w).1 = .error fault)
    (hafter : ∀ w, ((action w).perform (made w)).2 = (step w).2) : c.Sought id key step := by
  -- what is made first binds no key
  have hforeign (w : World ρ σ π) : c.Foreign (made w) id key ↔ c.Foreign w id key := by
    unfold Foreign World.injector
    rw [(hmade w).holdings.injectors]
  constructor
  · intro w hw h
    have hmeets : (action w).Meets (made w) (.typeMismatch key c.expected) :=
      ⟨c, id, key, hreaches w, (hforeign w).2 h, rfl⟩
    obtain ⟨hfails, hnoted⟩ := Action.perform_of_meets (hregistered w hw).keyed hmeets
    refine ⟨(hfault w _).1 hfails, ?_⟩
    rw [← hafter, hnoted]
    exact ⟨⟨(hmade w).holdings.injectors, (hmade w).holdings.slots⟩, (hmade w).rosters, (hmade w).catalogs⟩
  · intro w hw h
    have hmade : ¬ c.Foreign (made w) id key := fun hnot => h ((hforeign w).1 hnot)
    rw [← hafter]
    refine ⟨(hregistered w hw).perform (action w), World.not_foreign_perform (hregistered w hw) (hreaches w) hmade,
      fun fault hfails hkind => ?_⟩
    obtain ⟨_, _, _, hsame, hmeets, _⟩ :=
      (Action.fault?_eq_some_iff (hregistered w hw).keyed hkind).1 ((hfault w fault).2 hfails)
    cases (hreaches w).symm.trans hsame
    exact hmade hmeets

/-- Once the collection has been found, it is found again for each of the others, so a loop of steps
that are `Sought` is `Exact`. -/
theorem Exact.of_loop {ι : Type} (step : ι → World ρ σ π → Except Fault Unit × World ρ σ π)
    (loop : List ι → World ρ σ π → Except Halt (Except Fault Unit × World ρ σ π))
    (hstep : ∀ item, c.Sought id key (step item)) (hnil : ∀ w, loop [] w = .ok (.ok (), w))
    (hcons : ∀ item rest w, loop (item :: rest) w =
      match step item w with
      | (.error fault, v) => .ok (.error fault, v)
      | (.ok (), v) => loop rest v)
    (items : List ι) : c.Exact id key (items = []) (loop items) := by
  -- where the key is bound to no such thing, no step comes to a mismatch or binds it to one
  have hfound (items : List ι) (w : World ρ σ π) (hw : w.Registered) (h : ¬ c.Foreign w id key) :
      ∃ reply after, loop items w = .ok (reply, after) ∧
        ∀ fault, reply = .error fault → fault.kind ≠ .typeMismatch := by
    induction items generalizing w with
    | nil => exact ⟨_, _, hnil w, nofun⟩
    | cons item rest ih =>
      obtain ⟨hregistered, hstill, hfault⟩ := (hstep item).found w hw h
      rw [hcons]
      generalize step item w = outcome at hregistered hstill hfault
      obtain ⟨_ | _, v⟩ := outcome
      · exact ⟨_, _, rfl, hfault⟩
      · exact ih v hregistered hstill
  intro w hw
  by_cases h : c.Foreign w id key
  -- nobody looks the collection up unless there is something to do
  · cases items with
    | nil => exact ⟨_, _, hnil w, fun fault _ => ⟨⟨nofun, fun hnot => absurd rfl hnot.1⟩, nofun⟩⟩
    | cons item rest =>
      obtain ⟨hfails, hsame⟩ := (hstep item).refused w hw h
      rw [hcons]
      generalize step item w = outcome at hfails hsame
      obtain ⟨reply, v⟩ := outcome
      cases hfails
      refine ⟨_, _, rfl, fun fault _ => ⟨⟨fun heq => ?_, fun heq => ?_⟩, fun _ => hsame⟩⟩
      · cases heq
        exact ⟨nofun, h, rfl⟩
      · rw [heq.2.2]
  · obtain ⟨reply, after, hrun, hfault⟩ := hfound items w hw h
    refine ⟨reply, after, hrun, fun fault hkind => ⟨⟨fun heq => ?_, fun heq => ?_⟩, fun heq => ?_⟩⟩
    · exact absurd hkind (hfault fault heq)
    · exact absurd heq.2.1 h
    · exact absurd hkind (hfault fault heq)

end Collection

namespace Session.Script

variable {list map : Key} {id : InjectorId} {fuel : Nat}

/-- Something is asked of entries one by one, by an action for each of them, each of which is
`Sought`. -/
theorem exact_constrain {place : Key → Script (Except Fault Unit)}
    {step : Key → World Routine Memory Datum → Except Fault Unit × World Routine Memory Datum}
    (hstep : ∀ entry, Collection.list.Sought id list (step entry))
    (hplace : ∀ entry (next : Except Fault Unit → Script (Except Fault Unit)) w,
      (host.run (fuel + 1) (place entry >>= next)).run w =
        (host.run (fuel + 1) (next (step entry w).1)).run (step entry w).2) (entries : List Key) :
    Collection.list.Exact id list (entries = []) (host.run (fuel + 1) (constrain place entries)).run := by
  refine .of_loop step (fun entries => (host.run (fuel + 1) (constrain place entries)).run) hstep (fun _ => rfl)
    (fun entry rest w => (hplace entry _ w).trans ?_) entries
  generalize step entry w = outcome
  obtain ⟨_ | _, v⟩ := outcome <;> rfl

/-- What a handle asks of its entries by `Action.arrange`, on either `Side` of another. -/
theorem exact_constrain_arrange (entries : List Key) (side : Side) (other : Key) :
    Collection.list.Exact id list (entries = [])
      (host.run (fuel + 1) (constrain (fun entry => Code.act (.arrange id list entry side other)) entries)).run := by
  refine exact_constrain (fun entry => ?_) (fun _ _ _ => rfl) entries
  exact .of_action (fun _ => .arrange id list entry side other) (fun w => w) (fun _ => rfl)
    (fun w => ⟨.refl w, rfl, rfl⟩) (fun _ hw => hw) (fun _ _ => Action.faultOf_eq_some) fun _ => rfl

theorem run_allocate (content : Content Datum) (next : Ref → Script (Except Fault Unit))
    (w : World Routine Memory Datum) :
    (host.run (fuel + 1) (allocate content >>= next)).run w =
      (host.run (fuel + 1) (next (w.allocate content).1)).run (w.allocate content).2 :=
  rfl

theorem run_contributeNamed (name : String) (p : Provider Routine)
    (next : Except Fault Unit → Script (Except Fault Unit)) (w : World Routine Memory Datum) :
    (host.run (fuel + 1) (Code.act (.contributeNamed id map name p) >>= next)).run w =
      (host.run (fuel + 1) (next (w.contributeNamed id map name p).1)).run (w.contributeNamed id map name p).2 :=
  rfl

/-- Several values are put into a map by `putAll`, one by one. -/
theorem exact_putAll (kind : Kind) (rows : List (String × Content Datum)) :
    Collection.map.Exact id map (rows = []) (host.run (fuel + 1) (putAll id map kind rows)).run := by
  refine .of_loop
    (fun row w => (w.allocate row.2).2.contributeNamed id map row.1 (.completing kind.type (w.allocate row.2).1))
    (fun rows => (host.run (fuel + 1) (putAll id map kind rows)).run) (fun row => ?_) (fun _ => rfl)
    (fun row rest w => ?_) rows
  · exact .of_action (fun w => .contributeNamed id map row.1 (.completing kind.type (w.allocate row.2).1))
      (fun w => (w.allocate row.2).2) (fun _ => rfl) (fun _ => ⟨⟨rfl, rfl⟩, rfl, rfl⟩)
      (fun _ hw => hw.perform (.allocate row.2)) (fun _ _ => Action.faultOf_eq_some) fun _ => rfl
  · -- a new object for the value, and the entry with it
    refine (run_allocate row.2 _ w).trans ((run_contributeNamed row.1 _ _ _).trans ?_)
    generalize World.contributeNamed _ _ _ _ _ = outcome
    obtain ⟨_ | _, v⟩ := outcome <;> rfl

end Session.Script

/-! ### In every run -/

/-- What holds of mismatches in a state of a run, by `Action.Meets`. -/
structure World.ExactlyTyped (w : World ρ σ π) : Prop where
  /-- Each binding is one of its key's own type, for it is stored under its own key (`Keyed`). -/
  keyed : w.Keyed
  /-- So whoever looks a key up by `Injector.find` finds what is bound under it, whatever for. -/
  found : ∀ id key, (w.injector id).find key = .ok ((w.injector id).bindings.get? key)
  exact : ∀ (action : Action ρ σ π) fault, fault.kind = .typeMismatch →
    (action.fault? (action.perform w).1 = some fault ↔ action.Meets w fault)
  /-- A call that comes to something else by `Meets` leaves all as it was, but for the line in the
  log. -/
  harmless : ∀ (action : Action ρ σ π) fault, action.Meets w fault → (action.perform w).2 = w.note (.fault fault)

theorem World.Registered.exactlyTyped {w : World ρ σ π} (h : w.Registered) : w.ExactlyTyped where
  keyed := h.keyed
  found := h.keyed.find_eq
  exact _ _ := Action.fault?_eq_some_iff h.keyed
  harmless _ _ hmeets := (Action.perform_of_meets h.keyed hmeets).2

/-- A mismatch is exact and harmless in every state of every run (`ExactlyTyped`), however its
threads take turns and whatever keys are bound to meanwhile. Each run has an account, the calls in
it fail with a mismatch just if they come to a key that is bound to something else than the
collection that they look for, and of all that the run does nothing else brings up a mismatch,
unless the host's own code does. Calls that are made of several are `Exact` as a whole. -/
theorem type_mismatch_exact_harmless (host : Host ρ σ π) {w : World ρ σ π} (hw : w.Registered) (fuel : Nat)
    (codes : List (Code ρ σ π α)) :
    let start := Threads.start w (codes.map (host.run fuel))
    (∀ t : Threads ρ σ π α, start.Reaches t → t.world.ExactlyTyped ∧
      ∃ calls, start.AccountedBy World.Passes calls t ∧ (∀ call ∈ calls, call.before.ExactlyTyped) ∧
        t.world.mismatches = w.mismatches ++ calls.filterMap Call.mismatch?) ∧
    ∀ less id list map (entries : List Key) side other kind (rows : List (String × Content Session.Datum)),
      Collection.list.Exact id list (entries = []) (Session.host.run (less + 1)
        (Session.Script.constrain (fun entry => Code.act (.arrange id list entry side other)) entries)).run ∧
      Collection.map.Exact id map (rows = [])
        (Session.host.run (less + 1) (Session.Script.putAll id map kind rows)).run := by
  intro start
  refine ⟨fun t ht => ?_, fun less id list map entries side other kind rows => ⟨?_, ?_⟩⟩
  · have hsteps : start.Each (Run.ToldBy World.Tallies) := by
      refine Threads.each_start (fun task htask => ?_) w
      obtain ⟨code, _, rfl⟩ := List.mem_map.1 htask
      exact Run.composes_each.code (host.each_answer Engine.obeys_tallied fuel) code
    obtain ⟨⟨calls, haccounted⟩, _⟩ := Threads.accountedBy_of_reaches hsteps ht
    have hstart : start.world.Registered :=
      (World.Passes.of_sameStock (Threads.sameStock_start w _)).registered hw
    have htallies := haccounted.told
    refine ⟨(htallies.passes.registered hstart).exactlyTyped, calls, haccounted.mono fun h => h.passes, ?_,
      htallies.mismatches hstart⟩
    intro call hcall
    obtain ⟨earlier, later, rfl⟩ := List.append_of_mem hcall
    exact (htallies.passes.split.1.registered hstart).exactlyTyped
  · exact Session.Script.exact_constrain_arrange entries side other
  · exact Session.Script.exact_putAll kind rows

/-! ### A builder that outlives its list

The first thread has a builder for a list. The second binds the key anew, to a plain object that is kept and
decorated, and then the builder adds an entry. -/

def outlivedCodes : List (Code Unit Unit Unit Unit) :=
  [ do
      let _ ← Code.act (.openList ⟨0⟩ laundry)
      let _ ← Code.act (.contribute ⟨0⟩ laundry wash (.lookup wash)),
    do
      Code.act (.bind ⟨0⟩ laundry (.fixed ⟨0⟩) .singleton)
      let _ ← Code.act (.decorate ⟨0⟩ laundry (.routine ())) ]

/-- The states from the start on, the first and the second thread taking turns by `Threads.step`. -/
def outlivedAfter (turns : List Nat) : Threads Unit Unit Unit Unit :=
  turns.foldl .turn (.start oneInjector (outlivedCodes.map (idleHost.run 1)))

theorem Threads.Reaches.turn {s t : Threads ρ σ π α} (h : s.Reaches t) (index : Nat)
    (hstep : t.step index = .ok (t.turn index)) : s.Reaches (t.turn index) :=
  .step h hstep

theorem outlived_reaches : (outlivedAfter []).Reaches (outlivedAfter [0, 1, 1, 0]) := by
  have hstart : (outlivedAfter []).Reaches (outlivedAfter []) := .refl
  have hopened := hstart.turn 0 rfl
  have hbound := hopened.turn 1 rfl
  have hdecorated := hbound.turn 1 rfl
  exact hdecorated.turn 0 rfl

/-- The builder is refused, once, and what is bound now stays so, in all states of
`outlivedAfter`. -/
theorem type_mismatch_exact_harmless_of_outlived :
    oneInjector.Registered ∧ (outlivedAfter []).Reaches (outlivedAfter [0, 1, 1, 0]) ∧
      (outlivedAfter [0, 1, 1, 0]).world.ExactlyTyped ∧
      (∃ calls, (outlivedAfter []).AccountedBy World.Passes calls (outlivedAfter [0, 1, 1, 0]) ∧
        calls.filterMap Call.mismatch? = [.typeMismatch laundry "ListProvider"]) ∧
      (Action.contribute ⟨0⟩ laundry wash (.lookup wash)).Meets (outlivedAfter [0, 1, 1, 0]).world
        (.typeMismatch laundry "ListProvider") := by
  obtain ⟨htyped, calls, haccounted, -, hnoted⟩ :=
    (type_mismatch_exact_harmless idleHost oneInjector_registered 1 outlivedCodes).1 _ outlived_reaches
  refine ⟨oneInjector_registered, outlived_reaches, htyped, ⟨calls, haccounted, ?_⟩, ?_⟩
  · have hnow : (outlivedAfter [0, 1, 1, 0]).world.mismatches = [.typeMismatch laundry "ListProvider"] := by
      decide +kernel
    have hbefore : oneInjector.mismatches = [] := rfl
    rw [hbefore, hnow] at hnoted
    exact hnoted.symm
  · exact (htyped.exact (.contribute ⟨0⟩ laundry wash (.lookup wash)) _ rfl).1 (by decide +kernel)

end Wiring
