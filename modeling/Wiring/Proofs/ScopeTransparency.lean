import Wiring.Proofs.PlainProduction
import Wiring.Proofs.RegistryHistory

/-!
# Scopes make no difference to plain wiring

Resolving keys of plain wiring comes to what their meanings evaluate to by `Meanings.evaluate`,
whatever the scope of each binding is and whatever singletons have kept from before
(`resolve_comes`). A singleton keeps only what its key unwinds to (`World.Suits`), and the keys on
the stack when it is asked for all rest on that key, so what it skips would have come to the same
(`Meanings.evaluate_of_unwind`).

So a table with scopes and the same table without any come to the same outcomes
(`scope_transparency`).

* **`kept_comes`** and **`single_comes`** — a wrapper that keeps a value, and any wrapper at all.
* **`Setting.Denotes`** — a table that says what each registration means; by `effective_comes` its
  keys come to what they evaluate to.
-/

namespace Wiring

variable {ρ σ π : Type}

variable {host : Host ρ σ π} {s : Setting ρ σ π} {w : World ρ σ π} {opened : List Key}
variable {stack : ResolveStack} {key : Key} {r : Registration ρ} {expected : Except Fault (Value π)}

/-! ### Singletons -/

/-- The value that a singleton keeps is the one that is expected, for by `World.Suits` it is what
the key unwinds to. -/
theorem kept_comes (hcoherent : w.Coherent s opened) {object : Ref} (hsuits : w.Suits s key object)
    (hcached : ∀ depth value, s.table.unwind depth key = .ok value → expected = .ok value)
    {part : ((request : Request ρ σ π) → Run ρ σ π request.Answer) → Run ρ σ π (Except Fault Ref)}
    (hyields : host.Yields part w (.ok object) w) : host.Comes s opened part w expected := by
  obtain ⟨depth, value, hholds, hunwind⟩ := hsuits
  rw [hcached depth value hunwind]
  exact ⟨_, w, hyields, hcoherent, .refl w, rfl, .ok hholds⟩

/-- A singleton comes to what its delegate would come to, whether it keeps a value or not: by
`kept_comes`, or as its production does. -/
theorem single_comes (hview : s.view key = some r) (hscope : r.scope = .singleton)
    (hcoherent : w.Coherent s opened) (hstack : w.stack = stack) (hkey : key ∉ opened)
    (hcached : ∀ depth value, s.table.unwind depth key = .ok value → expected = .ok value)
    (hnew : ∀ value, expected = .ok value → ∃ depth, s.table.unwind depth key = .ok value)
    (hproduce : host.Serves s (opened ++ [key]) stack
      (fun answer => answer (.produce s.id r.provider)) expected) :
    host.Comes s opened
      (fun answer => Engine.single answer s.id (s.slots key) key key.type r.provider) w expected := by
  cases hslot : w.slot (s.slots key) with
  | filled object =>
    exact kept_comes hcoherent (hcoherent.filled key r hview hscope object hslot) hcached
      (.single_of_filled hslot)
  | busy => exact absurd (hcoherent.busy key r hview hscope hslot) hkey
  | empty =>
    obtain ⟨graph, hawait, hwaiting⟩ := hcoherent.awaitKey hkey
    obtain ⟨outcome, made, hyields, hmade, hextends, hkept, hshows⟩ :=
      hproduce _ (hwaiting.beginning hview hscope key.type) hstack
    -- what is kept is what is expected, and that is what the key unwinds to
    have hsuits (object : Ref) (hobject : outcome = .ok object) : made.Suits s key object := by
      subst hobject
      cases hshows with
      | @ok _ value hholds =>
        obtain ⟨depth, hunwind⟩ := hnew value rfl
        exact ⟨depth, value, hholds, hunwind⟩
    exact ⟨outcome, _, .single_of_empty hslot hawait hslot hyields,
      hmade.givenBack hview hscope hsuits, hextends, hkept,
      World.Shows.mono hshows (World.extends_of_objects rfl)⟩

/-! ### Keys -/

/-- Each registration has a provider of plain wiring, and the `table` says what it means by
`Provider.Means`. -/
structure Setting.Denotes (host : Host ρ σ π) (s : Setting ρ σ π) : Prop where
  bound : ∀ key r, s.view key = some r → ∃ m, s.table key = some m ∧ r.provider.Means host s.base m
  unbound : ∀ key, s.view key = none → s.table key = none

variable {bound : List Key} {room : Nat} {m : Meaning π}

/-- The effective provider of a key comes to what the key evaluates to, if what the key asks for
does so with the key on the stack, by `Serves`. -/
theorem effective_comes (hview : s.view key = some r) (hmeans : r.provider.Means host s.base m)
    (heval : s.table.evaluate (room + 1) stack key = m.result (s.table.evaluate room (stack ++ [key])))
    (hroomy : Meanings.Roomy s.table bound room stack) (hkey : key ∉ stack)
    (hopened : ∀ other ∈ opened, other ∈ stack)
    (hrests : ∀ passed ∈ stack, s.table.Rests passed key)
    (hresolve : ∀ more, (∀ other ∈ more, other ∈ stack ++ [key]) → ∀ used, m.uses used →
      host.Serves s more (stack ++ [key]) (fun answer => answer (.resolve s.id used))
        (s.table.evaluate room (stack ++ [key]) used)) :
    host.Serves s opened (stack ++ [key])
      (fun answer => answer (.produce s.id
        (Registration.wrapped r.scope (s.slots key) key r.provider)))
      (s.table.evaluate (room + 1) stack key) := by
  have hproduce (more : List Key) (hmore : ∀ other ∈ more, other ∈ stack ++ [key]) :
      host.Serves s more (stack ++ [key]) (fun answer => answer (.produce s.id r.provider))
        (s.table.evaluate (room + 1) stack key) := by
    rw [heval]
    exact produce_comes hmeans (hresolve more hmore)
  have hold : ∀ other ∈ opened, other ∈ stack ++ [key] :=
    fun other h => List.mem_append_left _ (hopened other h)
  cases hscope : r.scope with
  | noScope => exact hproduce opened hold
  | singleton =>
    intro w hcoherent hstack
    have hall : ∀ other ∈ opened ++ [key], other ∈ stack ++ [key] := by
      intro other h
      rcases List.mem_append.1 h with hopen | hlast
      · exact hold other hopen
      · exact List.mem_append_right _ hlast
    -- every key on the stack rests on this one, so what it unwinds to is what it evaluates to
    have hcached (depth : Nat) (value : Value π) (h : s.table.unwind depth key = .ok value) :
        s.table.evaluate (room + 1) stack key = .ok value :=
      Meanings.evaluate_of_unwind hroomy h hrests
    have hnew (value : Value π) (h : s.table.evaluate (room + 1) stack key = .ok value) :
        ∃ depth, s.table.unwind depth key = .ok value :=
      ⟨room + 1, Meanings.unwind_of_evaluate h⟩
    obtain ⟨outcome, after, hyields, hrest⟩ := single_comes hview hscope hcoherent hstack
      (fun h => hkey (hopened key h)) hcached hnew (hproduce (opened ++ [key]) hall)
    exact ⟨outcome, after, .produce hyields, hrest⟩

/-- Resolving a key comes to what the key evaluates to on the stack, whatever the scopes are and
whatever singletons keep, as long as the keys on the stack rest on it by `Meanings.Rests`. Induction
on the room. -/
theorem resolve_comes (hdenotes : s.Denotes host)
    (hroomy : Meanings.Roomy s.table bound room stack) (hopened : ∀ other ∈ opened, other ∈ stack)
    (hrests : ∀ passed ∈ stack, s.table.Rests passed key) :
    host.Serves s opened stack (fun answer => answer (.resolve s.id key))
      (s.table.evaluate (room + 1) stack key) := by
  induction room using Nat.strongRecOn generalizing stack opened key with
  | ind room ih =>
    -- each key that is asked for uses up one of the keys that the stack has yet to take
    intro w hcoherent hstack
    by_cases hkey : key ∈ stack
    · have hpush := World.pushKey_of_mem hstack hkey
      rw [Meanings.evaluate, if_pos hkey]
      exact ⟨_, _, .resolve_of_refused hpush, hcoherent.note _,
        World.extends_of_objects rfl, rfl, .error (.refl _)⟩
    · have hpush := World.pushKey_of_not_mem hstack hkey
      have hpushed := (hcoherent.switchTo w.thread (stack ++ [key])).note (.resolving key)
      have hpop : ResolveStack.pop (stack ++ [key]) = w.stack := by
        rw [ResolveStack.pop_append_singleton, hstack]
      cases hview : s.view key with
      | none =>
        have hprovider := hpushed.represents.providerOf_of_unbound hview
        rw [Meanings.evaluate, if_neg hkey, hdenotes.unbound key hview]
        exact ⟨_, _, .resolve_of_unbound hpush hprovider, (hpushed.note _).switchTo _ _,
          World.extends_of_objects rfl, hpop, .error (.refl _)⟩
      | some r =>
        obtain ⟨m, hm, hmeans⟩ := hdenotes.bound key r hview
        obtain ⟨less, rfl, hmore⟩ := hroomy.exists_room hm hkey
        have heval : s.table.evaluate (less + 1 + 1) stack key =
            m.result (s.table.evaluate (less + 1) (stack ++ [key])) := by
          rw [Meanings.evaluate, if_neg hkey, hm]
        have hprovider := hpushed.represents.providerOf_of_view hview
        have heffective := effective_comes hview hmeans heval hroomy hkey hopened hrests
          fun more hmoreopened used huses => ih less (Nat.lt_succ_self less) hmore hmoreopened ?_
        · obtain ⟨outcome, after, hyields, hafter, hextends, hkept, hshows⟩ :=
            heffective _ hpushed rfl
          refine ⟨outcome, after.popKey, .resolve_of_bound hpush hprovider hyields,
            hafter.switchTo _ _, hextends, ?_, ?_⟩
          · show ResolveStack.pop after.stack = w.stack
            rw [hkept]
            exact hpop
          · exact World.Shows.mono hshows (World.extends_of_objects rfl)
        · -- whatever rests on the key rests on what the key asks for
          have huse := Meanings.rests_of_uses hm huses
          intro passed hpassed
          rcases List.mem_append.1 hpassed with hold | hlast
          · exact (hrests passed hold).trans huse
          · rw [List.mem_singleton.1 hlast]
            exact huse

/-! ### Resolving keys one after the other -/

/-- Keys that are resolved one after the other, by `Code.resolveEach`, each come to what they
evaluate to on the empty stack. -/
theorem resolveEach_comes (hdenotes : s.Denotes host) (hroomy : Meanings.Roomy s.table bound room [])
    (hcoherent : w.Coherent s []) (hstack : w.stack = []) (keys : List Key) :
    ∃ outcomes after, host.Yields (fun answer => (Code.resolveEach s.id keys).run answer) w outcomes
        after ∧ w.Extends after ∧
      List.Forall₂ (fun key outcome => after.Shows outcome (s.table.evaluate (room + 1) [] key))
        keys outcomes := by
  induction keys generalizing w with
  | nil => exact ⟨[], w, .pure _ w, .refl w, .nil⟩
  | cons key rest ih =>
    have hnone : ∀ passed ∈ ([] : ResolveStack), s.table.Rests passed key := fun _ h => nomatch h
    obtain ⟨outcome, between, hfirst, hbetween, hextends, hkept, hshows⟩ :=
      resolve_comes hdenotes hroomy (fun _ h => h) hnone w hcoherent hstack
    obtain ⟨outcomes, after, hyields, hmore, hall⟩ := ih hbetween (hkept.trans hstack)
    refine ⟨outcome :: outcomes, after, ?_, hextends.trans hmore, .cons (hshows.mono hmore) hall⟩
    exact .andThen (.bind hfirst (.pure _ _)) (.andThen hyields (.pure _ _))

/-- The same registrations, none of them with a `Scope`. -/
def RegistryView.unscoped (view : RegistryView ρ) : RegistryView ρ :=
  fun key => (view key).map ({ · with scope := .noScope })

variable {bare : World ρ σ π} {id : InjectorId} {view : RegistryView ρ} {slots slots' : Key → SlotId}

/-- Whatever the scopes are, and whatever has been resolved before, resolving a key comes to what
resolving that key alone comes to where there are no scopes, in a world with the `SameWiring`. -/
theorem scope_transparency (hready : w.Ready id view slots) (hbare : bare.Ready id view.unscoped slots')
    (hsame : w.SameWiring bare)
    (hplain : ∀ key r, view key = some r → ∃ m, r.provider.Means host w m) (keys : List Key) :
    ∃ outcomes after,
      host.Yields (fun answer => (Code.resolveEach id keys).run answer) w outcomes after ∧
      List.Forall₂ (fun key outcome => ∃ alone last,
        host.Yields (fun answer => answer (.resolve id key)) bare alone last ∧
        Accord (fun object other => ∃ value, after.Holds object value ∧ last.Holds other value)
          outcome alone) keys outcomes := by
  have htable (key : Key) : ∃ entry : Option (Meaning π),
      (∀ r, view key = some r → ∃ m, entry = some m ∧ r.provider.Means host w m) ∧
      (view key = none → entry = none) := by
    cases hview : view key with
    | none => exact ⟨none, fun _ h => (nomatch h), fun _ => rfl⟩
    | some r =>
      obtain ⟨m, hm⟩ := hplain key r hview
      refine ⟨some m, ?_, fun h => (nomatch h)⟩
      rintro _ ⟨⟩
      exact ⟨m, rfl, hm⟩
  -- one table for both worlds: the meanings do not depend on the scopes
  choose table hbound hunbound using htable
  let withScopes : Setting ρ σ π := ⟨⟨w, id, view, slots⟩, table⟩
  let withoutScopes : Setting ρ σ π := ⟨⟨bare, id, view.unscoped, slots'⟩, table⟩
  have hwith : withScopes.Denotes host := ⟨hbound, hunbound⟩
  have hwithout : withoutScopes.Denotes host := by
    constructor
    · intro key r hview
      obtain ⟨r, hr, rfl⟩ := Option.map_eq_some_iff.1 hview
      obtain ⟨m, hm, hmeans⟩ := hbound key r hr
      exact ⟨m, hm, hmeans.transfer hsame⟩
    · intro key hview
      exact hunbound key (Option.map_eq_none_iff.1 hview)
  have hroomy : Meanings.Roomy table (w.injector id).bindings.keys
      (w.injector id).bindings.keys.length [] := by
    refine ⟨List.nodup_nil, fun _ h => (nomatch h), ?_, Nat.le_of_eq (Nat.zero_add _).symm⟩
    intro key hkey
    by_contra hmem
    have hnone := Table.get?_eq_none_iff.2 hmem
    rw [hready.represents.bindings key, Option.map_eq_none_iff] at hnone
    exact hkey (hunbound key hnone)
  obtain ⟨outcomes, after, hyields, -, hall⟩ :=
    resolveEach_comes hwith hroomy (hready.honours rfl) hready.stack keys
  refine ⟨outcomes, after, hyields, hall.imp fun key outcome hshows => ?_⟩
  obtain ⟨alone, last, halone, -, -, -, hlast⟩ :=
    resolve_comes hwithout hroomy (fun _ h => h) (fun _ h => nomatch h) bare (hbare.honours rfl)
      hbare.stack
  exact ⟨alone, last, halone, hshows.join hlast⟩

/-! ### Counters that count on from each other -/

def counter (number : Nat) : Key := .ofObject (.plain "Counter") number

def counters : Key := ⟨.list (.plain "Counter"), none⟩

def countedOut : Fault := .providerFailed (counter 3) "counted out"

/-- Counts on, but no further than to two, where the fault is `countedOut`. -/
def countOn : Value Nat → Except Fault (Value Nat)
  | .plain count =>
    if count < 2 then .ok (.plain (count + 1)) else .error countedOut
  | value => .ok value

/-- Counts on as `countOn` does, from what an object holds, in a new object. -/
def countOnFrom (object : Ref) : Option (Content Nat) → Code Unit Unit Nat (Except Fault Ref)
  | some (.plain count) =>
    if count < 2 then .ask (.act (.allocate (.plain (count + 1)))) fun next => pure (.ok next)
    else pure (.error countedOut)
  | _ => pure (.ok object)

/-- Each of its stages counts on by `countOnFrom`. -/
def countHost : Host Unit Unit Nat where
  make _ _ := pure (.ok default)
  stage _ _ object := .ask (.act (.read object)) (countOnFrom object)
  hook _ _ _ := pure (.ok ())
  kind _ := default
  imports _ := []
  configure _ _ := pure (.ok ())

theorem countHost_pureStage : countHost.PureStage () countOn := by
  intro id w object value hholds
  have hread {content : Content Nat} {outcome : Except Fault Ref} {after : World Unit Unit Nat}
      (hcontent : w.content? object = some content)
      (h : (countOnFrom object (some content)).Performs w outcome after) :
      (countHost.stage () id object).Performs w outcome after := by
    refine .act ?_
    show (countOnFrom object (w.content? object)).Performs w outcome after
    rwa [hcontent]
  cases hholds with
  | @plain _ count hcontent =>
    by_cases hlt : count < 2
    · refine ⟨.ok ⟨w.objects.size⟩, (w.allocate (.plain (count + 1))).2, hread hcontent ?_,
        w.grows_allocate _, ?_⟩
      · rw [countOnFrom, if_pos hlt]
        exact .act (.done _ _)
      · rw [countOn, if_pos hlt]
        exact .ok (.plain (w.content?_allocate _))
    · refine ⟨.error countedOut, w, hread hcontent ?_, .refl w, ?_⟩
      · rw [countOnFrom, if_neg hlt]
        exact .done _ w
      · rw [countOn, if_neg hlt]
        exact .error (.refl _)
  | list hcontent hlength helements =>
    exact ⟨_, w, hread hcontent (.done _ w), .refl w, .ok (.list hcontent hlength helements)⟩
  | map hcontent hnames hentries =>
    exact ⟨_, w, hread hcontent (.done _ w), .refl w, .ok (.map hcontent hnames hentries)⟩

/-- Two counts on from one, and three in vain from two; four asks for itself. -/
def countTable : World Unit Unit Nat × RegistryView Unit :=
  World.registerAll ⟨0⟩
    [.bindInstance (counter 1) (.plain 1), .bindProvider (counter 2) (.lookup (counter 1)) .singleton,
      .decorate (counter 2) (.routine ()), .bindProvider (counter 3) (.lookup (counter 2)) .singleton,
      .decorate (counter 3) (.routine ()), .bindProvider (counter 4) (.lookup (counter 4)) .singleton,
      .listBuilder counters, .changeScope counters .singleton]
    ({ injectors := #[{}], memory := () }, fun _ => none)

/-- The list of `countTable` has two entries, the second counter and the first. -/
def countWorld : World Unit Unit Nat :=
  (countTable.1.enrol ⟨0⟩ (counter 12) (.lookup (counter 2))).enrol ⟨0⟩ (counter 11)
    (.lookup (counter 1))

/-- The same as `countTable` without scopes. -/
def bareTable : World Unit Unit Nat × RegistryView Unit :=
  World.registerAll ⟨0⟩ ([counter 2, counter 3, counter 4, counters].map (.changeScope · .noScope))
    (countWorld, countTable.2)

def countKeys : List Key := [counter 1, counter 2, counter 3, counter 4, counters]

theorem countTable_of_not_mem {key : Key} (h : key ∉ countKeys) :
    countTable.2 key = none ∧ bareTable.2 key = none := by
  simp only [countKeys, List.mem_cons, List.not_mem_nil, or_false, not_or] at h
  obtain ⟨h1, h2, h3, h4, hlist⟩ := h
  have hcount : countTable.2 key = none := by
    simp [countTable, World.registerAll, RegistryCall.after, h1, h2, h3, h4, hlist]
  refine ⟨hcount, ?_⟩
  simp [bareTable, World.registerAll, RegistryCall.after, h2, h3, h4, hlist, hcount]

theorem bareTable_view : bareTable.2 = countTable.2.unscoped := by
  funext key
  by_cases hkey : key ∈ countKeys
  · simp only [countKeys, List.mem_cons, List.not_mem_nil, or_false] at hkey
    rcases hkey with rfl | rfl | rfl | rfl | rfl <;> rfl
  · obtain ⟨hcount, hbare⟩ := countTable_of_not_mem hkey
    rw [hbare, RegistryView.unscoped, hcount]
    rfl

theorem countWorld_ready : (∃ slots, countWorld.Ready ⟨0⟩ countTable.2 slots) ∧
    ∃ slots, bareTable.1.Ready ⟨0⟩ countTable.2.unscoped slots := by
  have hstart : World.RegistryHistory ⟨0⟩ ({ injectors := #[{}], memory := () } : World Unit Unit Nat)
      fun _ => none := .start _ Nat.zero_lt_one rfl
  have hcount : World.RegistryHistory ⟨0⟩ countWorld countTable.2 :=
    (hstart.registerAll _).meanwhile (by decide) rfl (Nat.le_refl _)
  obtain ⟨slots, hrep⟩ := hcount.represents
  obtain ⟨slots', hrep'⟩ := (hcount.registerAll _).represents
  have hempty (w : World Unit Unit Nat) (hslots : w.slots = Array.replicate 6 .empty) (slot : SlotId) :
      w.slot slot = .empty := by
    rw [World.slot, hslots, Array.getElem?_replicate]
    split
    · rfl
    · rfl
  refine ⟨⟨slots, hrep, fun _ => rfl, fun _ _ _ _ => hempty _ rfl _, rfl, rfl⟩, slots', ?_⟩
  rw [← bareTable_view]
  exact ⟨hrep', fun _ => rfl, fun _ _ _ _ => hempty _ rfl _, rfl, rfl⟩

theorem countTable_plain (key : Key) (r : Registration Unit) (h : countTable.2 key = some r) :
    ∃ m, r.provider.Means countHost countWorld m := by
  by_cases hkey : key ∈ countKeys
  · have hstages : countHost.StagesMean [.routine ()] _ := .routine countHost_pureStage .nil
    simp only [countKeys, List.mem_cons, List.not_mem_nil, or_false] at hkey
    rcases hkey with rfl | rfl | rfl | rfl | rfl
    · cases (show some _ = some r from h)
      exact ⟨_, .fixed (.plain rfl)⟩
    · cases (show some _ = some r from h)
      exact ⟨_, .decorating (.lookup (counter 1)) hstages⟩
    · cases (show some _ = some r from h)
      exact ⟨_, .decorating (.lookup (counter 2)) hstages⟩
    · cases (show some _ = some r from h)
      exact ⟨_, .lookup (counter 4)⟩
    · cases (show some _ = some r from h)
      have horder : (countWorld.roster ⟨0⟩).order = .ok
          [⟨counter 12, .lookup (counter 2), [], []⟩, ⟨counter 11, .lookup (counter 1), [], []⟩] := rfl
      refine ⟨.all [.lookup (counter 2), .lookup (counter 1)] .list, .list horder rfl ?_⟩
      intro index entry part hentry hpart
      match index with
      | 0 =>
        cases hentry
        cases hpart
        exact .lookup _
      | 1 =>
        cases hentry
        cases hpart
        exact .lookup _
      | _ + 2 => cases hentry
  · rw [(countTable_of_not_mem hkey).1] at h
    cases h

theorem countWorld_sameWiring : countWorld.SameWiring bareTable.1 := by
  have hrosters : bareTable.1.rosters = countWorld.rosters := rfl
  refine ⟨World.extends_of_objects rfl, fun id => ?_, rfl⟩
  rw [World.roster, World.roster, hrosters]
  exact .refl _

/-- The list and what it is made of, a counter that fails, and one that asks for itself, again and
again: each comes to the same in `countWorld` and in `bareTable`. -/
theorem scope_transparency_of_counters :
    ∃ slots slots', countWorld.Ready ⟨0⟩ countTable.2 slots ∧
      bareTable.1.Ready ⟨0⟩ countTable.2.unscoped slots' ∧ countWorld.SameWiring bareTable.1 ∧
      (∀ key r, countTable.2 key = some r → ∃ m, r.provider.Means countHost countWorld m) ∧
      ∃ outcomes after,
        countHost.Yields (fun answer => (Code.resolveEach ⟨0⟩
          [counters, counter 3, counter 2, counter 4, counter 3, counters]).run answer)
          countWorld outcomes after ∧
        List.Forall₂ (fun key outcome => ∃ alone last,
          countHost.Yields (fun answer => answer (.resolve ⟨0⟩ key)) bareTable.1 alone last ∧
          Accord (fun object other => ∃ value, after.Holds object value ∧ last.Holds other value)
            outcome alone)
          [counters, counter 3, counter 2, counter 4, counter 3, counters] outcomes := by
  obtain ⟨⟨slots, hready⟩, slots', hbare⟩ := countWorld_ready
  exact ⟨slots, slots', hready, hbare, countWorld_sameWiring, countTable_plain,
    scope_transparency hready hbare countWorld_sameWiring countTable_plain _⟩

end Wiring
