import Wiring.Proofs.Assemblies
import Wiring.Proofs.WorkingSingletons

/-!
# Builders

A builder holds an injector and a key and nothing else: with each call it looks up what the key is
bound to. So builders share what they add, whenever they were made, as long as they find the same
collection. They do: a key that is bound to a collection stays bound to it, whatever scopes and
stages it gets, until it is bound anew (`Collection.BoundTo.passes`). Whatever is added through the
key is accepted, an object without a key under a key of its own (`Collection.Fulfills`), and it is
in the collection from then on. `Collection.Keeps` collects what follows for those who hold
builders, and `builders_lose_nothing` says that it holds in every state of every run.

* **`Collection.BoundTo.of_opened`** — whoever gets a builder finds the key bound to a collection
  then.
* **`Collection.fulfills_of_opened`** — while the key leads there, each call through it is accepted
  and replies with the keys that it has added.
* **`Collection.opened_of_contains`** — a builder for a key that is bound changes nothing, or fails.
-/

namespace Wiring

variable {ρ σ π α : Type}

namespace Collection

/-- The key is bound to the collection whose entries are at the place: the base of its registration
is `Collection.provider` of that place. -/
def BoundTo (c : Collection) (w : World ρ σ π) (id : InjectorId) (key : Key) (place : c.Place) : Prop :=
  ∃ view slots r, w.Represents id view slots ∧ view key = some r ∧ r.base = c.provider place

/-- A builder finds the collection that its key was bound to, by `World.baseOr_of_bound`, and
changes nothing. -/
theorem opened_of_base {c : Collection} {w : World ρ σ π} {id : InjectorId} {key : Key}
    {binding : Binding ρ} {place : c.Place} (hfind : (w.injector id).find key = .ok (some binding))
    (hbase : binding.base = c.provider place) : c.opened w id key = (.ok place, w) := by
  cases c with
  | list =>
    unfold opened World.openList
    simp only [World.baseOr_of_bound hfind, hbase]
    rfl
  | map =>
    unfold opened World.openMap
    simp only [World.baseOr_of_bound hfind, hbase]
    rfl

/-- A builder of a key that is bound finds what it is bound to, or fails with a `typeMismatch`; it
changes nothing but the log. -/
theorem opened_of_contains (c : Collection) (w : World ρ σ π) (id : InjectorId) (key : Key)
    (h : (w.injector id).contains key = true) :
    (c.opened w id key).2 = w ∨ ∃ fault, c.opened w id key = w.raise fault := by
  -- which collection would be made does not matter, for the key is bound
  have hbase (create : World ρ σ π → Provider ρ × World ρ σ π) :
      (∃ base, w.baseOr id key create = (.ok base, w)) ∨
        ∃ fault, w.baseOr id key create = w.raise fault := by
    cases hfind : (w.injector id).find key with
    | error fault => exact .inr ⟨fault, World.baseOr_of_fault hfind create⟩
    | ok found =>
      cases found with
      | some binding => exact .inl ⟨binding.base, World.baseOr_of_bound hfind create⟩
      | none =>
        rw [Injector.contains, Table.contains, Injector.get?_of_find_none hfind] at h
        cases h
  cases c with
  | list =>
    unfold opened World.openList
    obtain ⟨base, heq⟩ | ⟨fault, heq⟩ := hbase fun w =>
      (.list (w.newRoster key).1, (w.newRoster key).2)
    · simp only [heq]
      cases base with
      | list roster => exact .inl rfl
      | _ => exact .inr ⟨_, rfl⟩
    · simp only [heq]
      exact .inr ⟨fault, rfl⟩
  | map =>
    unfold opened World.openMap
    obtain ⟨base, heq⟩ | ⟨fault, heq⟩ := hbase fun w =>
      (.map (w.newCatalog key).1, (w.newCatalog key).2)
    · simp only [heq]
      cases base with
      | map catalog => exact .inl rfl
      | _ => exact .inr ⟨_, rfl⟩
    · simp only [heq]
      exact .inr ⟨fault, rfl⟩

/-- A collection that is made for the key exists from then on, by `Collection.Known`. -/
theorem known_of_opened {c : Collection} {w : World ρ σ π} {id : InjectorId} {key : Key}
    {place : c.Place} (h : (c.opened w id key).1 = .ok place)
    (hbound : (w.injector id).contains key = true → c.Known w place) :
    c.Known (c.opened w id key).2 place := by
  by_cases hcontains : (w.injector id).contains key = true
  · have hspares : c.Spares w (c.opened w id key).2 := by
      cases c with
      | list => exact (Spares.registryFrame id).openList w key
      | map => exact (Spares.registryFrame id).openMap w key
    exact (hspares place (hbound hcontains)).1
  -- the key is not bound, so the collection is a new one
  have hnone : (w.injector id).bindings.get? key = none := by
    rwa [Injector.contains, Table.contains, Bool.not_eq_true, Option.isSome_eq_false_iff,
      Option.isNone_iff_eq_none] at hcontains
  have hfind : (w.injector id).find key = .ok none := by
    unfold Injector.find
    rw [hnone]
  cases c with
  | list =>
    unfold opened World.openList World.baseOr at h ⊢
    simp only [hfind] at h ⊢
    cases h
    show w.rosters.size < (w.rosters.push { list := key }).size
    rw [Array.size_push]
    exact Nat.lt_succ_self _
  | map =>
    unfold opened World.openMap World.baseOr at h ⊢
    simp only [hfind] at h ⊢
    cases h
    show w.catalogs.size < (w.catalogs.push { map := key }).size
    rw [Array.size_push]
    exact Nat.lt_succ_self _

namespace BoundTo

variable {c : Collection} {w after : World ρ σ π} {id : InjectorId} {key : Key} {place : c.Place}
variable {calls : List (Call ρ σ π)}

/-- What a builder is made for, its key is bound to: it was before, or it has been bound to a new
collection. -/
theorem of_opened (hw : w.Registered) (hid : id.index < w.injectors.size)
    (h : (c.opened w id key).1 = .ok place) : c.BoundTo (c.opened w id key).2 id key place := by
  obtain ⟨view, slots, hrep⟩ := hw id hid
  have hfind := hrep.find key
  cases c with
  | list =>
    obtain ⟨slots', hafter⟩ := (RegistryCall.effect hrep (.listBuilder key)).represents
    refine ⟨_, slots', (view key).getD ⟨.list ⟨w.rosters.size⟩, [], .noScope⟩, hafter,
      Function.update_self _ _ _, ?_⟩
    change (w.openList id key).1 = .ok place at h
    unfold World.openList World.baseOr at h
    rw [hfind] at h
    -- the key is bound to the new list, or its base is a list already
    cases hview : view key with
    | none =>
      rw [hview] at h
      cases h
      rfl
    | some r =>
      obtain ⟨base, stages, scope⟩ := r
      rw [hview] at h
      cases base <;> cases h
      rfl
  | map =>
    obtain ⟨slots', hafter⟩ := (RegistryCall.effect hrep (.mapBuilder key)).represents
    refine ⟨_, slots', (view key).getD ⟨.map ⟨w.catalogs.size⟩, [], .noScope⟩, hafter,
      Function.update_self _ _ _, ?_⟩
    change (w.openMap id key).1 = .ok place at h
    unfold World.openMap World.baseOr at h
    rw [hfind] at h
    cases hview : view key with
    | none =>
      rw [hview] at h
      cases h
      rfl
    | some r =>
      obtain ⟨base, stages, scope⟩ := r
      rw [hview] at h
      cases base <;> cases h
      rfl

/-- It stays bound to it as long as no call `Binds` it, by `Passes.represents`. -/
theorem passes (h : c.BoundTo w id key place) (hpasses : w.Passes calls after)
    (hbinds : ∀ call ∈ calls, ¬ call.action.Binds id key) : c.BoundTo after id key place := by
  obtain ⟨view, slots, r, hrep, hview, hbase⟩ := h
  obtain ⟨view', slots', hafter, hkept⟩ := hpasses.represents hrep
  exact ⟨view', slots', _, hafter, hkept key r hview hbinds, hbase⟩

theorem opened_eq (h : c.BoundTo w id key place) : c.opened w id key = (.ok place, w) := by
  obtain ⟨view, slots, r, hrep, hview, hbase⟩ := h
  have hfind := hrep.find key
  rw [hview] at hfind
  exact opened_of_base hfind hbase

theorem changeScope (h : c.BoundTo w id key place) (scope : Scope) :
    (w.changeScope id key scope).1 = .ok () := by
  obtain ⟨view, slots, r, hrep, hview, _⟩ := h
  have hends := (RegistryCall.effect hrep (.changeScope key scope)).ends
  have hne : ¬ view key = none := by simp [hview]
  exact hends.trans (if_neg hne)

theorem providerOf (h : c.BoundTo w id key place) : ∃ stages scope slot, w.providerOf id key =
    (.ok (Registration.wrapped scope slot key
      (⟨c.provider place, stages, scope⟩ : Registration ρ).provider), w) := by
  obtain ⟨view, slots, ⟨base, stages, scope⟩, hrep, hview, hbase⟩ := h
  refine ⟨stages, scope, slots key, ?_⟩
  have hprovider := hrep.providerOf_of_view hview
  rw [← hbase]
  exact hprovider

end BoundTo

/-- What a call through a key comes to in `w`, when the entries are at the place: whatever is added is accepted.
An object that is added without a key is added under the key of its `number`, and contents become new objects
that hold them, one for each. A request for an order is granted if the entry that is to be placed is there. -/
def Fulfills (number : Ref → Nat) (w : World ρ σ π) : (c : Collection) → c.Place → Action ρ σ π → Prop
  | .list, _, .contribute id key entry p => (w.contribute id key entry p).1 = .ok ()
  | .list, _, .contributeObject id key object =>
    (w.contributeObject id key object).1 = .ok (.ofObject key.type.element (number object))
  | .list, _, .contributeAll id key contents =>
    (w.contributeAll id key contents).1 =
        .ok ((w.newObjects contents.length).map fun object => .ofObject key.type.element (number object)) ∧
      List.Forall₂ (fun object content => (w.contributeAll id key contents).2.content? object = some content)
        (w.newObjects contents.length) contents
  | .list, place, .arrange id key entry side other =>
    (w.arrange id key entry side other).1 = .ok () ↔ entry ∈ (w.roster place).keys
  | .map, _, .contributeNamed id key name p => (w.contributeNamed id key name p).1 = .ok ()
  | _, _, _ => True

/-- Where the key leads to the place, calls through it are fulfilled. What is added goes through
`World.withList` to the roster; the keys are those of `keys_enrolAll`. -/
theorem fulfills_of_opened {c : Collection} {w : World ρ σ π} {id : InjectorId} {key : Key} {place : c.Place}
    {action : Action ρ σ π} {number : Ref → Nat} (hthrough : c.through action = some (id, key))
    (hopened : c.opened w id key = (.ok place, w)) (hnumber : (action.perform w).2.NumberedBy number) :
    c.Fulfills number w place action := by
  cases c with
  | list =>
    have hlist {α : Type} (rest : RosterId → World ρ σ π → Except Fault α × World ρ σ π) :
        w.withList id key rest = rest place w := by
      change w.openList id key = (.ok place, w) at hopened
      unfold World.withList
      rw [hopened]
    cases action
    case contribute list entry p =>
      cases hthrough
      exact congrArg Prod.fst (hlist _)
    case contributeObject list object =>
      cases hthrough
      change (w.contributeObject id key object).2.NumberedBy number at hnumber
      show (w.contributeObject id key object).1 = _
      unfold World.contributeObject at hnumber ⊢
      rw [hlist] at hnumber ⊢
      rw [hnumber.entryNumber (World.KeepsNumbers.rosterFrame.enrol _ place _ _)]
      rfl
    case contributeAll list contents =>
      cases hthrough
      have hall : w.contributeAll id key contents =
          (.ok (w.enrolAll place key.type.element contents).1,
            (w.enrolAll place key.type.element contents).2) := hlist _
      change (w.contributeAll id key contents).2.NumberedBy number at hnumber
      show (w.contributeAll id key contents).1 = _ ∧ _
      rw [hall] at hnumber ⊢
      exact ⟨congrArg Except.ok (w.keys_enrolAll place _ contents hnumber),
        w.contents_enrolAll place _ contents⟩
    case arrange list entry side other =>
      cases hthrough
      have hplace : w.arrange id key entry side other = w.place place entry side other := hlist _
      show (w.arrange id key entry side other).1 = .ok () ↔ _
      rw [hplace]
      exact w.place_granted_iff place entry side other
    all_goals cases hthrough
  | map =>
    cases action
    case contributeNamed map name p =>
      cases hthrough
      change w.openMap id key = (.ok place, w) at hopened
      show (w.contributeNamed id key name p).1 = .ok ()
      unfold World.contributeNamed
      rw [hopened]
    all_goals cases hthrough

/-- What holds for the builders of a key, once there has been one: the entries are at the place, `start`
is the world in which there were builders first, and `calls` are those since. -/
structure Keeps (c : Collection) (host : Host ρ σ π) (id : InjectorId) (key : Key) (place : c.Place)
    (start : World ρ σ π) (calls : List (Call ρ σ π)) (w : World ρ σ π) : Prop where
  /-- Whoever makes or uses a builder finds the same entries, and changes nothing by that. -/
  opened : c.opened w id key = (.ok place, w)
  /-- The collection can be given any scope, and is the same collection afterwards. -/
  rescoped : ∀ scope, (w.changeScope id key scope).1 = .ok ()
  /-- `World.numbering` tells objects apart that are added without a key, and an object keeps the number that
  it has been given. -/
  numbered : ∀ more u, w.Passes more u →
    (∀ type, Function.Injective fun object => Key.ofObject type (u.numbering object)) ∧
      w.NumberedBy u.numbering
  /-- Each call through the key has been fulfilled, by `Fulfills`, and each later one is until the
  key is bound anew. -/
  fulfilled : ∀ more u, w.Passes more u → (∀ call ∈ more, ¬ call.action.Binds id key) →
    ∀ call ∈ calls ++ more, c.through call.action = some (id, key) →
      c.Fulfills u.numbering call.before place call.action
  /-- As long as nobody else contributes to them (`SolelyThrough`), the entries are now and later
  those at the start with what was contributed through the key, call by call (`gathered`). -/
  gathered : ∀ more u, w.Passes more u → (∀ call ∈ more, ¬ call.action.Binds id key) →
    (∀ call ∈ calls ++ more, c.SolelyThrough id key place call) →
      c.collect (c.table start place) (c.gathered u.numbering id key (calls ++ more)) = .ok (c.table u place)
  /-- A production of the key that begins now gives what its singleton keeps, is refused a wait that
  would never end, or assembles the entries that there are at one moment of it. -/
  produced : ∃ stages scope slot,
    let effective := Registration.wrapped scope slot key
      (⟨c.provider place, stages, scope⟩ : Registration ρ).provider
    w.providerOf id key = (.ok effective, w) ∧ ∀ fuel during outcome after,
      (host.answer fuel (.produce id effective)).ComesTo w during outcome after →
        c.Produces host id key place stages scope slot w during outcome

/-- Once a key is bound to a collection, its builders keep what is contributed: each field of
`Keeps` from `BoundTo.passes`, so `collect_gathered` and `fulfills_of_opened` apply to all calls. -/
theorem BoundTo.keeps {c : Collection} {start w : World ρ σ π} {id : InjectorId} {key : Key}
    {place : c.Place} {calls : List (Call ρ σ π)} (h : c.BoundTo start id key place)
    (hknown : c.Known start place) (hpasses : start.Passes calls w)
    (hbinds : ∀ call ∈ calls, ¬ call.action.Binds id key) (host : Host ρ σ π) :
    c.Keeps host id key place start calls w := by
  have hbound : c.BoundTo w id key place := h.passes hpasses hbinds
  -- at each call the key leads to the place, for it has not been bound anew before
  have hopened {more : List (Call ρ σ π)} {u : World ρ σ π} (hmore : w.Passes more u)
      (hbindsMore : ∀ call ∈ more, ¬ call.action.Binds id key) :
      ∀ call ∈ calls ++ more, c.opened call.before id key = (.ok place, call.before) ∧
        (call.action.perform call.before).2.KeepsNumbers u := by
    have hall : ∀ call ∈ calls ++ more, ¬ call.action.Binds id key := by
      intro call hcall
      rcases List.mem_append.1 hcall with hcall | hcall
      · exact hbinds call hcall
      · exact hbindsMore call hcall
    intro call hcall
    obtain ⟨earlier, later, hsplit⟩ := List.append_of_mem hcall
    have hboth := hpasses.trans hmore
    rw [hsplit] at hboth hall
    obtain ⟨hbefore, hafter⟩ := hboth.split
    have hkept := h.passes hbefore fun call hcall => hall call (List.mem_append_left _ hcall)
    exact ⟨hkept.opened_eq, hafter.keepsNumbers⟩
  refine ⟨hbound.opened_eq, hbound.changeScope, ?numbered, ?fulfilled, ?gathered, ?produced⟩
  case numbered =>
    intro more u hmore
    refine ⟨fun type => (Key.ofObject_injective type).comp u.numbering_injective, ?_⟩
    exact u.numberedBy_numbering.of_keeps hmore.keepsNumbers
  case fulfilled =>
    intro more u hmore hbindsMore call hcall hthrough
    obtain ⟨hfound, hkeeps⟩ := hopened hmore hbindsMore call hcall
    exact fulfills_of_opened hthrough hfound (u.numberedBy_numbering.of_keeps hkeeps)
  case gathered =>
    intro more u hmore hbindsMore hsolely
    have hfound : ∀ call ∈ calls ++ more, (c.opened call.before id key).1 = .ok place :=
      fun call hcall => congrArg Prod.fst (hopened hmore hbindsMore call hcall).1
    exact (collect_gathered (hpasses.trans hmore) u.numberedBy_numbering hknown hfound hsolely).2
  case produced =>
    obtain ⟨stages, scope, slot, hprovider⟩ := hbound.providerOf
    exact ⟨stages, scope, slot, hprovider, fun _ _ _ _ => produces_of_comesTo⟩

end Collection

/-- Builders never lose contributions, to lists or to maps: in every run, however its threads take
turns, and however scopes are changed, values decorated and singletons let go in between. Every
state of it has an account (`Threads.Accounted`), and alongside the calls in it each thread is a
computation, productions among them. What was contributed is told by the calls and the numbers of
objects, not by the replies. -/
theorem builders_lose_nothing (c : Collection) (host : Host ρ σ π) {w : World ρ σ π} (hw : w.Registered)
    (fuel : Nat) (codes : List (Code ρ σ π α)) :
    let start := Threads.start w (codes.map (host.run fuel))
    (∀ t : Threads ρ σ π α, start.Reaches t → ∃ calls, start.Accounted calls t ∧
      ∀ (index : Nat) (thread : Thread ρ σ π α), start.threads[index]? = some thread → ∃ later,
        t.threads[index]? = some later ∧ thread.rest.Becomes start.world calls later.rest t.world) ∧
      (∀ t earlier v id key place later,
        start.Accounted (earlier ++ ⟨c.opens id key, v⟩ :: later) t →
        id.index < v.injectors.size → (c.opened v id key).1 = .ok place →
        -- a collection that the key was bound to by hand has to exist
        ((v.injector id).contains key = true → c.Known v place) → (∀ call ∈ later, ¬ call.action.Binds id key) →
          c.Keeps host id key place (c.opened v id key).2 later t.world) ∧
      ∀ (v : World ρ σ π) id key, (v.injector id).contains key = true →
        (c.opened v id key).2 = v ∨ ∃ fault, c.opened v id key = v.raise fault := by
  intro start
  refine ⟨fun t ht => ?_, ?_, c.opened_of_contains⟩
  · obtain ⟨calls, hcalls⟩ := host.exists_accounted fuel w codes ht
    exact ⟨calls, hcalls, fun index thread => hcalls.becomes⟩
  · intro t earlier v id key place later haccounted hid hopened hknown hbinds
    have hstart : start.world.Registered :=
      (World.Passes.of_sameStock (Threads.sameStock_start w _)).registered hw
    obtain ⟨hearlier, hlater⟩ := haccounted.told.split
    have hbound : c.BoundTo (c.opened v id key).2 id key place :=
      .of_opened (hearlier.registered hstart) hid hopened
    have hafter : (Call.mk (c.opens id key) v).after = (c.opened v id key).2 := by
      cases c <;> rfl
    rw [hafter] at hlater
    exact hbound.keeps (Collection.known_of_opened hopened hknown) hlater hbinds host

/-! ### Two threads with builders of one list

The first makes the list and adds an entry. In between the second makes it a singleton, and then
adds another entry, which is to stand before the first. The second makes an object too, but adds it
only after the first has added two new ones at once by `World.contributeAll`, all three without a
key. -/

namespace Threads

variable {s t : Threads ρ σ π α}

/-- The world as the thread at `index` sees it. -/
def seen (s : Threads ρ σ π α) (index : Nat) : World ρ σ π :=
  match s.threads[index]? with
  | some thread => s.world.switchTo thread.id thread.stack
  | none => s.world

/-- One turn of the thread at `index`, if it can take a step. -/
def turn (s : Threads ρ σ π α) (index : Nat) : Threads ρ σ π α :=
  match s.step index with
  | .ok t => t
  | .error _ => s

/-- A turn in which an action is performed puts its `Call` at the end of the account. -/
theorem accounted_act {calls : List (Call ρ σ π)} (h : s.Accounted calls t) (index : Nat)
    (action : Action ρ σ π) (hstep : t.step index = .ok (t.turn index))
    (hworld : (t.turn index).world = (action.perform (t.seen index)).2) :
    s.Accounted (calls ++ [⟨action, t.seen index⟩]) (t.turn index) := by
  have hseen : t.world.Passes [] (t.seen index) := by
    unfold seen
    split
    · exact .of_sameStock (.switchTo _ _ _)
    · exact .refl _
  refine h.step hstep ?_
  rw [hworld]
  exact hseen.call action

end Threads

open Threads (accounted_act)

/-- A host whose code does nothing, so that all there is are the actions of the threads. -/
def idleHost : Host Unit Unit Unit where
  make _ _ := pure (.ok ⟨0⟩)
  stage _ _ object := pure (.ok object)
  hook _ _ _ := pure (.ok ())
  kind _ := default
  imports _ := []
  configure _ _ := pure (.ok ())

def laundry : Key := ⟨.list (.plain "Step"), none⟩

def soak : Key := ⟨.plain "Step", some (.text "soak")⟩

def wash : Key := ⟨.plain "Step", some (.text "wash")⟩

def oneInjector : World Unit Unit Unit where
  injectors := #[{}]
  memory := ()

theorem oneInjector_registered : oneInjector.Registered :=
  .of_empty (by simp [oneInjector])

def laundryCodes : List (Code Unit Unit Unit Unit) :=
  [ do
      let _ ← Code.act (.openList ⟨0⟩ laundry)
      let _ ← Code.act (.contribute ⟨0⟩ laundry wash (.lookup wash))
      let _ ← Code.act (.contributeAll ⟨0⟩ laundry [.plain (), .plain ()]),
    do
      let _ ← Code.act (.changeScope ⟨0⟩ laundry .singleton)
      let _ ← Code.act (.contribute ⟨0⟩ laundry soak (.lookup soak))
      let _ ← Code.act (.arrange ⟨0⟩ laundry soak .before wash)
      let object ← Code.act (.allocate (.plain ()))
      let _ ← Code.act (.contributeObject ⟨0⟩ laundry object) ]

/-- The states from the start on, the first and the second thread taking turns, each by `turn`. -/
def laundryAfter (turns : List Nat) : Threads Unit Unit Unit Unit :=
  turns.foldl .turn (.start oneInjector (laundryCodes.map (idleHost.run 1)))

def laundryCalls : List (Call Unit Unit Unit) :=
  [⟨.changeScope ⟨0⟩ laundry .singleton, (laundryAfter [0]).seen 1⟩,
    ⟨.contribute ⟨0⟩ laundry wash (.lookup wash), (laundryAfter [0, 1]).seen 0⟩,
    ⟨.contribute ⟨0⟩ laundry soak (.lookup soak), (laundryAfter [0, 1, 0]).seen 1⟩,
    ⟨.arrange ⟨0⟩ laundry soak .before wash, (laundryAfter [0, 1, 0, 1]).seen 1⟩,
    ⟨.allocate (.plain ()), (laundryAfter [0, 1, 0, 1, 1]).seen 1⟩,
    ⟨.contributeAll ⟨0⟩ laundry [.plain (), .plain ()], (laundryAfter [0, 1, 0, 1, 1, 1]).seen 0⟩,
    ⟨.contributeObject ⟨0⟩ laundry ⟨0⟩, (laundryAfter [0, 1, 0, 1, 1, 1, 0]).seen 1⟩]

theorem laundry_accounted : (laundryAfter []).Accounted
    ([] ++ ⟨Collection.list.opens ⟨0⟩ laundry, (laundryAfter []).seen 0⟩ :: laundryCalls)
    (laundryAfter [0, 1, 0, 1, 1, 1, 0, 1]) := by
  have hstart : (laundryAfter []).Accounted [] (laundryAfter []) := .refl
  have hopened := accounted_act hstart 0 (.openList ⟨0⟩ laundry) rfl rfl
  have hscope := accounted_act hopened 1 (.changeScope ⟨0⟩ laundry .singleton) rfl rfl
  have hwash := accounted_act hscope 0 (.contribute ⟨0⟩ laundry wash (.lookup wash)) rfl rfl
  have hsoak := accounted_act hwash 1 (.contribute ⟨0⟩ laundry soak (.lookup soak)) rfl rfl
  have harranged := accounted_act hsoak 1 (.arrange ⟨0⟩ laundry soak .before wash) rfl rfl
  have hmade := accounted_act harranged 1 (.allocate (.plain ())) rfl rfl
  have hall := accounted_act hmade 0 (.contributeAll ⟨0⟩ laundry [.plain (), .plain ()]) rfl rfl
  exact accounted_act hall 1 (.contributeObject ⟨0⟩ laundry ⟨0⟩) rfl rfl

/-- What the calls contribute through the key, each object under the key of its number, for any
numbering. -/
theorem gathered_laundryCalls (number : Ref → Nat) :
    Collection.list.gathered number ⟨0⟩ laundry laundryCalls =
      [.add wash (.lookup wash), .add soak (.lookup soak), .place soak .before wash,
        .addObject number (.plain "Step") ⟨1⟩, .addObject number (.plain "Step") ⟨2⟩,
        .addObject number (.plain "Step") ⟨0⟩] := by
  rfl

/-- In the end the key is bound to the one list still, which holds what was contributed through the
key: the five entries are in it, the three objects under keys of their own. -/
theorem builders_lose_nothing_of_laundry :
    oneInjector.Registered ∧
      (Collection.list.opened ((laundryAfter []).seen 0) ⟨0⟩ laundry).1 = .ok ⟨0⟩ ∧
      let first := (Collection.list.opened ((laundryAfter []).seen 0) ⟨0⟩ laundry).2
      let last := (laundryAfter [0, 1, 0, 1, 1, 1, 0, 1]).world
      Collection.list.Keeps idleHost ⟨0⟩ laundry ⟨0⟩ first laundryCalls last ∧
        Collection.list.collect (first.roster ⟨0⟩)
          [.add wash (.lookup wash), .add soak (.lookup soak), .place soak .before wash,
            .addObject last.numbering (.plain "Step") ⟨1⟩, .addObject last.numbering (.plain "Step") ⟨2⟩,
            .addObject last.numbering (.plain "Step") ⟨0⟩] = .ok (last.roster ⟨0⟩) := by
  have hopened : (Collection.list.opened ((laundryAfter []).seen 0) ⟨0⟩ laundry).1 = .ok ⟨0⟩ := rfl
  have hkeeps : Collection.list.Keeps idleHost ⟨0⟩ laundry ⟨0⟩
      (Collection.list.opened ((laundryAfter []).seen 0) ⟨0⟩ laundry).2 laundryCalls
      (laundryAfter [0, 1, 0, 1, 1, 1, 0, 1]).world := by
    refine (builders_lose_nothing .list idleHost oneInjector_registered 1 laundryCodes).2.1 _ _ _ _ _ _ _
      laundry_accounted (Nat.lt_succ_self 0) hopened ?_ ?_
    · exact fun hcontains => nomatch hcontains
    · simp [laundryCalls, Action.Binds]
  refine ⟨oneInjector_registered, hopened, hkeeps, ?_⟩
  rw [← gathered_laundryCalls]
  refine hkeeps.gathered [] _ (.refl _) (by simp) fun call hcall => ?_
  rw [List.append_nil] at hcall
  simp only [laundryCalls, List.mem_cons, List.not_mem_nil, or_false] at hcall
  -- the first call and the making of an object contribute nothing
  rcases hcall with rfl | rfl | rfl | rfl | rfl | rfl | rfl <;> first
    | exact fun _ => rfl
    | exact fun htarget => nomatch htarget

/-- All entries are there, in the order that was asked for, each new object under a key of its own. -/
example : ((laundryAfter [0, 1, 0, 1, 1, 1, 0, 1]).world.orderedKeys ⟨0⟩).1 =
    .ok [soak, wash, .ofObject (.plain "Step") 0, .ofObject (.plain "Step") 1, .ofObject (.plain "Step") 2] := by
  cbv

end Wiring
