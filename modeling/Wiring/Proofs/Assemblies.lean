import Wiring.Proofs.Alongside
import Wiring.Proofs.Contributions
import Wiring.Proofs.Yields

/-!
# Productions of collections

A collection is assembled from what its entries produce. Which entries these are is read off the
table at one moment (`Collection.comesTo_produce`), however many threads contribute to it before and
after, and their objects are put into a new one once all of them have produced
(`Collection.Places`). Stages that are led round it come later (`Host.Finishes`), and a wrapper that
keeps a value gives the one that it keeps, refuses to wait, or has the collection assembled
(`Collection.produces_of_comesTo`).

* **`Collection.assemble`** — what is made of a table: `Collection.produceAll` for the entries in
  their order (`Collection.elements`), and a new object for what they give.
* **`World.Gets`** — the three ways in which a wrapper answers, told with what others do meanwhile;
  `Gets.of_comesTo` reads them off `Engine.single`.
* **`Registration.comesTo_provider`** — the stages of a registration are led through after the
  production of its base.
-/

namespace Wiring

variable {ρ σ π ε α β : Type}

namespace Collection

/-- The providers of the entries in the order in which they produce: that of `Roster.order`, or by
ascending name. -/
def elements : (c : Collection) → c.Table ρ → Except Fault (List (Provider ρ))
  | .list, table => (Roster.order table).map (·.map (·.provider))
  | .map, table => .ok ((Catalog.entries table).rows.map (·.2))

/-- What a collection with such a table holds if its entries produce the objects. -/
def content : (c : Collection) → c.Table ρ → List Ref → Content π
  | .list, _, objects => .list objects
  | .map, table, objects => .map ⟨((Catalog.entries table).rows.map (·.1)).zip objects⟩

/-- The providers produce one after the other, by `Run.inTurn`, up to the first fault. -/
def produceAll (answer : (request : Request ρ σ π) → Run ρ σ π request.Answer) (id : InjectorId)
    (providers : List (Provider ρ)) : Run ρ σ π (Except Fault (List Ref)) :=
  Run.inTurn (fun p => answer (.produce id p)) providers

/-- The entries of a table produce in their order, by `elements`, and a new object holds what they
give, as `content` has it. -/
def assemble (c : Collection) (answer : (request : Request ρ σ π) → Run ρ σ π request.Answer)
    (id : InjectorId) (table : c.Table ρ) : Run ρ σ π (Except Fault Ref) :=
  match c.elements table with
  | .error fault => pure (.error fault)
  | .ok providers => do
    match ← produceAll answer id providers with
    | .error fault => pure (.error fault)
    | .ok objects =>
      let made ← Run.now (·.allocate (c.content table objects))
      pure (.ok made)

theorem produceAll_map (answer : (request : Request ρ σ π) → Run ρ σ π request.Answer)
    (id : InjectorId) (g : α → Provider ρ) (items : List α) :
    produceAll answer id (items.map g) = Run.inTurn (fun a => answer (.produce id (g a))) items := by
  have hmap (f : Provider ρ → Run ρ σ π (Except Fault Ref)) :
      Run.inTurn f (items.map g) = Run.inTurn (fun a => f (g a)) items := by
    induction items with
    | nil => rfl
    | cons a rest ih => rw [List.map_cons, Run.inTurn, Run.inTurn, ih]
  exact hmap fun p => answer (.produce id p)

theorem assemble_of_error {c : Collection}
    (answer : (request : Request ρ σ π) → Run ρ σ π request.Answer) (id : InjectorId)
    {table : c.Table ρ} {fault : Fault} (h : c.elements table = .error fault) :
    c.assemble answer id table = pure (.error fault) := by
  unfold assemble
  rw [h]

end Collection

namespace Collection

open World Run

variable {R : World ρ σ π → List ε → World ρ σ π → Prop} [IsAccount R]
variable {host : Host ρ σ π} {answer : (request : Request ρ σ π) → Run ρ σ π request.Answer}
variable {id : InjectorId} {w after : World ρ σ π} {events : List ε} {a : Except Fault Ref}
variable {fuel : Nat} {c : Collection} {place : c.Place}

theorem comesTo_assembleList {roster : RosterId}
    (h : (Engine.assembleList answer id roster).ComesToBy R w events a after) :
    ∃ before rest u, events = before ++ rest ∧ R w before u ∧
      (assemble .list answer id (u.roster roster)).ComesToBy R u rest a after := by
  obtain ⟨ordered, _, more, v, rfl, hordered, hrest⟩ := ComesToBy.bind h
  obtain ⟨before, between, u, rfl, hbefore, rfl, hbetween⟩ := hordered.now
  refine ⟨before, between ++ more, u, List.append_assoc _ _ _, hbefore, ?_⟩
  unfold World.ordered at hrest
  cases horder : (u.roster roster).order with
  | error fault =>
    have helements : elements .list (u.roster roster) = .error fault := congrArg (Except.map _) horder
    rw [assemble_of_error answer id helements]
    rw [horder] at hrest
    cases hrest.pure
    exact .of_pure _ (IsAccount.trans hbetween hrest.told)
  | ok entries =>
    have helements : elements .list (u.roster roster) = .ok (entries.map (·.provider)) :=
      congrArg (Except.map _) horder
    rw [horder] at hrest
    obtain ⟨_, noting, more, v', rfl, hnote, hproduce⟩ := hrest.bind
    unfold assemble
    rw [helements]
    simp only [produceAll_map]
    exact (hproduce.before hnote.told).before hbetween

theorem comesTo_assembleMap {catalog : CatalogId}
    (h : (Engine.assembleMap answer id catalog).ComesToBy R w events a after) :
    ∃ before rest u, events = before ++ rest ∧ R w before u ∧
      (assemble .map answer id (u.catalog catalog)).ComesToBy R u rest a after := by
  obtain ⟨rows, _, more, v, rfl, hrows, hrest⟩ := ComesToBy.bind h
  obtain ⟨before, between, u, rfl, hbefore, rfl, hbetween⟩ := hrows.now
  refine ⟨before, between ++ more, u, List.append_assoc _ _ _, hbefore, ?_⟩
  unfold assemble elements
  simp only [produceAll_map]
  exact hrest.before hbetween

/-- A production of a collection assembles it by `assemble` from the table that there is at one
moment of it. -/
theorem comesTo_produce (h : (host.answer fuel (.produce id (c.provider place))).ComesToBy R w events a after) :
    ∃ less before rest u, events = before ++ rest ∧ R w before u ∧
      (c.assemble (host.answer less) id (c.table u place)).ComesToBy R u rest a after := by
  cases fuel with
  | zero => exact absurd h ComesToBy.not_halt
  | succ less =>
    cases c with
    | list => exact ⟨less, comesTo_assembleList h⟩
    | map => exact ⟨less, comesTo_assembleMap h⟩

end Collection

/-! ### What the entries come to -/

/-- The providers produce one after the other, up to the first fault, each as a computation
alongside others. -/
inductive Host.ProducesAll (host : Host ρ σ π) (R : World ρ σ π → List ε → World ρ σ π → Prop) (fuel : Nat)
    (id : InjectorId) :
    List (Provider ρ) → World ρ σ π → List ε → Except Fault (List Ref) → World ρ σ π → Prop
  | none {w after : World ρ σ π} {events : List ε} (h : R w events after) :
      ProducesAll host R fuel id [] w events (.ok []) after
  | next {p : Provider ρ} {rest : List (Provider ρ)} {w v after : World ρ σ π} {events more : List ε}
      {object : Ref} {objects : List Ref}
      (h : (host.answer fuel (.produce id p)).ComesToBy R w events (.ok object) v)
      (hrest : ProducesAll host R fuel id rest v more (.ok objects) after) :
      ProducesAll host R fuel id (p :: rest) w (events ++ more) (.ok (object :: objects)) after
  | later {p : Provider ρ} {rest : List (Provider ρ)} {w v after : World ρ σ π} {events more : List ε}
      {object : Ref} {fault : Fault}
      (h : (host.answer fuel (.produce id p)).ComesToBy R w events (.ok object) v)
      (hrest : ProducesAll host R fuel id rest v more (.error fault) after) :
      ProducesAll host R fuel id (p :: rest) w (events ++ more) (.error fault) after
  | failed {p : Provider ρ} {rest : List (Provider ρ)} {w after : World ρ σ π} {events : List ε} {fault : Fault}
      (h : (host.answer fuel (.produce id p)).ComesToBy R w events (.error fault) after) :
      ProducesAll host R fuel id (p :: rest) w events (.error fault) after

/-- What a production of a collection comes to: the table that there is at one moment says by
`elements` which providers have to produce, in which order, and their objects are put into a new
object once all of them have. -/
inductive Collection.Places (c : Collection) (R : World ρ σ π → List ε → World ρ σ π → Prop)
    (host : Host ρ σ π) (id : InjectorId) (place : c.Place) (w : World ρ σ π) :
    List ε → Except Fault Ref → World ρ σ π → Prop
  | unordered {before later : List ε} {u after : World ρ σ π} {fault : Fault}
      (hbefore : R w before u) (helements : c.elements (c.table u place) = .error fault)
      (hlater : R u later after) : Places c R host id place w (before ++ later) (.error fault) after
  | failed {fuel : Nat} {providers : List (Provider ρ)} {before during : List ε} {u after : World ρ σ π}
      {fault : Fault} (hbefore : R w before u) (helements : c.elements (c.table u place) = .ok providers)
      (hall : host.ProducesAll R fuel id providers u during (.error fault) after) :
      Places c R host id place w (before ++ during) (.error fault) after
  | placed {fuel : Nat} {providers : List (Provider ρ)} {objects : List Ref} {before during later : List ε}
      {u v after : World ρ σ π} (hbefore : R w before u)
      (helements : c.elements (c.table u place) = .ok providers)
      (hall : host.ProducesAll R fuel id providers u during (.ok objects) v)
      (hplaced : v.Changes R (fun v => (v.allocate (c.content (c.table u place) objects)).2) later after) :
      Places c R host id place w (before ++ (during ++ later))
        (.ok (v.allocate (c.content (c.table u place) objects)).1) after

section

open World Run

variable {R : World ρ σ π → List ε → World ρ σ π → Prop} [IsAccount R]
variable {host : Host ρ σ π} {fuel : Nat} {id : InjectorId} {w u v after : World ρ σ π}
variable {events more : List ε} {reply : Except Fault Ref} {c : Collection} {place : c.Place}

namespace Host.ProducesAll

variable {providers : List (Provider ρ)} {outcome : Except Fault (List Ref)}

theorem afterwards (h : host.ProducesAll R fuel id providers w events outcome v) (hafter : R v more after) :
    host.ProducesAll R fuel id providers w (events ++ more) outcome after := by
  induction h with
  | none h => exact .none (IsAccount.trans h hafter)
  | next h _ ih =>
    rw [List.append_assoc]
    exact .next h (ih hafter)
  | later h _ ih =>
    rw [List.append_assoc]
    exact .later h (ih hafter)
  | failed h => exact .failed (h.afterwards hafter)

theorem of_produceAll
    (h : (Collection.produceAll (host.answer fuel) id providers).ComesToBy R w events outcome after) :
    host.ProducesAll R fuel id providers w events outcome after := by
  induction providers generalizing w events outcome after with
  | nil =>
    cases h.pure
    exact .none h.told
  | cons p rest ih =>
    obtain ⟨made, before, more, u, rfl, hmade, hrest⟩ := ComesToBy.bind h
    cases made with
    | error fault =>
      cases hrest.pure
      exact .failed (hmade.afterwards hrest.told)
    | ok object =>
      obtain ⟨others, during, last, v, rfl, hothers, hlast⟩ := hrest.bind
      have hall := (ih hothers).afterwards hlast.told
      cases others with
      | error fault =>
        cases hlast.pure
        exact .later hmade hall
      | ok objects =>
        cases hlast.pure
        exact .next hmade hall

end Host.ProducesAll

theorem Collection.Places.of_comesTo
    (h : (host.answer fuel (.produce id (c.provider place))).ComesToBy R w events reply after) :
    c.Places R host id place w events reply after := by
  obtain ⟨less, before, rest, u, rfl, hbefore, hassemble⟩ := Collection.comesTo_produce h
  unfold Collection.assemble at hassemble
  split at hassemble
  case h_1 fault helements =>
    cases hassemble.pure
    exact .unordered hbefore helements hassemble.told
  case h_2 providers helements =>
    obtain ⟨outcome, during, last, v, rfl, hall, hlast⟩ := hassemble.bind
    have hall := Host.ProducesAll.of_produceAll hall
    cases outcome with
    | error fault =>
      cases hlast.pure
      exact .failed hbefore helements (hall.afterwards hlast.told)
    | ok objects =>
      obtain ⟨made, first, final, x, rfl, hmade, hfinal⟩ := hlast.bind
      cases hfinal.pure
      obtain ⟨between, own, later, y, z, rfl, hbetween, htake, hown, hlater⟩ := hmade.taken
      obtain rfl := congrArg Prod.fst (Except.ok.inj htake)
      obtain rfl := congrArg Prod.snd (Except.ok.inj htake)
      have hplaced : c.Places R host id place w _ _ after :=
        .placed hbefore helements (hall.afterwards hbetween)
          ⟨own, later ++ final, rfl, hown, IsAccount.trans hlater hfinal.told⟩
      simpa only [List.append_assoc] using hplaced

end

/-! ### Stages -/

/-- Led through the stages by `Engine.complete`, what a production has come to becomes this; a fault
goes through as it is. -/
inductive Host.Completes (host : Host ρ σ π) (id : InjectorId) :
    List (Stage ρ) → Except Fault Ref → Except Fault Ref → Prop
  | none (outcome : Except Fault Ref) : Completes host id [] outcome outcome
  | fault {stages : List (Stage ρ)} {outcome : Except Fault Ref} {fault : Fault} (stage : Stage ρ)
      (h : Completes host id stages outcome (.error fault)) :
      Completes host id (stages ++ [stage]) outcome (.error fault)
  | stage {stages : List (Stage ρ)} {outcome reply : Except Fault Ref} {object : Ref} {stage : Stage ρ}
      {fuel : Nat} {w after : World ρ σ π} {calls : List (Call ρ σ π)}
      (h : Completes host id stages outcome (.ok object))
      (hcomplete : (Engine.complete host (host.answer fuel) id stage object).ComesTo w calls reply after) :
      Completes host id (stages ++ [stage]) outcome reply

/-- The stages are led through one after the other, from the moment on that a production has come to
the outcome. Each of them is alongside others. -/
inductive Host.Finishes (host : Host ρ σ π) (R : World ρ σ π → List ε → World ρ σ π → Prop) (id : InjectorId)
    (outcome : Except Fault Ref) (w : World ρ σ π) :
    List (Stage ρ) → List ε → Except Fault Ref → World ρ σ π → Prop
  | none {events : List ε} {after : World ρ σ π} (h : R w events after) :
      Finishes host R id outcome w [] events outcome after
  | fault {stages : List (Stage ρ)} {events more : List ε} {v after : World ρ σ π} {fault : Fault}
      (stage : Stage ρ) (h : Finishes host R id outcome w stages events (.error fault) v)
      (hmore : R v more after) :
      Finishes host R id outcome w (stages ++ [stage]) (events ++ more) (.error fault) after
  | stage {stages : List (Stage ρ)} {stage : Stage ρ} {events more : List ε} {v after : World ρ σ π}
      {object : Ref} {reply : Except Fault Ref} {fuel : Nat}
      (h : Finishes host R id outcome w stages events (.ok object) v)
      (hcomplete : (Engine.complete host (host.answer fuel) id stage object).ComesToBy R v more reply after) :
      Finishes host R id outcome w (stages ++ [stage]) (events ++ more) reply after

section

open World Run

variable {R : World ρ σ π → List ε → World ρ σ π → Prop}
variable {host : Host ρ σ π} {id : InjectorId} {w u after : World ρ σ π} {events more : List ε}
variable {a outcome : Except Fault Ref} {fuel : Nat} {stages : List (Stage ρ)}

namespace Host.Finishes

/-- A fault goes through all the stages, and is what is left in the end. -/
theorem eq_of_error {fault : Fault} (h : host.Finishes R id (.error fault) w stages events a after) :
    a = .error fault := by
  induction h with
  | none _ => rfl
  | fault _ _ _ ih => exact ih
  | stage _ _ ih => cases ih

theorem completes {calls : List (Call ρ σ π)} (h : host.Finishes Passes id outcome w stages calls a after) :
    host.Completes id stages outcome a := by
  induction h with
  | none _ => exact .none outcome
  | fault stage _ _ ih => exact .fault stage ih
  | stage _ hcomplete ih => exact .stage ih hcomplete

theorem told [IsAccount R] (h : host.Finishes R id outcome w stages events a after) : R w events after := by
  induction h with
  | none h => exact h
  | fault _ _ hmore ih => exact IsAccount.trans ih hmore
  | stage _ hcomplete ih => exact IsAccount.trans ih hcomplete.told

end Host.Finishes

variable [IsAccount R]

/-- A provider with one stage round it produces first, and the stage completes what it came to, by
`Engine.complete`. -/
theorem Host.comesTo_decorating {p : Provider ρ} {stage : Stage ρ}
    (h : (host.answer fuel (.produce id (.decorating p [stage]))).ComesToBy R w events a after) :
    ∃ less inner before rest u, events = before ++ rest ∧
      (host.answer less (.produce id p)).ComesToBy R w before inner u ∧
      ((∃ fault, inner = .error fault ∧ a = .error fault ∧ R u rest after) ∨
        ∃ object, inner = .ok object ∧
          (Engine.complete host (host.answer less) id stage object).ComesToBy R u rest a after) := by
  cases fuel with
  | zero => exact absurd h ComesToBy.not_halt
  | succ less =>
    obtain ⟨inner, before, rest, u, rfl, hinner, hstage⟩ := ComesToBy.bind h
    refine ⟨less, inner, before, rest, u, rfl, hinner, ?_⟩
    cases inner with
    | error fault => exact .inl ⟨fault, rfl, hstage.pure, hstage.told⟩
    | ok object =>
      obtain ⟨reply, during, more, v, rfl, hreply, hlast⟩ := ComesToBy.bind hstage
      have hsame : a = reply := by
        cases reply <;> exact hlast.pure
      rw [hsame]
      exact .inr ⟨object, rfl, hreply.afterwards hlast.told⟩

/-- A provider with stages round it, as `Registration.provider` nests them, produces first, and the
stages follow by `Host.Finishes`. -/
theorem Registration.comesTo_provider {base : Provider ρ} {scope : Scope}
    (h : (host.answer fuel (.produce id (⟨base, stages, scope⟩ : Registration ρ).provider)).ComesToBy R
      w events a after) :
    ∃ less outcome before rest u, events = before ++ rest ∧
      (host.answer less (.produce id base)).ComesToBy R w before outcome u ∧
        host.Finishes R id outcome u stages rest a after := by
  induction stages using List.reverseRecOn generalizing fuel events a after with
  | nil => exact ⟨fuel, a, events, [], after, (List.append_nil _).symm, h, .none (IsAccount.refl _)⟩
  | append_singleton stages stage ih =>
    have hprovider := Registration.provider_decorate (⟨base, stages, scope⟩ : Registration ρ) stage
    change (⟨base, stages ++ [stage], scope⟩ : Registration ρ).provider = _ at hprovider
    rw [hprovider] at h
    obtain ⟨less, inner, first, more, v, rfl, hinner, hstage⟩ := Host.comesTo_decorating h
    obtain ⟨least, outcome, before, rest, u, rfl, hbase, hfinishes⟩ := ih hinner
    refine ⟨least, outcome, before, rest ++ more, u, List.append_assoc _ _ _, hbase, ?_⟩
    obtain ⟨fault, rfl, rfl, hmore⟩ | ⟨object, rfl, hcomplete⟩ := hstage
    · exact .fault stage hfinishes hmore
    · exact .stage hfinishes hcomplete

/-! ### Wrappers that keep a value -/

/-- What a wrapper gives, and does for it alongside others, that keeps in the slot what is made of
its delegate: the rules are the ways that `Engine.single` can go. -/
inductive World.Gets (R : World ρ σ π → List ε → World ρ σ π → Prop) (id : InjectorId) (slot : SlotId)
    (key : Key) (makes : World ρ σ π → List ε → Except Fault Ref → World ρ σ π → Prop) (w : World ρ σ π) :
    List ε → Except Fault Ref → World ρ σ π → Prop
  /-- It gives the value that is kept, in the slot at one moment. -/
  | kept {before later : List ε} {u after : World ρ σ π} {object : Ref}
      (hbefore : R w before u) (hslot : u.slot slot = .filled object) (hlater : R u later after) :
      Gets R id slot key makes w (before ++ later) (.ok object) after
  /-- It gives a fault, for the wait would never end, as `World.awaitKey` finds. -/
  | refused {before later : List ε} {u after : World ρ σ π} {fault : Fault}
      (hbefore : R w before u) (hawait : (u.awaitKey id key).1 = .error fault) (hlater : R u later after) :
      Gets R id slot key makes w (before ++ later) (.error fault) after
  /-- It takes the empty slot, gives what is made of its delegate then, and gives the slot back. -/
  | made {before first during last later : List ε} {t u v x after : World ρ σ π}
      {outcome : Except Fault Ref} (hbefore : R w before t) (hempty : t.slot slot = .empty)
      (hfirst : t.Changes R (·.setSlot slot .busy) first u) (hmade : makes u during outcome v)
      (hlast : R v last x) (hlater : x.Changes R (·.setSlot slot (.keeping outcome)) later after) :
      Gets R id slot key makes w (before ++ (first ++ (during ++ (last ++ later)))) outcome after

namespace World.Gets

variable {slot : SlotId} {key : Key} {type : ValueType} {delegate : Provider ρ} {v : World ρ σ π}
variable {before during later : List ε}
variable {makes makes' : World ρ σ π → List ε → Except Fault Ref → World ρ σ π → Prop}

omit [IsAccount R] in
theorem mono (h : Gets R id slot key makes w events a after)
    (hmakes : ∀ u during v, makes u during a v → makes' u during a v) :
    Gets R id slot key makes' w events a after := by
  cases h with
  | kept hbefore hslot hlater => exact .kept hbefore hslot hlater
  | refused hbefore hawait hlater => exact .refused hbefore hawait hlater
  | made hbefore hempty hfirst hmade hlast hlater =>
    exact .made hbefore hempty hfirst (hmakes _ _ _ hmade) hlast hlater

/-- Something else may come before it and after it, since accounts can be put together. -/
theorem amid (h : Gets R id slot key makes u during a v) (hbefore : R w before u) (hlater : R v later after) :
    Gets R id slot key makes w (before ++ (during ++ later)) a after := by
  cases h with
  | kept hfirst hslot hlast =>
    have hgets : Gets R id slot key makes w _ _ after :=
      .kept (IsAccount.trans hbefore hfirst) hslot (IsAccount.trans hlast hlater)
    simpa only [List.append_assoc] using hgets
  | refused hfirst hawait hlast =>
    have hgets : Gets R id slot key makes w _ _ after :=
      .refused (IsAccount.trans hbefore hfirst) hawait (IsAccount.trans hlast hlater)
    simpa only [List.append_assoc] using hgets
  | made hfirst hempty htaken hmade hlast hback =>
    have hgets : Gets R id slot key makes w _ _ after :=
      .made (IsAccount.trans hbefore hfirst) hempty htaken hmade hlast (hback.afterwards hlater)
    simpa only [List.append_assoc] using hgets

/-- What the delegate comes to alongside others, with some fuel. -/
abbrev Comes (R : World ρ σ π → List ε → World ρ σ π → Prop) (host : Host ρ σ π) (id : InjectorId)
    (delegate : Provider ρ) (w : World ρ σ π) (events : List ε) (a : Except Fault Ref)
    (after : World ρ σ π) : Prop :=
  ∃ fuel, (host.answer fuel (.produce id delegate)).ComesToBy R w events a after

theorem of_initialise (hempty : w.slot slot = .empty) (hfirst : w.Changes R (·.setSlot slot .busy) before u)
    (h : (Engine.initialise (host.answer fuel) id slot key type delegate).ComesToBy R u events a after) :
    Gets R id slot key (Comes R host id delegate) w (before ++ events) a after := by
  obtain ⟨_, first, _, v, rfl, hstart, h⟩ := ComesToBy.bind h
  obtain ⟨_, second, _, x, rfl, hnote, h⟩ := h.bind
  obtain ⟨outcome, during, _, y, rfl, hmade, h⟩ := h.bind
  obtain ⟨_, third, _, z, rfl, hstop, h⟩ := h.bind
  obtain ⟨_, fourth, rest, _, rfl, hset, h⟩ := h.bind
  cases h.pure
  have hback := hset.afterwards h.told
  have hkeeping : (Run.change (·.setSlot slot (.keeping a))).ComesToBy R z (fourth ++ rest) () after := by
    cases a <;> exact hback
  obtain ⟨last, later, t, hevents, hlast, hlater⟩ := hkeeping.change
  rw [hevents]
  have hgets : Gets R id slot key (Comes R host id delegate) w _ a after :=
    .made (IsAccount.refl w) hempty (hfirst.afterwards (IsAccount.trans hstart.told hnote.told)) ⟨fuel, hmade⟩
      (IsAccount.trans hstop.told hlast) hlater
  simpa only [List.append_assoc, List.nil_append] using hgets

theorem of_takeOrMake
    (h : (Engine.takeOrMake (host.answer fuel) id slot key type delegate).ComesToBy R w events a after) :
    Gets R id slot key (Comes R host id delegate) w events a after := by
  obtain ⟨taken, before, more, u, rfl, htaken, h⟩ := ComesToBy.bind h
  obtain ⟨first, own, later, t, x, rfl, hfirst, htake, hown, hlater⟩ := htaken.taken
  split at htake
  case h_1 hslot =>
    -- another has made it meanwhile
    cases htake
    cases h.pure
    have hgets : Gets R id slot key (Comes R host id delegate) w _ _ after :=
      .kept hfirst hslot (IsAccount.trans hown (IsAccount.trans hlater h.told))
    simpa only [List.append_assoc] using hgets
  case h_2 hempty =>
    cases htake
    have hgets := of_initialise hempty ⟨own, later, rfl, hown, hlater⟩ h
    have hamid := hgets.amid hfirst (IsAccount.refl after)
    simpa only [List.append_assoc, List.append_nil] using hamid
  case h_3 => cases htake

theorem of_await
    (h : (Engine.await (host.answer fuel) id slot key type delegate).ComesToBy R w events a after) :
    Gets R id slot key (Comes R host id delegate) w events a after := by
  obtain ⟨granted, before, more, u, rfl, hgranted, hrest⟩ := ComesToBy.bind h
  cases granted with
  | error fault =>
    cases hrest.pure
    obtain ⟨first, rest, v, rfl, hfirst, hawait, hlater⟩ := hgranted.now
    rw [List.append_assoc]
    exact .refused hfirst hawait.symm (IsAccount.trans hlater hrest.told)
  | ok _ =>
    obtain ⟨outcome, during, _, v, rfl, htake, h⟩ := hrest.bind
    obtain ⟨_, _, _, _, rfl, hstop, h⟩ := h.bind
    cases h.pure
    exact (of_takeOrMake htake).amid hgranted.told (IsAccount.trans hstop.told h.told)

/-- A wrapper gives what it keeps, refuses to wait, or has its delegate produce for the empty slot:
the ways of `Gets`, read off `Engine.single`. -/
theorem of_comesTo
    (h : (host.answer fuel (.produce id (.singleton slot key type delegate))).ComesToBy R w events a after) :
    Gets R id slot key (Comes R host id delegate) w events a after := by
  cases fuel with
  | zero => exact absurd h ComesToBy.not_halt
  | succ less =>
    change (Engine.single (host.answer less) id slot key type delegate).ComesToBy R w events a after at h
    obtain ⟨state, before, more, u, rfl, hstate, hrest⟩ := ComesToBy.bind h
    have hawait (h : (Engine.await (host.answer less) id slot key type delegate).ComesToBy R u more a after) :
        Gets R id slot key (Comes R host id delegate) w (before ++ more) a after := by
      have hamid := (of_await h).amid hstate.told (IsAccount.refl after)
      rwa [List.append_nil] at hamid
    cases state with
    | filled object =>
      cases hrest.pure
      obtain ⟨first, rest, v, rfl, hfirst, hslot, hlater⟩ := hstate.now
      rw [List.append_assoc]
      exact .kept hfirst hslot.symm (IsAccount.trans hlater hrest.told)
    | empty => exact hawait hrest
    | busy => exact hawait hrest

end World.Gets

end

/-! ### The provider of a key that is bound to a collection -/

/-- What a production of a key comes to that is bound to a collection: the ways of `World.Gets`,
with the table assembled in between. -/
inductive Collection.Produces (c : Collection) (host : Host ρ σ π) (id : InjectorId) (key : Key)
    (place : c.Place) (stages : List (Stage ρ)) (scope : Scope) (slot : SlotId) (w : World ρ σ π)
    (calls : List (Call ρ σ π)) : Except Fault Ref → Prop
  /-- The value that the singleton keeps. -/
  | kept {before : List (Call ρ σ π)} {u : World ρ σ π} {object : Ref} (hscope : scope = .singleton)
      (hcalls : before <+: calls) (hbefore : w.Passes before u) (hslot : u.slot slot = .filled object) :
      Produces c host id key place stages scope slot w calls (.ok object)
  /-- A fault, for the wait for the singleton would never end. -/
  | refused {before : List (Call ρ σ π)} {u : World ρ σ π} {fault : Fault} (hscope : scope = .singleton)
      (hcalls : before <+: calls) (hbefore : w.Passes before u)
      (hawait : (u.awaitKey id key).1 = .error fault) :
      Produces c host id key place stages scope slot w calls (.error fault)
  /-- What the table at one moment is assembled to, led through the stages by `Host.Completes`. -/
  | assembled {before during : List (Call ρ σ π)} {u v : World ρ σ π} {outcome reply : Except Fault Ref}
      {fuel : Nat} (hcalls : before ++ during <+: calls) (hbefore : w.Passes before u)
      (hassemble : (c.assemble (host.answer fuel) id (c.table u place)).ComesTo u during outcome v)
      (hcompletes : host.Completes id stages outcome reply) :
      Produces c host id key place stages scope slot w calls reply

theorem Collection.produces_of_comesTo {c : Collection} {host : Host ρ σ π} {id : InjectorId} {key : Key}
    {place : c.Place} {stages : List (Stage ρ)} {scope : Scope} {slot : SlotId} {fuel : Nat}
    {w after : World ρ σ π} {calls : List (Call ρ σ π)} {a : Except Fault Ref}
    (h : (host.answer fuel (.produce id (Registration.wrapped scope slot key
      (⟨c.provider place, stages, scope⟩ : Registration ρ).provider))).ComesTo w calls a after) :
    c.Produces host id key place stages scope slot w calls a := by
  -- what is inside the wrapper, whoever asks for it
  have hinside {fuel : Nat} {u v : World ρ σ π} {before during : List (Call ρ σ π)}
      (hcalls : before ++ during <+: calls) (hbefore : w.Passes before u)
      (hmade : (host.answer fuel (.produce id
        (⟨c.provider place, stages, scope⟩ : Registration ρ).provider)).ComesToBy World.Passes u during a v) :
      c.Produces host id key place stages scope slot w calls a := by
    obtain ⟨_, outcome, within, last, _, rfl, hbase, hfinishes⟩ := Registration.comesTo_provider hmade
    obtain ⟨_, first, assembling, t, rfl, hfirst, hassemble⟩ := Collection.comesTo_produce hbase
    refine .assembled ?_ (hbefore.trans hfirst) hassemble hfinishes.completes
    have hprefix : before ++ first ++ assembling <+: before ++ (first ++ assembling ++ last) := by
      rw [List.append_assoc before, List.prefix_append_right_inj]
      exact List.prefix_append _ _
    exact hprefix.trans hcalls
  cases scope with
  | noScope => exact hinside (List.prefix_refl _) (.refl w) h
  | singleton =>
    cases World.Gets.of_comesTo h with
    | kept hbefore hslot _ => exact .kept rfl (List.prefix_append _ _) hbefore hslot
    | refused hbefore hawait _ => exact .refused rfl (List.prefix_append _ _) hbefore hawait
    | @made _ _ _ last later _ _ _ _ _ _ hbefore _ hfirst hmade _ _ =>
      obtain ⟨fuel, hmade⟩ := hmade
      exact hinside ⟨last ++ later, by simp only [List.append_assoc]⟩ (hbefore.trans hfirst.told) hmade

end Wiring
