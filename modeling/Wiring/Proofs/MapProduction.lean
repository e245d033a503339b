import Wiring.Proofs.MapContents
import Wiring.Proofs.ToldCalls
import Wiring.Proofs.Turns

/-!
# Maps are produced from a snapshot

The entries that a map has when its production begins produce in turn, by ascending name. The first
that fails decides what the production comes to, and if none does, the new map has their names, each
with the object that came of its own entry (`Host.ProducesMap`). What the entries put into the map
in their turns is there for the next production.

Which entries there are, and so what comes of them, does not depend on the order in which different
names were put (`map_production_snapshot`).

* **`Host.ProducesInTurn.producesMap`** — entries that take their turns make the map, with the names
  of the snapshot.
* **`Directory.get?_zip_of_turns`** — under each name there is the object that came of its own
  entry.
-/

namespace Wiring

variable {ρ σ π : Type}

/-- How a production of a map with these entries goes that begins in `w`: what it comes to, and the
moments of it. The rules are those of `Host.ProducesInTurn`, with a map made at the end. -/
inductive Host.ProducesMap (host : Host ρ σ π) (fuel : Nat) (id : InjectorId)
    (entries : Directory (Provider ρ)) (w : World ρ σ π) :
    Except Halt (Except Fault Ref × World ρ σ π) → List (Moment ρ σ π) → Prop
  /-- Each entry has had its turn, and a new map has their names, each with the object of its
  entry. -/
  | made {turns : List (Turn ρ σ π)} {v after : World ρ σ π} {made : Ref} {content : Directory Ref}
      (hturns : host.Turns fuel id w turns v)
      (hproviders : turns.map (·.provider) = entries.rows.map (·.2))
      (hmade : v.allocate (.map content) = (made, after))
      (hcontent : after.content? made = some (.map content)) (hnames : content.names = entries.names)
      (hbound : ∀ row turn, (row, turn) ∈ entries.rows.zip turns →
        ∃ object, turn.reply = .ok object ∧ content.get? row.1 = some object) :
      ProducesMap host fuel id entries w (.ok (.ok made, after)) (host.during fuel id turns)
  /-- The last turn fails after the others succeeded. The later names have no turn, and no map is
  made. -/
  | failed {turns : List (Turn ρ σ π)} {last : Turn ρ σ π} {later : List (Provider ρ)} {fault : Fault}
      (hturns : host.Turns fuel id w (turns ++ [last]) last.after)
      (hproviders : turns.map (·.provider) ++ last.provider :: later = entries.rows.map (·.2))
      (hreplies : ∀ turn ∈ turns, ∃ object, turn.reply = .ok object) (hlast : last.reply = .error fault) :
      ProducesMap host fuel id entries w (.ok (.error fault, last.after))
        (host.during fuel id (turns ++ [last]))
  /-- After the others succeeded, one does not come to an end. -/
  | halted {turns : List (Turn ρ σ π)} {provider : Provider ρ} {later : List (Provider ρ)}
      {v : World ρ σ π} {reason : Halt} (hturns : host.Turns fuel id w turns v)
      (hproviders : turns.map (·.provider) ++ provider :: later = entries.rows.map (·.2))
      (hreplies : ∀ turn ∈ turns, ∃ object, turn.reply = .ok object)
      (hhalts : (host.answer fuel (.produce id provider)).run v = .error reason) :
      ProducesMap host fuel id entries w (.error reason)
        (host.during fuel id turns ++ host.moments fuel (.produce id provider) v)

/-! ### The objects under the names -/

variable {host : Host ρ σ π} {fuel : Nat} {id : InjectorId} {entries : Directory (Provider ρ)}
variable {w : World ρ σ π} {outcome : Except Halt (Except Fault (List Ref) × World ρ σ π)}
variable {reply : Except Halt (Except Fault Ref × World ρ σ π)} {during : List (Moment ρ σ π)}

theorem Directory.names_zip {names : List String} {objects : List Ref}
    (h : objects.length = names.length) : (⟨names.zip objects⟩ : Directory Ref).names = names :=
  List.map_fst_zip (Nat.le_of_eq h.symm)

/-- Under each name is the object that came of the entry with this name: names and objects are
joined by `List.zip`, and the names ascend. -/
theorem Directory.get?_zip_of_turns (hascending : entries.names.Pairwise (· < ·))
    {turns : List (Turn ρ σ π)} {objects : List Ref} (hlength : objects.length = entries.rows.length)
    (hreplies : turns.map (·.reply) = objects.map .ok) {row : String × Provider ρ} {turn : Turn ρ σ π}
    (h : (row, turn) ∈ entries.rows.zip turns) :
    ∃ object, turn.reply = .ok object ∧
      (⟨entries.names.zip objects⟩ : Directory Ref).get? row.1 = some object := by
  obtain ⟨index, hindex⟩ := List.mem_iff_getElem?.1 h
  obtain ⟨hrow, hturn⟩ := List.getElem?_zip_eq_some.1 hindex
  have hreply : (objects.map Except.ok)[index]? = some turn.reply := by
    rw [← hreplies, List.getElem?_map, hturn]
    rfl
  rw [List.getElem?_map] at hreply
  obtain ⟨object, hobject, hok⟩ := Option.map_eq_some_iff.1 hreply
  have hname : entries.names[index]? = some row.1 := by
    rw [Directory.names, List.getElem?_map, hrow]
    rfl
  have hmem : (row.1, object) ∈ entries.names.zip objects :=
    List.mem_of_getElem? (List.getElem?_zip_eq_some.2 ⟨hname, hobject⟩)
  have hnames : (⟨entries.names.zip objects⟩ : Directory Ref).names = entries.names :=
    Directory.names_zip (hlength.trans (List.length_map _).symm)
  rw [← hnames] at hascending
  exact ⟨object, hok.symm, (Directory.mem_rows_iff hascending _).1 hmem⟩

/-- What the entries come to in turn settles what the map comes to, by `Assembles`. -/
theorem Host.ProducesInTurn.producesMap (hascending : entries.names.Pairwise (· < ·))
    (h : host.ProducesInTurn fuel id (entries.rows.map (·.2)) w outcome during)
    (hassembles : Assembles (fun objects => .map ⟨entries.names.zip objects⟩) outcome reply) :
    host.ProducesMap fuel id entries w reply during := by
  cases h with
  | @complete turns objects v hturns hproviders hreplies =>
    cases hassembles with
    | made hmade hcontent =>
      have hlength : objects.length = entries.rows.length := by
        have hturnsLength := congrArg List.length hreplies
        have hrowsLength := congrArg List.length hproviders
        simp only [List.length_map] at hturnsLength hrowsLength
        rw [← hturnsLength, hrowsLength]
      exact .made hturns hproviders hmade hcontent
        (Directory.names_zip (hlength.trans (List.length_map _).symm))
        fun _ _ => Directory.get?_zip_of_turns hascending hlength hreplies
  | failed hturns hproviders hreplies hlast =>
    cases hassembles
    exact .failed hturns hproviders hreplies hlast
  | halted hturns hproviders hreplies hhalts =>
    cases hassembles
    exact .halted hturns hproviders hreplies hhalts

theorem Host.producesMap (host : Host ρ σ π) (fuel : Nat) (id : InjectorId) (place : CatalogId)
    (w : World ρ σ π) (hascending : (w.catalog place).entries.names.Pairwise (· < ·)) :
    host.ProducesMap fuel id (w.catalog place).entries w
      (((Script.assembleMap id place).toRun (host.answer fuel)).run w)
      ((Script.assembleMap id place).moments (host.answer fuel) (host.moments fuel) w) := by
  let rows := (w.catalog place).entries.rows
  let turns : Script ρ σ π (Except Fault (List Ref)) :=
    .inTurn (fun row => .ask (.produce id row.2)) rows
  let content (objects : List Ref) : Content π := .map ⟨(rows.map (·.1)).zip objects⟩
  unfold Script.assembleMap
  rw [Script.moments_now_bind, Script.run_now_bind]
  show host.ProducesMap fuel id (w.catalog place).entries w
    (((Script.assemble content turns).toRun (host.answer fuel)).run w)
    ((Script.assemble content turns).moments (host.answer fuel) (host.moments fuel) w)
  rw [Script.moments_assemble]
  exact (host.producesInTurn (·.2) rows w).producesMap hascending
    (Script.assembles_assemble content turns w)

/-- A map has the names that were put so far, each with its last provider (`Directory.Records`). A
production of it is settled by the entries that there are when it begins (`Host.ProducesMap`). If it
comes to an end, the map has by then taken all that was put meanwhile. And the order of puts matters
under one and the same name only: to the entries, whatever else is done in between, and to the
outcome of a production after them. -/
theorem map_production_snapshot (host : Host ρ σ π) (fuel : Nat) (id : InjectorId) (place : CatalogId)
    {w v : World ρ σ π} {calls : List (Call ρ σ π)} (hknown : place.index < w.catalogs.size)
    (hempty : (w.catalog place).entries = .empty) (hpasses : w.Passes calls v) :
    (v.catalog place).entries.Records (World.putsAt place calls) ∧
    (∃ during,
      host.ProducesMap fuel id (v.catalog place).entries v
        ((host.answer (fuel + 1) (.produce id (.map place))).run v) during ∧
      host.moments (fuel + 1) (.produce id (.map place)) v =
        .asked (.produce id (.map place)) v :: during ++
          Moment.following ((host.answer (fuel + 1) (.produce id (.map place))).run v)
            fun reply after => [.answered (.produce id (.map place)) v reply after]) ∧
    (∀ reply after, (host.answer (fuel + 1) (.produce id (.map place))).run v = .ok (reply, after) →
      ∃ more, v.Passes more after ∧
        (Moment.calls (host.moments (fuel + 1) (.produce id (.map place)) v)).Sublist more ∧
        (after.catalog place).entries.Records (World.putsAt place (calls ++ more))) ∧
    (∀ v' calls', w.Passes calls' v' →
      Directory.Reordered (World.putsAt place calls) (World.putsAt place calls') →
        (v.catalog place).entries = (v'.catalog place).entries) ∧
    ∀ actions actions' rows rows', List.Forall₂ (v.PutsInto place) actions rows →
      List.Forall₂ (v.PutsInto place) actions' rows' → Directory.Reordered rows rows' →
        Halt.Same World.SameUnlogged
          ((host.answer (fuel + 1) (.produce id (.map place))).run (v.performAll actions).2)
          ((host.answer (fuel + 1) (.produce id (.map place))).run (v.performAll actions').2) := by
  have hempty' : (w.catalog place).entries.Records [] := hempty ▸ Directory.records_empty
  obtain ⟨hplace, hrecords⟩ := hpasses.records hknown hempty'
  have hrun : (Script.assembleMap id place).toRun (host.answer fuel) =
      host.answer (fuel + 1) (.produce id (.map place)) :=
    Script.toRun_request host (host.answer fuel) fuel (.produce id (.map place))
  refine ⟨hrecords, ?_, ?_, ?_, ?_⟩
  · have hproduces := host.producesMap fuel id place v hrecords.ascending
    rw [hrun] at hproduces
    exact ⟨_, hproduces, rfl⟩
  · intro reply after houtcome
    obtain ⟨more, hmore, htold⟩ := host.covers_moments (fuel + 1) _ v reply after houtcome
    exact ⟨more, hmore, htold, ((hpasses.trans hmore).records hknown hempty').2⟩
  · intro v' calls' hpasses' hreordered
    exact hrecords.eq_of_reordered (hpasses'.records hknown hempty').2 hreordered
  · intro actions actions' rows rows' hputs hputs' hreordered
    -- what the two histories of puts leave behind differs in the log alone
    exact host.run_unlogged (fuel + 1) _
      (World.performAll_reordered hplace hrecords hputs hputs' hreordered)

/-! ### An entry that puts others

While it produces, the entry `a` puts something else under `b`, which comes after it, and something under
`c`. The production that goes on gives what was under `b` when it began, and has no `c`. -/

def shelf : Key := ⟨.map (.plain "Item"), none⟩

def stockingHost : Host Unit Unit Unit where
  make _ _ := do
    let _ ← Code.act (.putEntry ⟨0⟩ "b" (.fixed ⟨11⟩))
    let _ ← Code.act (.contributeNamed ⟨0⟩ shelf "c" (.fixed ⟨12⟩))
    pure (.ok ⟨10⟩)
  stage _ _ object := pure (.ok object)
  hook _ _ _ := pure (.ok ())
  kind _ := default
  imports _ := []
  configure _ _ := pure (.ok ())

/-- A builder has made a map, and nothing is in it. -/
def emptyShelf : World Unit Unit Unit :=
  (oneInjector.openMap ⟨0⟩ shelf).2

def shelfPuts : List (Action Unit Unit Unit) :=
  [.contributeNamed ⟨0⟩ shelf "b" (.fixed ⟨1⟩), .putEntry ⟨0⟩ "a" (.factory (.plain "Item") ())]

theorem map_production_of_shelf :
    ∃ map after more,
      (stockingHost.answer 3 (.produce ⟨0⟩ (.map ⟨0⟩))).run (emptyShelf.performAll shelfPuts).2 =
        .ok (.ok map, after) ∧
      after.content? map = some (.map ⟨[("a", ⟨10⟩), ("b", ⟨1⟩)]⟩) ∧
      (after.catalog ⟨0⟩).entries.names = ["a", "b", "c"] ∧
      (after.catalog ⟨0⟩).entries.Records
        (World.putsAt ⟨0⟩ ((emptyShelf.performAll shelfPuts).1 ++ more)) ∧
      Halt.Same World.SameUnlogged
        ((stockingHost.answer 3 (.produce ⟨0⟩ (.map ⟨0⟩))).run (emptyShelf.performAll shelfPuts).2)
        ((stockingHost.answer 3 (.produce ⟨0⟩ (.map ⟨0⟩))).run
          (emptyShelf.performAll shelfPuts.reverse).2) := by
  have hbound : Collection.map.BoundTo emptyShelf ⟨0⟩ shelf ⟨0⟩ :=
    .of_opened oneInjector_registered (Nat.lt_succ_self 0) rfl
  have hknown : 0 < emptyShelf.catalogs.size := Nat.lt_succ_self 0
  obtain ⟨-, -, hkept, -, -⟩ := map_production_snapshot stockingHost 2 ⟨0⟩ ⟨0⟩ hknown rfl
    (emptyShelf.passes_performAll shelfPuts)
  obtain ⟨more, -, -, hrecords⟩ := hkept _ _ rfl
  refine ⟨_, _, more, rfl, by rfl, by rfl, hrecords, ?_⟩
  obtain ⟨-, -, -, -, hreordered⟩ := map_production_snapshot stockingHost 2 ⟨0⟩ ⟨0⟩ hknown rfl
    (.refl emptyShelf)
  let rows : List (String × Provider Unit) := [("b", .fixed ⟨1⟩), ("a", .factory (.plain "Item") ())]
  refine hreordered shelfPuts shelfPuts.reverse rows rows.reverse ?_ ?_ ?_
  · exact .cons (.builder hbound "b" _) (.cons (.direct "a" _) .nil)
  · exact .cons (.direct "a" _) (.cons (.builder hbound "b" _) .nil)
  · exact Directory.reordered_of_perm (List.reverse_perm rows).symm (by decide)

end Wiring
