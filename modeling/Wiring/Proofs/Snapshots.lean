import Wiring.Proofs.Contributions
import Wiring.Proofs.LinearOrder
import Wiring.Proofs.ToldCalls
import Wiring.Proofs.Turns

/-!
# Lists are produced from a snapshot

When the production of a list begins, its entries are put in order by `World.ordered`, and that
settles which providers are asked and in which order (`Host.ProducesList`). If the requests
contradict each other, none is. Else the entries take turns, and what any of them does to the list
in its turn is too late for this production: the list that comes of it holds what the entries of the
snapshot produced, or there is none.

It is not lost, either. The list as it is left has all that was contributed in the meantime
(`list_production_snapshot`), and the next production begins with that.

* **`Host.ProducesList`** — what a production of a list does, told by its moments: a contradiction,
  or turns of the snapshot as `Host.ProducesInTurn` has them.
* **`list_production_snapshot`** — any list, any host and any fuel; a production that the run breaks
  off is judged by the turns up to there.
-/

namespace Wiring

variable {ρ σ π : Type}

/-- How a production of the list at `place` goes that begins in `w`: what it comes to, and the
moments of it. Its turns are those of `Host.ProducesInTurn`. -/
inductive Host.ProducesList (host : Host ρ σ π) (fuel : Nat) (id : InjectorId) (place : RosterId)
    (w : World ρ σ π) : Except Halt (Except Fault Ref × World ρ σ π) → List (Moment ρ σ π) → Prop
  /-- The requests contradict each other, and nothing is produced. -/
  | contradicted {fault : Fault} (horder : (w.orderedKeys place).1 = .error fault)
      (hkind : fault.kind = .orderingCycle) :
      ProducesList host fuel id place w (.ok (.error fault, w.note (.fault fault))) []
  /-- The entries of `w` produce, in the order that they have in `w`. -/
  | inTurn {entries : List (Entry (Provider ρ))}
      {outcome : Except Halt (Except Fault (List Ref) × World ρ σ π)}
      {reply : Except Halt (Except Fault Ref × World ρ σ π)} {during : List (Moment ρ σ π)}
      (horder : (w.orderedKeys place).1 = .ok (entries.map (·.key)))
      (hentries : entries.Perm (w.roster place).entries)
      (hturns : host.ProducesInTurn fuel id (entries.map (·.provider))
        (w.note (.producingList (w.roster place).list entries.length)) outcome during)
      (hassembles : Assembles .list outcome reply) :
      ProducesList host fuel id place w reply during

theorem Host.producesList (host : Host ρ σ π) (fuel : Nat) (id : InjectorId) (place : RosterId)
    (w : World ρ σ π) :
    host.ProducesList fuel id place w
      (((Script.assembleList id place).toRun (host.answer fuel)).run w)
      ((Script.assembleList id place).moments (host.answer fuel) (host.moments fuel) w) := by
  have hkeys := w.orderedKeys_eq place
  unfold Script.assembleList
  rw [Script.moments_now_bind, Script.run_now_bind]
  cases horder : (w.roster place).order with
  | error fault =>
    simp only [World.ordered_of_error horder]
    rw [horder] at hkeys
    obtain ⟨cycle, rfl⟩ := Roster.fault_of_order horder
    exact .contradicted hkeys rfl
  | ok entries =>
    simp only [World.ordered_of_ok horder]
    rw [horder] at hkeys
    let v := w.note (.producingList (w.roster place).list entries.length)
    let turns : Script ρ σ π (Except Fault (List Ref)) :=
      .inTurn (fun entry => .ask (.produce id entry.provider)) entries
    show host.ProducesList fuel id place w
      (((Script.assemble .list turns).toRun (host.answer fuel)).run v)
      ((Script.assemble .list turns).moments (host.answer fuel) (host.moments fuel) v)
    rw [Script.moments_assemble]
    exact .inTurn hkeys (Roster.order_perm horder) (host.producesInTurn (·.provider) entries v)
      (Script.assembles_assemble .list turns v)

/-- A production of a list is settled by the entries that there are when it begins: it fails with a
contradiction and nothing is produced, or these entries take turns. If it comes to an end, the list
has by then taken all that was contributed to it meanwhile (`Collection.share`), by the calls that
were made in the turns and by those that other threads made. -/
theorem list_production_snapshot (host : Host ρ σ π) (fuel : Nat) (id : InjectorId) (place : RosterId)
    (w : World ρ σ π) :
    (∃ during,
      host.ProducesList fuel id place w ((host.answer (fuel + 1) (.produce id (.list place))).run w) during ∧
      host.moments (fuel + 1) (.produce id (.list place)) w =
        .asked (.produce id (.list place)) w :: during ++
          Moment.following ((host.answer (fuel + 1) (.produce id (.list place))).run w)
            fun reply after => [.answered (.produce id (.list place)) w reply after]) ∧
    ∀ reply after, (host.answer (fuel + 1) (.produce id (.list place))).run w = .ok (reply, after) →
      ∃ calls, w.Passes calls after ∧
        (Moment.calls (host.moments (fuel + 1) (.produce id (.list place)) w)).Sublist calls ∧
        (place.index < w.rosters.size →
          Collection.list.collect (w.roster place)
            (calls.flatMap (Collection.list.share after.numbering place)) = .ok (after.roster place)) := by
  have hrun : (Script.assembleList id place).toRun (host.answer fuel) =
      host.answer (fuel + 1) (.produce id (.list place)) :=
    Script.toRun_request host (host.answer fuel) fuel (.produce id (.list place))
  constructor
  · have hproduces := host.producesList fuel id place w
    rw [hrun] at hproduces
    exact ⟨_, hproduces, rfl⟩
  · intro reply after houtcome
    obtain ⟨calls, hpasses, htold⟩ := host.covers_moments (fuel + 1) _ w reply after houtcome
    refine ⟨calls, hpasses, htold, fun hplace => ?_⟩
    have hknown : Collection.list.Known w place := hplace
    exact (Collection.collect_shares hpasses after.numberedBy_numbering hknown).2

/-! ### An entry that meddles

While it produces, the first entry has the second produce something else, adds a third, and asks that the
third stand before itself. All this shows only in the next production. -/

def meddlingHost : Host Unit Unit Unit where
  make _ _ := do
    let _ ← Code.act (.enrol ⟨0⟩ (.ofObject (.plain "entry") 1) (.fixed ⟨11⟩))
    let _ ← Code.act (.enrol ⟨0⟩ (.ofObject (.plain "entry") 2) (.fixed ⟨12⟩))
    let _ ← Code.act (.place ⟨0⟩ (.ofObject (.plain "entry") 2) .before (.ofObject (.plain "entry") 0))
    pure (.ok ⟨10⟩)
  stage _ _ object := pure (.ok object)
  hook _ _ _ := pure (.ok ())
  kind _ := default
  imports _ := []
  configure _ _ := pure (.ok ())

def meddlingWorld : World Unit Unit Unit :=
  (World.withNewList.enrol ⟨0⟩ (.ofObject (.plain "entry") 0) (.factory (.plain "entry") ())).enrol ⟨0⟩
    (.ofObject (.plain "entry") 1) (.fixed ⟨1⟩)

theorem list_production_of_meddling :
    ∃ list after calls,
      (meddlingHost.answer 3 (.produce ⟨0⟩ (.list ⟨0⟩))).run meddlingWorld = .ok (.ok list, after) ∧
      after.content? list = some (.list [⟨10⟩, ⟨1⟩]) ∧
      meddlingWorld.Passes calls after ∧
      Collection.list.collect (meddlingWorld.roster ⟨0⟩)
        (calls.flatMap (Collection.list.share after.numbering ⟨0⟩)) = .ok (after.roster ⟨0⟩) ∧
      (after.orderedKeys ⟨0⟩).1 = .ok [.ofObject (.plain "entry") 1, .ofObject (.plain "entry") 2,
        .ofObject (.plain "entry") 0] := by
  obtain ⟨-, hkept⟩ := list_production_snapshot meddlingHost 2 ⟨0⟩ ⟨0⟩ meddlingWorld
  obtain ⟨calls, hpasses, -, hcollect⟩ := hkept _ _ rfl
  exact ⟨_, _, calls, rfl, by rfl, hpasses, hcollect (by decide), by rfl⟩

end Wiring
