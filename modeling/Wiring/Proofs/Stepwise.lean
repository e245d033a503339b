import Wiring.Proofs.Alongside
import Wiring.Proofs.Yields

/-!
# Computations that go the same way

Two computations that are put together differently can still do the same: the same step in every
world, and so on with what is left. `Run.Tracks` says so, up to a lack of fuel in the first. The one
comes to the same result as the other then, alone (`Tracks.run`) and alongside others
(`Tracks.comesTo`), whatever the others do. What one does after the other may be grouped either way,
and a step that does nothing but hand on a result may be left out: `Run.Follows` collects these
rules, and each of them keeps to the way (`Follows.tracks`).

Two providers are alike (`Host.Alike`) if what they do when they produce goes the same way, given
enough fuel. They stay alike in a wrapper and with further stages.

* **`Run.leadOn_append`** — stages may be led through in two parts, which is how a nest and a flat
  provider differ.
* **`Follows.decorating_decorating`** — a decoration round a decoration goes the same way as one
  with all the stages.
* **`Run.acc_leaves`** — no computation goes on for ever, which is what `Tracks.run` is an induction
  on.
-/

namespace Wiring

variable {ρ σ π α β γ : Type}

namespace Run

/-- Unless the first comes to `Halt.outOfFuel` next, both come to the same, with related rests. -/
inductive Progress.Match {α : Type} (related : Run ρ σ π α → Run ρ σ π α → Prop) :
    Progress ρ σ π α → Progress ρ σ π α → Prop where
  | outOfFuel (q : Progress ρ σ π α) : Match related (.halted .outOfFuel) q
  | ended (result : α) : Match related (.ended result) (.ended result)
  | halted (reason : Halt) : Match related (.halted reason) (.halted reason)
  | gaveWay {x y : Run ρ σ π α} (h : related x y) : Match related (.gaveWay x) (.gaveWay y)
  | stepped {x y : Run ρ σ π α} (h : related x y) (w : World ρ σ π) :
      Match related (.stepped x w) (.stepped y w)

/-- In all worlds `y` takes the step that `x` takes, and so on with their rests, as long as `x` has
fuel: some relation is kept by `Progress.Match` of what both come to next. -/
def Tracks (x y : Run ρ σ π α) : Prop :=
  ∃ related : Run ρ σ π α → Run ρ σ π α → Prop, related x y ∧
    ∀ x y, related x y → ∀ w, Progress.Match related (x.advance w) (y.advance w)

variable {x y z rest : Run ρ σ π α} {w after : World ρ σ π} {a : α}

/-- What is left after one step tracks what is left after the other, as `advance` tells the
steps. -/
theorem Tracks.advance (h : Tracks x y) (w : World ρ σ π) :
    Progress.Match Tracks (x.advance w) (y.advance w) := by
  obtain ⟨related, hxy, hrelated⟩ := h
  have hmatch := hrelated x y hxy w
  generalize x.advance w = p at hmatch ⊢
  generalize y.advance w = q at hmatch ⊢
  cases hmatch with
  | outOfFuel q => exact .outOfFuel q
  | ended result => exact .ended result
  | halted reason => exact .halted reason
  | gaveWay hrest => exact .gaveWay ⟨related, hrest, hrelated⟩
  | stepped hrest v => exact .stepped ⟨related, hrest, hrelated⟩ v

/-! ### What they come to -/

/-- The computation comes to the rest by a step of `advance`, in some world. -/
def Leaves (rest x : Run ρ σ π α) : Prop :=
  ∃ w, x.advance w = .gaveWay rest ∨ ∃ v, x.advance w = .stepped rest v

/-- No computation goes on forever, since `Run` is well-founded: each step leaves a smaller one. -/
theorem acc_leaves (x : Run ρ σ π α) : Acc Leaves x := by
  have hdone {α : Type} (a : α) : Acc Leaves (.done a : Run ρ σ π α) := by
    refine ⟨_, ?_⟩
    rintro rest ⟨w, h | ⟨v, h⟩⟩ <;> cases h
  induction x with
  | done a => exact hdone a
  | pause a =>
    refine ⟨_, ?_⟩
    rintro rest ⟨w, h | ⟨v, h⟩⟩
    · cases h
      exact hdone a
    · cases h
  | step take =>
    refine ⟨_, ?_⟩
    rintro rest ⟨w, h | ⟨v, h⟩⟩ <;> simp only [Run.advance] at h <;> split at h <;> cases h
    exact hdone _
  | bind first next ihf ihn =>
    -- by induction on what is left of the first; once it has ended, the second goes on
    induction ihf with
    | intro first _ ih =>
      refine ⟨_, ?_⟩
      rintro rest ⟨w, h | ⟨v, h⟩⟩
      · simp only [Run.advance] at h
        split at h
        case h_1 b _ => exact (ihn b).inv ⟨w, .inl h⟩
        case h_2 => cases h
        case h_3 left hleft =>
          cases h
          exact ih left ⟨w, .inl hleft⟩
        case h_4 => cases h
      · simp only [Run.advance] at h
        split at h
        case h_1 b _ => exact (ihn b).inv ⟨w, .inr ⟨v, h⟩⟩
        case h_2 => cases h
        case h_3 => cases h
        case h_4 left _ hleft =>
          cases h
          exact ih left ⟨w, .inr ⟨v, hleft⟩⟩

/-- Alone, by `Run.run`, the one comes to what the other comes to. By induction on the steps that
are left (`acc_leaves`). -/
theorem Tracks.run (h : Tracks x y) (w : World ρ σ π) : Halt.Agree Eq (x.run w) (y.run w) := by
  induction acc_leaves x generalizing y w with
  | intro x _ ih =>
    have hmatch := h.advance w
    rw [run_eq_of_advance x, run_eq_of_advance y]
    generalize hx : x.advance w = p at hmatch ⊢
    generalize y.advance w = q at hmatch ⊢
    cases hmatch with
    | outOfFuel q => exact .outOfFuel _
    | ended result => exact .ok rfl
    | halted reason => exact .halt reason
    | gaveWay hrest => exact ih _ ⟨w, .inl hx⟩ hrest w
    | stepped hrest v => exact ih _ ⟨w, .inr ⟨v, hx⟩⟩ hrest v

/-- Whatever is left of the one alongside others, by `Becomes`, the other can have left what that
tracks. -/
theorem Tracks.becomes {calls : List (Call ρ σ π)} (h : Tracks x y)
    (hx : x.Becomes w calls rest after) :
    ∃ left, y.Becomes w calls left after ∧ Tracks rest left := by
  induction hx with
  | refl => exact ⟨y, .refl, h⟩
  | others _ hmore ih =>
    obtain ⟨left, hleft, htracks⟩ := ih
    exact ⟨left, hleft.others hmore, htracks⟩
  | @gaveWay rest last v _ thread stack _ hstep ih =>
    obtain ⟨left, hleft, htracks⟩ := ih
    have hmatch := htracks.advance (v.switchTo thread stack)
    rw [hstep] at hmatch
    generalize hy : left.advance (v.switchTo thread stack) = q at hmatch
    cases hmatch with
    | gaveWay hrest => exact ⟨_, hleft.gaveWay hy, hrest⟩
  | @stepped rest last v u _ _ thread stack _ hstep hmore ih =>
    obtain ⟨left, hleft, htracks⟩ := ih
    have hmatch := htracks.advance (v.switchTo thread stack)
    rw [hstep] at hmatch
    generalize hy : left.advance (v.switchTo thread stack) = q at hmatch
    cases hmatch with
    | stepped hrest _ => exact ⟨_, hleft.stepped hy hmore, hrest⟩

/-- Alongside others, the one can come to whatever the other comes to, by `Tracks.becomes`. -/
theorem Tracks.comesTo {calls : List (Call ρ σ π)} (h : Tracks x y) (hx : x.ComesTo w calls a after) :
    y.ComesTo w calls a after := by
  obtain ⟨rest, hbecomes, hresult⟩ := hx
  obtain ⟨left, hleft, htracks⟩ := h.becomes hbecomes
  have hmatch := htracks.advance after
  rw [advance_eq_ended_iff.2 hresult] at hmatch
  generalize hy : left.advance after = q at hmatch
  cases hmatch
  exact ⟨left, hleft, advance_eq_ended_iff.1 hy⟩

/-! ### Ways to put a computation together -/

/-- The second is put together of the parts of the first, or of parts that follow them; the rules
are those by which steps may be grouped, and results handed on. -/
inductive Follows {ρ σ π : Type} : {α : Type} → Run ρ σ π α → Run ρ σ π α → Prop where
  | refines {α : Type} {x y : Run ρ σ π α} (h : Refines x y) : Follows x y
  | bind {α β : Type} {x y : Run ρ σ π β} {f g : β → Run ρ σ π α} (h : Follows x y)
      (k : ∀ b, Follows (f b) (g b)) : Follows (.bind x f) (.bind y g)
  | assoc {α β γ : Type} (x : Run ρ σ π γ) (f : γ → Run ρ σ π β) (g : β → Run ρ σ π α) :
      Follows (.bind (.bind x f) g) (.bind x fun c => .bind (f c) g)
  | unassoc {α β γ : Type} (x : Run ρ σ π γ) (f : γ → Run ρ σ π β) (g : β → Run ρ σ π α) :
      Follows (.bind x fun c => .bind (f c) g) (.bind (.bind x f) g)
  | done_bind {α β : Type} (b : β) (f : β → Run ρ σ π α) : Follows (.bind (.done b) f) (f b)
  | undone_bind {α β : Type} (b : β) (f : β → Run ρ σ π α) : Follows (f b) (.bind (.done b) f)
  | bind_done {α : Type} (x : Run ρ σ π α) : Follows (.bind x .done) x
  | unbind_done {α : Type} (x : Run ρ σ π α) : Follows x (.bind x .done)
  | trans {α : Type} {x y z : Run ρ σ π α} (h : Follows x y) (k : Follows y z) : Follows x z

namespace Follows

theorem refl (x : Run ρ σ π α) : Follows x x :=
  .refines (.refl x)

/-- What is the same on both sides matches, by `Follows` itself. -/
theorem matches_self (p : Progress ρ σ π α) : Progress.Match Follows p p := by
  cases p with
  | ended result => exact .ended result
  | halted reason => exact .halted reason
  | gaveWay rest => exact .gaveWay (.refl rest)
  | stepped rest w => exact .stepped (.refl rest) w

theorem matches_trans {p q r : Progress ρ σ π α} (h : Progress.Match Follows p q)
    (k : Progress.Match Follows q r) : Progress.Match Follows p r := by
  cases h with
  | outOfFuel q => exact .outOfFuel r
  | ended result => exact k
  | halted reason => exact k
  | gaveWay hxy =>
    cases k with
    | gaveWay hyz => exact .gaveWay (hxy.trans hyz)
  | stepped hxy w =>
    cases k with
    | stepped hyz _ => exact .stepped (hxy.trans hyz) w

theorem advance (h : Follows x y) (w : World ρ σ π) :
    Progress.Match Follows (x.advance w) (y.advance w) := by
  induction h generalizing w with
  | @refines _ x y h =>
    have hagree := h.advance w
    generalize x.advance w = p at hagree ⊢
    generalize y.advance w = q at hagree ⊢
    cases hagree with
    | outOfFuel q => exact .outOfFuel q
    | ended result => exact .ended result
    | halted reason => exact .halted reason
    | gaveWay hrest => exact .gaveWay (.refines hrest)
    | stepped hrest v => exact .stepped (.refines hrest) v
  | @bind _ _ x y f g h k ih ihk =>
    rw [Run.advance, Run.advance]
    have hmatch := ih w
    generalize x.advance w = p at hmatch ⊢
    generalize y.advance w = q at hmatch ⊢
    cases hmatch with
    | outOfFuel q => exact .outOfFuel _
    | ended b => exact ihk b w
    | halted reason => exact .halted reason
    | gaveWay hrest => exact .gaveWay (.bind hrest k)
    | stepped hrest v => exact .stepped (.bind hrest k) v
  | assoc x f g =>
    -- both take the steps of the innermost first, and only its end is passed on differently
    simp only [Run.advance]
    cases x.advance w with
    | ended b => exact matches_self _
    | halted reason => exact .halted reason
    | gaveWay rest => exact .gaveWay (.assoc rest f g)
    | stepped rest v => exact .stepped (.assoc rest f g) v
  | unassoc x f g =>
    simp only [Run.advance]
    cases x.advance w with
    | ended b => exact matches_self _
    | halted reason => exact .halted reason
    | gaveWay rest => exact .gaveWay (.unassoc rest f g)
    | stepped rest v => exact .stepped (.unassoc rest f g) v
  | done_bind b f => exact matches_self _
  | undone_bind b f => exact matches_self _
  | bind_done x =>
    rw [Run.advance]
    cases x.advance w with
    | ended b => exact .ended b
    | halted reason => exact .halted reason
    | gaveWay rest => exact .gaveWay (.bind_done rest)
    | stepped rest v => exact .stepped (.bind_done rest) v
  | unbind_done x =>
    rw [Run.advance]
    cases x.advance w with
    | ended b => exact .ended b
    | halted reason => exact .halted reason
    | gaveWay rest => exact .gaveWay (.unbind_done rest)
    | stepped rest v => exact .stepped (.unbind_done rest) v
  | trans _ _ ih ih' => exact matches_trans (ih w) (ih' w)

theorem tracks (h : Follows x y) : Tracks x y :=
  ⟨Follows, h, fun _ _ h w => h.advance w⟩

end Follows

/-- Leads on what has come of leading a value through so far: a fault goes on as it is. -/
def leadOn (f : α → β → Run ρ σ π (Except Fault β)) (items : List α) :
    Except Fault β → Run ρ σ π (Except Fault β)
  | .error fault => pure (.error fault)
  | .ok b => through f items b

theorem leadOn_refines {f g : α → β → Run ρ σ π (Except Fault β)} (h : ∀ a b, Refines (f a b) (g a b))
    (items : List α) (outcome : Except Fault β) :
    Refines (leadOn f items outcome) (leadOn g items outcome) := by
  cases outcome with
  | error fault => exact .refl _
  | ok b => exact through_refines h items b

/-- To lead a value through some and then through more is to lead it through all of them, by
`leadOn`. -/
theorem leadOn_append (f : α → β → Run ρ σ π (Except Fault β)) (first more : List α)
    (outcome : Except Fault β) :
    Follows (.bind (leadOn f first outcome) (leadOn f more)) (leadOn f (first ++ more) outcome) ∧
      Follows (leadOn f (first ++ more) outcome) (.bind (leadOn f first outcome) (leadOn f more)) := by
  have herror (fault : Fault) (items : List α) :
      Follows (.bind (leadOn f items (.error fault)) (leadOn f more)) (.done (.error fault)) ∧
        Follows (.done (.error fault)) (.bind (leadOn f items (.error fault)) (leadOn f more)) :=
    ⟨.done_bind _ _, .undone_bind (Except.error fault : Except Fault β) (leadOn f more)⟩
  induction first generalizing outcome with
  | nil =>
    cases outcome with
    | error fault => exact herror fault []
    | ok b => exact ⟨.done_bind _ _, .undone_bind (Except.ok b : Except Fault β) (leadOn f more)⟩
  | cons a rest ih =>
    cases outcome with
    | error fault => exact herror fault (a :: rest)
    | ok b =>
      -- the value has gone through `a`, and what comes of it is led on
      have hcons (items : List α) :
          leadOn f (a :: items) (.ok b) = .bind (f a b) (leadOn f items) := rfl
      rw [List.cons_append, hcons, hcons]
      exact ⟨.trans (.assoc _ _ _) (.bind (.refl _) fun next => (ih next).1),
        .trans (.bind (.refl _) fun next => (ih next).2) (.unassoc _ _ _)⟩

end Run

/-! ### Providers -/

namespace Engine

variable {f g : (request : Request ρ σ π) → Run ρ σ π request.Answer} {id : InjectorId}
variable {p q : Provider ρ}

/-- A singleton follows another with the same slot and key if its delegate follows that one's: the
steps of `single` are the same otherwise. -/
theorem single_follows
    (h : Run.Follows (f (.produce id p) : Run ρ σ π (Except Fault Ref)) (g (.produce id q)))
    (slot : SlotId) (key : Key) (type : ValueType) :
    Run.Follows (single f id slot key type p) (single g id slot key type q) := by
  have hinitialise : Run.Follows (initialise f id slot key type p) (initialise g id slot key type q) := by
    refine .bind (.refl _) fun _ => .bind (.refl _) fun _ => .bind h fun outcome => ?_
    cases outcome <;> exact .refl _
  have hmake : Run.Follows (takeOrMake f id slot key type p) (takeOrMake g id slot key type q) := by
    refine .bind (.refl _) fun taken => ?_
    cases taken with
    | some object => exact .refl _
    | none => exact hinitialise
  have hawait : Run.Follows (await f id slot key type p) (await g id slot key type q) := by
    refine .bind (.refl _) fun granted => ?_
    cases granted with
    | error _ => exact .refl _
    | ok _ => exact .bind hmake fun _ => .refl _
  refine .bind (.refl _) fun state => ?_
  cases state with
  | filled _ => exact .refl _
  | busy => exact hawait
  | empty => exact hawait

end Engine

namespace Host

/-- What a provider does when it produces, by `Engine.produce`, with so much fuel. -/
def production (host : Host ρ σ π) (id : InjectorId) (p : Provider ρ) (fuel : Nat) :
    Run ρ σ π (Except Fault Ref) :=
  host.answer fuel (.produce id p)

/-- However much fuel the one provider has to produce with, the other follows with enough, by
`Run.Follows`. -/
def Follows (host : Host ρ σ π) (id : InjectorId) (p q : Provider ρ) : Prop :=
  ∀ fuel, ∃ enough, Run.Follows (host.production id p fuel) (host.production id q enough)

/-- What the one provider does when it produces goes the same way as what the other does: each
`Follows` the other. -/
structure Alike (host : Host ρ σ π) (id : InjectorId) (p q : Provider ρ) : Prop where
  forth : ∀ fuel, ∃ enough, Run.Tracks (host.production id p fuel) (host.production id q enough)
  back : ∀ fuel, ∃ enough, Run.Tracks (host.production id q fuel) (host.production id p enough)

variable {host : Host ρ σ π} {id : InjectorId} {p q s : Provider ρ}

theorem Alike.of_follows (h : host.Follows id p q) (h' : host.Follows id q p) : host.Alike id p q where
  forth fuel := (h fuel).imp fun _ h => h.tracks
  back fuel := (h' fuel).imp fun _ h => h.tracks

/-- Alone, alike providers come to the same by `Host.Yields`. -/
theorem Alike.yields (h : host.Alike id p q) {w after : World ρ σ π} {reply : Except Fault Ref} :
    host.Yields (fun answer => answer (.produce id p)) w reply after ↔
      host.Yields (fun answer => answer (.produce id q)) w reply after := by
  have hhalf {p q : Provider ρ}
      (htracks : ∀ fuel, ∃ enough, Run.Tracks (host.production id p fuel) (host.production id q enough))
      (hp : host.Yields (fun answer => answer (.produce id p)) w reply after) :
      host.Yields (fun answer => answer (.produce id q)) w reply after := by
    obtain ⟨fuel, hfuel⟩ := hp
    obtain ⟨enough, htracks⟩ := htracks fuel
    have hagree := htracks.run w
    have hrun : (host.production id p fuel).run w = .ok (reply, after) := hfuel fuel (Nat.le_refl fuel)
    rw [hrun] at hagree
    generalize hq : (host.production id q enough).run w = outcome at hagree
    cases hagree with
    | ok heq => exact .of_answer enough (heq ▸ hq)
  exact ⟨hhalf h.forth, hhalf h.back⟩

namespace Follows

theorem trans (h : host.Follows id p q) (h' : host.Follows id q s) : host.Follows id p s := by
  intro fuel
  obtain ⟨between, hpq⟩ := h fuel
  obtain ⟨enough, hqs⟩ := h' between
  exact ⟨enough, hpq.trans hqs⟩

theorem production_refines (host : Host ρ σ π) (id : InjectorId) (p : Provider ρ) {m n : Nat}
    (h : m ≤ n) : Run.Refines (host.production id p m) (host.production id p n) :=
  host.answer_refines h (.produce id p)

/-- The same in a wrapper, by `single_follows`. -/
theorem singleton (h : host.Follows id p q) (slot : SlotId) (key : Key) (type : ValueType) :
    host.Follows id (.singleton slot key type p) (.singleton slot key type q) := by
  intro fuel
  obtain ⟨enough, h⟩ := h fuel
  refine ⟨enough + 1, .trans (.refines (production_refines host id _ (Nat.le_succ fuel))) ?_⟩
  exact Engine.single_follows h slot key type

/-! ### Stages -/

theorem production_decorating (host : Host ρ σ π) (id : InjectorId) (p : Provider ρ)
    (stages : List (Stage ρ)) (fuel : Nat) :
    host.production id (.decorating p stages) (fuel + 1) =
      .bind (host.production id p fuel)
        (Run.leadOn (Engine.complete host (host.answer fuel) id) stages) := by
  refine congrArg (Run.bind _) (funext fun outcome => ?_)
  cases outcome <;> rfl

/-- With more fuel, the stages do the same, as `Host.answer_refines` says of all that they ask
for. -/
theorem stages_refine (host : Host ρ σ π) (id : InjectorId) (stages : List (Stage ρ)) {m n : Nat}
    (h : m ≤ n) (outcome : Except Fault Ref) :
    Run.Refines (Run.leadOn (Engine.complete host (host.answer m) id) stages outcome)
      (Run.leadOn (Engine.complete host (host.answer n) id) stages outcome) :=
  Run.leadOn_refines (Engine.complete_refines (host.answer_refines h) id) stages outcome

/-- The same with further stages, on either side. -/
theorem decorating (h : host.Follows id p q) (stages : List (Stage ρ)) :
    host.Follows id (.decorating p stages) (.decorating q stages) := by
  intro fuel
  obtain ⟨enough, h⟩ := h fuel
  -- the stages need the fuel that they had before
  refine ⟨max fuel enough + 1, .trans (.refines (production_refines host id _ (Nat.le_succ fuel))) ?_⟩
  rw [production_decorating, production_decorating]
  refine .bind (h.trans (.refines ?_)) fun outcome => .refines ?_
  · exact production_refines host id q (Nat.le_max_right fuel enough)
  · exact stages_refine host id stages (Nat.le_max_left fuel enough) outcome

/-- No stages are as good as no decoration. -/
theorem decorating_nil (p : Provider ρ) :
    host.Follows id (.decorating p []) p ∧ host.Follows id p (.decorating p []) := by
  have heq (fuel : Nat) : host.production id (.decorating p []) (fuel + 1) =
      .bind (host.production id p fuel) .done := by
    rw [production_decorating]
    refine congrArg (Run.bind _) (funext fun outcome => ?_)
    cases outcome <;> rfl
  constructor
  · intro fuel
    refine ⟨fuel, .trans (.refines (production_refines host id _ (Nat.le_succ fuel))) ?_⟩
    rw [heq]
    exact .bind_done _
  · intro fuel
    refine ⟨fuel + 1, ?_⟩
    rw [heq]
    exact .unbind_done _

/-- Stages round stages are the ones after the others, by `leadOn_append`. -/
theorem decorating_decorating (p : Provider ρ) (first more : List (Stage ρ)) :
    host.Follows id (.decorating (.decorating p first) more) (.decorating p (first ++ more)) ∧
      host.Follows id (.decorating p (first ++ more)) (.decorating (.decorating p first) more) := by
  constructor
  · intro fuel
    refine ⟨fuel + 2, .trans (.refines (production_refines host id _ (Nat.le_add_right fuel 2))) ?_⟩
    rw [production_decorating, production_decorating, production_decorating]
    refine .trans (.assoc _ _ _) ?_
    refine .bind (.refines (production_refines host id p (Nat.le_succ fuel))) fun outcome => ?_
    -- the inner stages have less fuel than the outer ones
    have hinner := stages_refine host id first (Nat.le_succ fuel) outcome
    exact .trans (.bind (.refines hinner) fun _ => .refl _) (Run.leadOn_append _ first more outcome).1
  · intro fuel
    refine ⟨fuel + 2, .trans (.refines (production_refines host id _ (Nat.le_succ fuel))) ?_⟩
    rw [production_decorating, production_decorating, production_decorating]
    refine .trans (.bind (.refl _) fun outcome => (Run.leadOn_append _ first more outcome).2) ?_
    refine .trans (.unassoc _ _ _) (.bind (.refl _) fun outcome => .refines ?_)
    exact stages_refine host id more (Nat.le_succ fuel) outcome

end Follows

end Host

end Wiring
