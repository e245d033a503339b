import Wiring.Proofs.LinearOrder
import Wiring.Proofs.Rewrapping
import Wiring.Proofs.Yields

/-!
# What a run passes

A computation that runs alone comes to one world after the other. `Run.Visits` are these worlds,
whether the computation comes to an end or not, so a bound that all of them keep is a bound on the
whole way. With more fuel a computation visits whatever it visits with less (`Run.Refines.visits`).

`Host.Ends` says that a part of the engine comes to an end, and what the worlds on the way are like.
Its rules follow the shape of the parts, as those of `Host.Yields` do; `Host.Ends.yields` leads from
the one to the other.

* **`Ends.next`** and **`Ends.of_step`** — one step and one request at a time.
* **`Code.Acts`** — code of actions alone, none of them on the resolve stack; it comes to an end
  (`Acts.ends`).
-/

namespace Wiring

variable {ρ σ π α β : Type}

namespace Run

/-- The computation, run alone in a world, comes to another on the way, step by step with
`Run.advance`. -/
inductive Visits {ρ σ π α : Type} : Run ρ σ π α → World ρ σ π → World ρ σ π → Prop
  | stepped {x rest : Run ρ σ π α} {w v : World ρ σ π} (h : x.advance w = .stepped rest v) :
      Visits x w v
  | later {x rest : Run ρ σ π α} {w u v : World ρ σ π} (h : x.advance w = .stepped rest u)
      (hrest : Visits rest u v) : Visits x w v
  | gaveWay {x rest : Run ρ σ π α} {w v : World ρ σ π} (h : x.advance w = .gaveWay rest)
      (hrest : Visits rest w v) : Visits x w v

variable {x y : Run ρ σ π α} {w v after : World ρ σ π} {a : α}

theorem not_visits_pure : ¬ Visits (pure a : Run ρ σ π α) w v := by
  rintro (⟨h⟩ | ⟨h, -⟩ | ⟨h, -⟩) <;> cases h

theorem visits_step {take : World ρ σ π → Except Halt (α × World ρ σ π)}
    (h : take w = .ok (a, after)) (hv : Visits (.step take) w v) : v = after := by
  have hadvance : (Run.step take).advance w = .stepped (.done a) after := by rw [advance, h]
  cases hv with
  | stepped hs =>
    rw [hadvance] at hs
    cases hs
    rfl
  | later hs hrest =>
    rw [hadvance] at hs
    cases hs
    exact absurd hrest not_visits_pure
  | gaveWay hs _ =>
    rw [hadvance] at hs
    cases hs

/-- What two computations one after the other visit, the first visits, or the second after that has
come to its result by `Run.run`. -/
theorem visits_bind {x : Run ρ σ π β} {f : β → Run ρ σ π α} (h : Visits (x >>= f) w v) :
    Visits x w v ∨ ∃ b u, x.run w = .ok (b, u) ∧ Visits (f b) u v := by
  have hbind {y : Run ρ σ π α} {w v : World ρ σ π} (h : Visits y w v) : ∀ x : Run ρ σ π β,
      y = .bind x f → Visits x w v ∨ ∃ b u, x.run w = .ok (b, u) ∧ Visits (f b) u v := by
    -- by induction on the way of the whole; where the first part has ended, the way is the second's
    induction h with
    | stepped h =>
      rintro x rfl
      have hrun := run_eq_of_advance x
      rw [advance] at h
      split at h
      case h_1 b hx => exact .inr ⟨b, _, by rw [hrun, hx], .stepped h⟩
      case h_2 => cases h
      case h_3 => cases h
      case h_4 hx =>
        cases h
        exact .inl (.stepped hx)
    | later h hrest ih =>
      rintro x rfl
      have hrun := run_eq_of_advance x
      rw [advance] at h
      split at h
      case h_1 b hx => exact .inr ⟨b, _, by rw [hrun, hx], .later h hrest⟩
      case h_2 => cases h
      case h_3 => cases h
      case h_4 hx =>
        cases h
        rcases ih _ rfl with hv | ⟨b, u, hb, hv⟩
        · exact .inl (.later hx hv)
        · exact .inr ⟨b, u, by rw [hrun, hx]; exact hb, hv⟩
    | gaveWay h hrest ih =>
      rintro x rfl
      have hrun := run_eq_of_advance x
      rw [advance] at h
      split at h
      case h_1 b hx => exact .inr ⟨b, _, by rw [hrun, hx], .gaveWay h hrest⟩
      case h_2 => cases h
      case h_3 hx =>
        cases h
        rcases ih _ rfl with hv | ⟨b, u, hb, hv⟩
        · exact .inl (.gaveWay hx hv)
        · exact .inr ⟨b, u, by rw [hrun, hx]; exact hb, hv⟩
      case h_4 => cases h
  exact hbind h x rfl

/-- A computation that does what another does, by `Refines`, visits what that one visits. -/
theorem Refines.visits (h : Refines x y) (hv : Visits x w v) : Visits y w v := by
  induction hv generalizing y with
  | @stepped x rest w v hx =>
    have hnext := h.advance w
    rw [hx] at hnext
    generalize hy : y.advance w = next at hnext
    cases hnext with
    | stepped _ _ => exact .stepped hy
  | @later x rest w u v hx _ ih =>
    have hnext := h.advance w
    rw [hx] at hnext
    generalize hy : y.advance w = next at hnext
    cases hnext with
    | stepped hrest _ => exact .later hy (ih hrest)
  | @gaveWay x rest w v hx _ ih =>
    have hnext := h.advance w
    rw [hx] at hnext
    generalize hy : y.advance w = next at hnext
    cases hnext with
    | gaveWay hrest => exact .gaveWay hy (ih hrest)

end Run

/-! ### Parts that come to an end -/

/-- With enough fuel the part, run alone in `w`, comes to an end as `ends` has it, and all worlds
that it `Visits` on the way are as `within` has it. -/
def Host.Ends (host : Host ρ σ π) (within : World ρ σ π → Prop)
    (part : ((request : Request ρ σ π) → Run ρ σ π request.Answer) → Run ρ σ π α)
    (w : World ρ σ π) (ends : α → World ρ σ π → Prop) : Prop :=
  ∃ enough a after, ends a after ∧ ∀ fuel, enough ≤ fuel →
    (part (host.answer fuel)).run w = .ok (a, after) ∧
      ∀ v, (part (host.answer fuel)).Visits w v → within v

namespace Host.Ends

variable {host : Host ρ σ π} {within : World ρ σ π → Prop} {w after : World ρ σ π} {a : α}
variable {part : ((request : Request ρ σ π) → Run ρ σ π request.Answer) → Run ρ σ π α}
variable {ends : α → World ρ σ π → Prop}

theorem mono {other : α → World ρ σ π → Prop} (h : host.Ends within part w ends)
    (himp : ∀ a after, ends a after → other a after) : host.Ends within part w other := by
  obtain ⟨enough, a, after, hends, h⟩ := h
  exact ⟨enough, a, after, himp a after hends, h⟩

theorem pure (h : ends a w) : host.Ends within (fun _ => (Pure.pure a : Run ρ σ π α)) w ends :=
  ⟨0, a, w, h, fun _ _ => ⟨rfl, fun _ hv => absurd hv Run.not_visits_pure⟩⟩

theorem step {take : World ρ σ π → Except Halt (α × World ρ σ π)} (h : take w = .ok (a, after))
    (hwithin : within after) (hends : ends a after) : host.Ends within (fun _ => .step take) w ends :=
  ⟨0, a, after, hends, fun _ _ => ⟨h, fun _ hv => Run.visits_step h hv ▸ hwithin⟩⟩

theorem now {f : World ρ σ π → α × World ρ σ π} (h : f w = (a, after)) (hwithin : within after)
    (hends : ends a after) : host.Ends within (fun _ => Run.now f) w ends :=
  step (congrArg Except.ok h) hwithin hends

theorem bind {first : ((request : Request ρ σ π) → Run ρ σ π request.Answer) → Run ρ σ π β}
    {rest : ((request : Request ρ σ π) → Run ρ σ π request.Answer) → β → Run ρ σ π α}
    {between : β → World ρ σ π → Prop} (hfirst : host.Ends within first w between)
    (hrest : ∀ b u, between b u → host.Ends within (fun answer => rest answer b) u ends) :
    host.Ends within (fun answer => first answer >>= rest answer) w ends := by
  obtain ⟨m, b, u, hbetween, hm⟩ := hfirst
  obtain ⟨n, a, after, hends, hn⟩ := hrest b u hbetween
  refine ⟨max m n, a, after, hends, fun fuel hfuel => ?_⟩
  obtain ⟨hrun, hvisits⟩ := hm fuel (by omega)
  obtain ⟨hrun', hvisits'⟩ := hn fuel (by omega)
  refine ⟨by rw [Run.run_bind, hrun]; exact hrun', fun v hv => ?_⟩
  rcases Run.visits_bind hv with hfirst | ⟨c, t, hc, hlater⟩
  · exact hvisits v hfirst
  · rw [hrun] at hc
    cases hc
    exact hvisits' v hlater

variable {rest : ((request : Request ρ σ π) → Run ρ σ π request.Answer) → β → Run ρ σ π α}
variable {b : β} {u : World ρ σ π}

/-- One `Run.step` first, which `within` has to allow, and then the rest. -/
theorem next {take : World ρ σ π → Except Halt (β × World ρ σ π)} (h : take w = .ok (b, u))
    (hwithin : within u) (hrest : host.Ends within (fun answer => rest answer b) u ends) :
    host.Ends within (fun answer => .step take >>= rest answer) w ends := by
  have hstep : host.Ends within (fun _ => .step take) w fun c v => c = b ∧ v = u :=
    step h hwithin ⟨rfl, rfl⟩
  refine bind hstep ?_
  rintro _ _ ⟨rfl, rfl⟩
  exact hrest

theorem next_now {f : World ρ σ π → β × World ρ σ π} (h : f w = (b, u)) (hwithin : within u)
    (hrest : host.Ends within (fun answer => rest answer b) u ends) :
    host.Ends within (fun answer => Run.now f >>= rest answer) w ends :=
  next (congrArg Except.ok h) hwithin hrest

theorem next_change {f : World ρ σ π → World ρ σ π}
    {rest : ((request : Request ρ σ π) → Run ρ σ π request.Answer) → Unit → Run ρ σ π α}
    (hwithin : within (f w)) (hrest : host.Ends within (fun answer => rest answer ()) (f w) ends) :
    host.Ends within (fun answer => Run.change f >>= rest answer) w ends :=
  next_now rfl hwithin hrest

/-- A request is carried out with one unit of fuel less, as `Engine.step` has it. -/
theorem of_step {request : Request ρ σ π} {ends : request.Answer → World ρ σ π → Prop}
    {part : ((request : Request ρ σ π) → Run ρ σ π request.Answer) → Run ρ σ π request.Answer}
    (hpart : ∀ fuel answer, Engine.step host fuel answer request = part answer)
    (h : host.Ends within part w ends) :
    host.Ends within (fun answer => answer request) w ends := by
  obtain ⟨enough, a, after, hends, h⟩ := h
  refine ⟨enough + 1, a, after, hends, fun fuel hfuel => ?_⟩
  obtain ⟨less, rfl⟩ : ∃ less, fuel = less + 1 := ⟨fuel - 1, by omega⟩
  show (Engine.step host less (host.answer less) request).run w = .ok (a, after) ∧
    ∀ v, (Engine.step host less (host.answer less) request).Visits w v → within v
  rw [hpart]
  exact h less (by omega)

/-- Several parts by `Run.inTurn` come to an end, whatever it is that each keeps. -/
theorem inTurn {γ : Type} {f : ((request : Request ρ σ π) → Run ρ σ π request.Answer) → γ →
      Run ρ σ π (Except Fault β)} {kept : World ρ σ π → Prop} {items : List γ} (hw : kept w)
    (h : ∀ item ∈ items, ∀ u, kept u →
      host.Ends within (fun answer => f answer item) u fun _ => kept) :
    host.Ends within (fun answer => Run.inTurn (f answer) items) w fun _ => kept := by
  induction items generalizing w with
  | nil => exact pure hw
  | cons item rest ih =>
    refine bind (h item (.head _) w hw) fun outcome u hu => ?_
    cases outcome with
    | error _ => exact pure hu
    | ok b =>
      refine bind (ih hu fun later hlater => h later (.tail _ hlater)) fun outcomes after hafter => ?_
      cases outcomes with
      | error _ => exact pure hafter
      | ok _ => exact pure hafter

theorem through {γ : Type} {f : ((request : Request ρ σ π) → Run ρ σ π request.Answer) → γ → β →
      Run ρ σ π (Except Fault β)} {kept : World ρ σ π → Prop} {items : List γ} {b : β} (hw : kept w)
    (h : ∀ item ∈ items, ∀ b u, kept u →
      host.Ends within (fun answer => f answer item b) u fun _ => kept) :
    host.Ends within (fun answer => Run.through (f answer) items b) w fun _ => kept := by
  induction items generalizing w b with
  | nil => exact pure hw
  | cons item rest ih =>
    refine bind (h item (.head _) b w hw) fun outcome u hu => ?_
    cases outcome with
    | error _ => exact pure hu
    | ok b => exact ih hu fun later hlater => h later (.tail _ hlater)

/-! ### Lists and maps -/

variable {kept : World ρ σ π → Prop} {id : InjectorId}

/-- A list comes to an end if its entries do, whatever it is that each keeps, in the order that
`Roster.order` gives at the start. -/
theorem assembleList {roster : RosterId} (hwithin : ∀ v, kept v → within v)
    (hnote : ∀ v event, kept v → kept (v.note event))
    (hallocate : ∀ v content, kept v → kept (v.allocate content).2) (hw : kept w)
    (hentries : ∀ entry ∈ (w.roster roster).entries, ∀ u, kept u →
      host.Ends within (fun answer => answer (.produce id entry.provider)) u fun _ => kept) :
    host.Ends within (fun answer => Engine.assembleList answer id roster) w fun _ => kept := by
  cases horder : (w.roster roster).order with
  | error fault =>
    have hraised := hnote w (.fault fault) hw
    exact next_now (World.ordered_of_error horder) (hwithin _ hraised) (pure hraised)
  | ok entries =>
    have hnoted := hnote w (.producingList (w.roster roster).list entries.length) hw
    refine next_now (World.ordered_of_ok horder) (hwithin w hw) (next_change (hwithin _ hnoted)
      (bind (inTurn hnoted fun entry hentry =>
        hentries entry ((Roster.order_perm horder).mem_iff.1 hentry)) ?_))
    intro outcome u hu
    cases outcome with
    | error _ => exact pure hu
    | ok objects => exact next_now rfl (hwithin _ (hallocate u _ hu)) (pure (hallocate u _ hu))

theorem assembleMap {catalog : CatalogId} (hwithin : ∀ v, kept v → within v)
    (hallocate : ∀ v content, kept v → kept (v.allocate content).2) (hw : kept w)
    (hrows : ∀ row ∈ (w.catalog catalog).entries.rows, ∀ u, kept u →
      host.Ends within (fun answer => answer (.produce id row.2)) u fun _ => kept) :
    host.Ends within (fun answer => Engine.assembleMap answer id catalog) w fun _ => kept := by
  refine next_now rfl (hwithin w hw) (bind (inTurn hw hrows) fun outcome u hu => ?_)
  cases outcome with
  | error _ => exact pure hu
  | ok objects => exact next_now rfl (hwithin _ (hallocate u _ hu)) (pure (hallocate u _ hu))

/-! ### Requests -/

/-- What a request comes to by `Host.Yields`, and what it `Visits` with whatever fuel: with less
than enough it visits part of the way. -/
theorem yields {request : Request ρ σ π} {ends : request.Answer → World ρ σ π → Prop}
    (h : host.Ends within (fun answer => answer request) w ends) :
    (∃ reply after, host.Yields (fun answer => answer request) w reply after ∧ ends reply after) ∧
      ∀ fuel v, (host.answer fuel request).Visits w v → within v := by
  obtain ⟨enough, reply, after, hends, h⟩ := h
  refine ⟨⟨reply, after, ⟨enough, fun fuel hfuel => (h fuel hfuel).1⟩, hends⟩, fun fuel v hv => ?_⟩
  have hmore := (host.answer_refines (Nat.le_max_left fuel enough) request).visits hv
  exact (h _ (Nat.le_max_right fuel enough)).2 v hmore

end Host.Ends

/-! ### Code that resolves nothing -/

/-- The code makes no request but for actions, none of them on the resolve stack by
`Action.isByHand`. -/
inductive Code.Acts : Code ρ σ π α → Prop
  | done (a : α) : Acts (.done a)
  | ask {action : Action ρ σ π} {next : action.Answer → Code ρ σ π α}
      (haction : action.isByHand = false) (hnext : ∀ reply, Acts (next reply)) :
      Acts (.ask (.act action) next)

/-- Such code comes to an end as `Code.Performs` tells it, and nothing on the way changes but what
actions change. -/
theorem Code.Acts.ends {host : Host ρ σ π} {within : World ρ σ π → Prop} {code : Code ρ σ π α}
    (h : code.Acts) {w : World ρ σ π} (hwithin : ∀ v, w.Undisturbed v → within v) :
    host.Ends within (fun answer => code.run answer) w fun a after =>
      code.Performs w a after ∧ w.Undisturbed after := by
  induction h generalizing w with
  | done a => exact .pure ⟨.done a w, .refl w⟩
  | @ask action next haction _ ih =>
    have hquiet : w.Undisturbed (action.perform w).2 := (World.Edits.perform haction w).undisturbed
    have hact : host.Ends within (fun answer => answer (.act action)) w
        fun reply after => reply = (action.perform w).1 ∧ after = (action.perform w).2 :=
      .of_step (fun _ _ => rfl) (.now rfl (hwithin _ hquiet) ⟨rfl, rfl⟩)
    refine .bind hact ?_
    rintro _ _ ⟨rfl, rfl⟩
    refine (ih _ fun v hv => hwithin v (hquiet.trans hv)).mono ?_
    rintro a after ⟨hperforms, hafter⟩
    exact ⟨.act hperforms, hquiet.trans hafter⟩

end Wiring
