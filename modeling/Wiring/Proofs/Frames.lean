import Wiring.Proofs.RunTrails
import Wiring.Proofs.WorkingSingletons

/-!
# What is in progress

What has begun on a thread and has not ended is told by the moments of its run: resolutions, gets,
delegates of singletons at work, and keys that the host's code has put on the resolve stack by hand.
These frames stand in a list, the innermost first; `Moment.frames` says what one moment does to it.

`World.Records` ties the world to the frames: the resolve stack holds the keys of the frames, the
waits of each injector the productions of those delegates that were given this injector, and the
slots of the delegates at work are busy. A step lemma for each way in which a frame begins or ends
keeps this (`Records.push`, `Records.pop`, `Records.make`, `Records.unmake`), and whatever is made
of small changes leaves it alone (`Records.of_edits`).

* **`Frame.close`** and **`Frame.unguarded`** — how frames end, and which of them are guards that
  were put since.
* **`Moment.Along`** — a property of what is in progress at each moment of a run.
-/

namespace Wiring

variable {ρ σ π : Type}

/-! ### Frames -/

/-- Something that has begun on a thread and has not ended, as the moments of `Script.moments` tell
it. -/
inductive Frame (ρ : Type) where
  | resolving (id : InjectorId) (key : Key)
  | producing (id : InjectorId) (provider : Provider ρ)
  /-- The delegate of the singleton with this slot is at work, and its production is recorded under
  `key` in the waits of the injector. -/
  | making (id : InjectorId) (slot : SlotId) (key : Key)
  /-- The host's code has put the key on the resolve stack, by `Action.pushKey`. -/
  | guarding (key : Key)

namespace Frame

def isGuard : Frame ρ → Bool
  | .guarding _ => true
  | _ => false

/-- A delegate is at work, that is, the frame is a `making`. -/
def isMaking : Frame ρ → Bool
  | .making _ _ _ => true
  | _ => false

/-- The key that a frame has on the resolve stack, that of a `resolving` or a `guarding`. -/
def key? : Frame ρ → Option Key
  | .resolving _ key => some key
  | .guarding key => some key
  | _ => none

/-- The key under which a frame is a production in the waits of an injector: that of a `making` with
it. -/
def made? (id : InjectorId) : Frame ρ → Option Key
  | .making other _ key => if other = id then some key else none
  | _ => none

/-- The keys of the frames on the resolve stack by `key?`, outermost first. -/
def keys (F : List (Frame ρ)) : List Key :=
  (F.filterMap key?).reverse

/-- The keys that are in production in the waits of an injector by `made?`, in the order in which
that began. -/
def made (id : InjectorId) (F : List (Frame ρ)) : List Key :=
  (F.filterMap (made? id)).reverse

/-- Whether the innermost frame is a key that the host's code has put on the stack, a `guarding`. -/
def guarded (F : List (Frame ρ)) : Bool :=
  F.head?.any isGuard

/-- The frames without those of `guarding` that were put since the innermost of the others began. -/
def unguarded (F : List (Frame ρ)) : List (Frame ρ) :=
  F.dropWhile isGuard

/-- The frames of the delegates at work, by `isMaking`. -/
def atWork (F : List (Frame ρ)) : List (Frame ρ) :=
  F.filter isMaking

/-- The innermost frame that is no `guarding` ends, and the guards within it are gone too. -/
def close (F : List (Frame ρ)) : List (Frame ρ) :=
  (unguarded F).tail

variable {F G : List (Frame ρ)} {f : Frame ρ} {id : InjectorId} {key : Key}

theorem keys_cons : keys (f :: F) = keys F ++ f.key?.toList := by
  cases h : f.key? <;> simp [keys, h]

theorem made_cons : made id (f :: F) = made id F ++ (f.made? id).toList := by
  cases h : f.made? id <;> simp [made, h]

theorem mem_keys : key ∈ keys F ↔ (∃ id, .resolving id key ∈ F) ∨ .guarding key ∈ F := by
  simp only [keys, List.mem_reverse, List.mem_filterMap]
  constructor
  · rintro ⟨f, hf, hkey⟩
    cases f with
    | resolving id other => exact .inl ⟨id, Option.some.inj hkey ▸ hf⟩
    | guarding other => exact .inr (Option.some.inj hkey ▸ hf)
    | producing _ _ => cases hkey
    | making _ _ _ => cases hkey
  · rintro (⟨id, hf⟩ | hf)
    · exact ⟨_, hf, rfl⟩
    · exact ⟨_, hf, rfl⟩

theorem mem_made : key ∈ made id F ↔ ∃ slot, .making id slot key ∈ F := by
  simp only [made, List.mem_reverse, List.mem_filterMap]
  constructor
  · rintro ⟨f, hf, hkey⟩
    cases f with
    | making other slot name =>
      rw [made?] at hkey
      split at hkey
      case isTrue heq =>
        cases hkey
        exact ⟨slot, heq ▸ hf⟩
      case isFalse => cases hkey
    | resolving _ _ => cases hkey
    | producing _ _ => cases hkey
    | guarding _ => cases hkey
  · rintro ⟨slot, hf⟩
    exact ⟨_, hf, if_pos rfl⟩

theorem unguarded_cons (h : f.isGuard = false) : unguarded (f :: F) = f :: F := by
  simp [unguarded, h]

theorem unguarded_of_guarding : unguarded (.guarding key :: F) = unguarded F :=
  List.dropWhile_cons_of_pos rfl

theorem unguarded_of_not_guarded (h : guarded F = false) : unguarded F = F := by
  cases F with
  | nil => rfl
  | cons f F => exact unguarded_cons (by simpa [guarded] using h)

theorem exists_of_guarded (h : guarded F = true) : ∃ key rest, F = .guarding key :: rest := by
  cases F with
  | nil => cases h
  | cons f rest =>
    cases f with
    | guarding key => exact ⟨key, rest, rfl⟩
    | _ => cases h

theorem atWork_cons (h : f.isMaking = false) : atWork (f :: F) = atWork F :=
  List.filter_cons_of_neg (by simp [h])

theorem atWork_unguarded : atWork (unguarded F) = atWork F := by
  induction F with
  | nil => rfl
  | cons f F ih =>
    cases f with
    | guarding key => rw [unguarded_of_guarding, ih, atWork_cons rfl]
    | _ => rfl

/-- Only the delegates `atWork` are in production, so `made` depends on them alone. -/
theorem made_congr (h : atWork G = atWork F) : made id G = made id F := by
  have hwork (F : List (Frame ρ)) : made id F = made id (atWork F) := by
    induction F with
    | nil => rfl
    | cons f F ih =>
      cases f with
      | making other slot key => exact made_cons.trans ((congrArg (· ++ _) ih).trans made_cons.symm)
      | _ => exact made_cons.trans ((List.append_nil _).trans ih)
  rw [hwork G, hwork F, h]

theorem making_mem_congr {slot : SlotId} (h : atWork G = atWork F) :
    .making id slot key ∈ G ↔ .making id slot key ∈ F := by
  have hwork (F : List (Frame ρ)) : .making id slot key ∈ F ↔ .making id slot key ∈ atWork F := by
    simp [atWork, isMaking]
  rw [hwork G, hwork F, h]

theorem close_eq_of_unguarded {rest : List (Frame ρ)} (h : unguarded F = f :: rest) :
    close F = rest := by
  rw [close, h, List.tail_cons]

end Frame

/-! ### What a moment does to them -/

namespace Moment

/-- What is in progress after a moment, if `F` was before it: what is asked begins, and what is
answered ends by `Frame.close`. -/
def frames : Moment ρ σ π → List (Frame ρ) → List (Frame ρ)
  | .asked (.resolve id key) _, F => .resolving id key :: F
  | .asked (.produce id provider) _, F => .producing id provider :: F
  | .answered (.resolve _ _) _ _ _, F => Frame.close F
  | .answered (.produce _ _) _ _ _, F => Frame.close F
  | .answered (.act (.pushKey key)) _ (reply : Except Fault Unit) _, F =>
    match reply with
    | .ok () => .guarding key :: F
    | .error _ => F
  | .answered (.act .popKey) _ _ _, F => if Frame.guarded F then F.tail else F
  | .begun slot, F =>
    match F.head? with
    | some (.producing id (.singleton _ key _ _)) => .making id slot key :: F
    | _ => F
  | .ended _ _, F => Frame.close F
  | _, F => F

/-- What is in progress after some moments, if `F` was before them, by `frames` of one after the
other. -/
def inProgress (F : List (Frame ρ)) (moments : List (Moment ρ σ π)) : List (Frame ρ) :=
  moments.foldl (fun F m => m.frames F) F

/-- Each moment is as `P` has it of what is in progress before that moment, by `frames`. -/
def Along (P : List (Frame ρ) → Moment ρ σ π → Prop) :
    List (Frame ρ) → List (Moment ρ σ π) → Prop
  | _, [] => True
  | F, m :: moments => P F m ∧ Along P (m.frames F) moments

instance decidableAlong {P : List (Frame ρ) → Moment ρ σ π → Prop} [∀ F m, Decidable (P F m)] :
    (F : List (Frame ρ)) → (moments : List (Moment ρ σ π)) → Decidable (Along P F moments)
  | _, [] => .isTrue trivial
  | F, m :: moments =>
    have := decidableAlong (P := P) (m.frames F) moments
    inferInstanceAs (Decidable (P F m ∧ Along P (m.frames F) moments))

variable {P : List (Frame ρ) → Moment ρ σ π → Prop} {F : List (Frame ρ)}
variable {m : Moment ρ σ π} {moments more earlier later : List (Moment ρ σ π)}

theorem inProgress_append :
    inProgress F (moments ++ more) = inProgress (inProgress F moments) more :=
  List.foldl_append

theorem along_append :
    Along P F (moments ++ more) ↔ Along P F moments ∧ Along P (inProgress F moments) more := by
  induction moments generalizing F with
  | nil => exact ⟨fun h => ⟨trivial, h⟩, fun h => h.2⟩
  | cons m moments ih =>
    rw [List.cons_append, Along, Along, ih, and_assoc]
    rfl

theorem Along.at (h : Along P F moments) (heq : moments = earlier ++ m :: later) :
    P (inProgress F earlier) m := by
  subst heq
  exact (along_append.1 h).2.1

theorem along_of_forall (h : ∀ F, ∀ m ∈ moments, P F m) : Along P F moments := by
  induction moments generalizing F with
  | nil => trivial
  | cons m moments ih => exact ⟨h F m (.head _), ih fun F m hm => h F m (.tail _ hm)⟩

end Moment

/-! ### What the world has recorded -/

namespace World

variable {w after start : World ρ σ π} {lost : InjectorId → Key → Prop}

theorem waits_setWaits {id other : InjectorId}
    (hid : id.index < w.injectors.size) (graph : WaitGraph) :
    ((w.setWaits id graph).injector other).waits =
      if id = other then graph else (w.injector other).waits := by
  split
  case isTrue heq => rw [← heq, setWaits, injector_modifyInjector_self w _ hid]
  case isFalse hne => rw [setWaits, injector_modifyInjector_of_ne w _ hne]

/-- The waits of an injector that are changed twice by `setWaits`, with a slot set in between. -/
theorem waits_setWaits_setSlot {id other : InjectorId} (hid : id.index < w.injectors.size)
    (first second : WaitGraph) (slot : SlotId) (content : Slot) :
    ((((w.setWaits id first).setSlot slot content).setWaits id second).injector other).waits =
      if id = other then second else (w.injector other).waits := by
  rw [waits_setWaits (by simpa [setWaits, modifyInjector, setSlot] using hid)]
  split
  case isTrue => rfl
  case isFalse hne =>
    show ((w.setWaits id first).injector other).waits = _
    rw [waits_setWaits hid, if_neg hne]

/-- The world `w` has recorded what is in progress since `start`, on the same thread. If the host's
code takes back the `guards` that it puts, the stack shows the `Frame.keys`. -/
structure Records (start : World ρ σ π) (guards : Prop) (F : List (Frame ρ)) (w : World ρ σ π) :
    Prop where
  thread : w.thread = start.thread
  stack : guards → w.stack = start.stack ++ Frame.keys F
  waits : ∀ id, (w.injector id).waits =
    { producing := ⟨(Frame.made id F).map fun key => (key, start.thread)⟩ }
  busy : ∀ id slot key, .making id slot key ∈ F → w.slot slot = .busy

/-- Nothing waits or is in production, in any injector. -/
def Idle (w : World ρ σ π) : Prop :=
  ∀ id, (w.injector id).waits = {}

theorem Idle.records (h : w.Idle) (guards : Prop) : w.Records guards [] w where
  thread := rfl
  stack := fun _ => (List.append_nil _).symm
  waits := h
  busy := nofun

theorem slot_of_awaitKey {id : InjectorId} {key : Key} {granted : Except Fault Unit}
    (h : w.awaitKey id key = (granted, after)) (slot : SlotId) : after.slot slot = w.slot slot := by
  have hspares : w.Calm (w.awaitKey id key).2 := .awaitKey w id key
  rw [h] at hspares
  exact hspares.slot slot

namespace Records

variable {guards : Prop} {F G : List (Frame ρ)} {f : Frame ρ} {id other : InjectorId} {key : Key}
variable {slot : SlotId} {type : ValueType}

theorem undisturbed (h : start.Records guards F w) (hu : w.Undisturbed after) :
    start.Records guards F after where
  thread := hu.thread.trans h.thread
  stack := fun hguards => hu.stack.trans (h.stack hguards)
  waits := fun id => (hu.waits id).trans (h.waits id)
  busy := fun id slot key hmem => (hu.slot slot).trans (h.busy id slot key hmem)

theorem of_edits (h : start.Records guards F w) (he : w.Edits (fun _ _ => False) after) :
    start.Records guards F after :=
  h.undisturbed he.undisturbed

/-! ### The resolve stack -/

/-- Frames other than those of delegates at work (`Frame.atWork`) show on the stack alone. -/
theorem restack (h : start.Records guards F w) {stack : ResolveStack}
    (hwork : Frame.atWork G = Frame.atWork F)
    (hstack : guards → stack = start.stack ++ Frame.keys G) :
    start.Records guards G { w with stack } where
  thread := h.thread
  stack := hstack
  waits := fun id => (h.waits id).trans (by rw [Frame.made_congr hwork])
  busy := fun id slot key hmem => h.busy id slot key ((Frame.making_mem_congr hwork).1 hmem)

/-- A get has nothing recorded, so a frame `producing` adds nothing to `Records`. -/
theorem producing {provider : Provider ρ} :
    start.Records guards (.producing id provider :: F) w ↔ start.Records guards F w :=
  ⟨fun h => h.restack (Frame.atWork_cons rfl).symm fun hguards =>
      (h.stack hguards).trans (by simp [Frame.keys_cons, Frame.key?]),
    fun h => h.restack (Frame.atWork_cons rfl) fun hguards =>
      (h.stack hguards).trans (by simp [Frame.keys_cons, Frame.key?])⟩

/-- A key is put on the stack by `ResolveStack.push`, and a frame with this key begins. -/
theorem push {stack : ResolveStack} (h : start.Records guards F w) (hkey : f.key? = some key)
    (hpush : w.stack.push key = .ok stack) : start.Records guards (f :: F) { w with stack } := by
  have hwork : f.isMaking = false := by cases f <;> first | rfl | cases hkey
  refine h.restack (Frame.atWork_cons hwork) fun hguards => ?_
  obtain ⟨-, rfl⟩ := ResolveStack.push_eq_ok_iff.1 hpush
  rw [h.stack hguards, Frame.keys_cons, hkey, List.append_assoc]
  rfl

/-- The key that was put last is taken off by `popKey`, and its frame ends. -/
theorem pop (h : start.Records guards (f :: F) w) (hkey : f.key? = some key) :
    start.Records guards F w.popKey := by
  have hwork : f.isMaking = false := by cases f <;> first | rfl | cases hkey
  refine h.restack (Frame.atWork_cons hwork).symm fun hguards => ?_
  rw [h.stack hguards, Frame.keys_cons, hkey, ← List.append_assoc]
  exact ResolveStack.pop_append_singleton _ _

/-- If the code has taken back its guards, there are none to leave out by `Frame.unguarded`. -/
theorem unguarded (h : start.Records guards F w) (hguards : guards → Frame.guarded F = false) :
    start.Records guards (Frame.unguarded F) w :=
  h.restack Frame.atWork_unguarded fun hg => by
    rw [Frame.unguarded_of_not_guarded (hguards hg)]
    exact h.stack hg

/-! ### The waits -/

theorem producing_get? (h : start.Records guards F w) :
    (w.injector id).waits.producing.get? key =
      if key ∈ Frame.made id F then some start.thread else none := by
  rw [h.waits]
  exact Table.get?_of_map _ _ _

/-- A key that is in production with this injector, by `Frame.made`, is not waited for: `awaitKey`
refuses. -/
theorem awaitKey_of_made (h : start.Records guards F w) (hkey : key ∈ Frame.made id F) :
    w.awaitKey id key = w.raise (.cyclicBinding [key, key]) :=
  World.awaitKey_of_producing (by rw [h.producing_get?, if_pos hkey, h.thread])

theorem awaitKey_of_not_made (h : start.Records guards F w) (hkey : key ∉ Frame.made id F) :
    w.awaitKey id key = (.ok (), w.setWaits id { (w.injector id).waits with
      awaiting := (w.injector id).waits.awaiting.insert w.thread key }) :=
  World.awaitKey_of_unproduced (by rw [h.producing_get?, if_neg hkey])

/-- A delegate begins in `World.beginning`: its slot is taken and its production recorded, and
nothing is waited for. -/
theorem make (h : start.Records guards F w) (hid : id.index < w.injectors.size)
    (hslot : slot.index < w.slots.size) (hkey : key ∉ Frame.made id F)
    (hawait : w.awaitKey id key = (.ok (), after)) :
    start.Records guards (.making id slot key :: F)
      (after.beginning id slot key type) := by
  rw [h.awaitKey_of_not_made hkey] at hawait
  obtain rfl := (Prod.mk.inj hawait).2
  have hnone : (w.injector id).waits.producing.get? key = none := by
    rw [h.producing_get?, if_neg hkey]
  refine ⟨h.thread, fun hguards => ?stack, fun other => ?waits, ?busy⟩
  case stack =>
    have hkeys : Frame.keys (.making id slot key :: F) = Frame.keys F :=
      Frame.keys_cons.trans (List.append_nil _)
    rw [hkeys]
    exact h.stack hguards
  case waits =>
    refine (waits_setWaits_setSlot hid _ _ slot .busy).trans ?_
    rw [Frame.made_cons, Frame.made?]
    split
    case isTrue heq =>
      subst heq
      -- the wait for the key was the only one on record, and it goes as the production begins
      show WaitGraph.startProducing ((w.setWaits id _).injector id).waits w.thread key = _
      rw [waits_setWaits hid, if_pos rfl, WaitGraph.startProducing, Table.insert_of_get? _ hnone,
        h.waits, h.thread, List.map_append]
      exact congrArg (WaitGraph.mk _) (Table.erase_insert _ (Table.get?_empty _))
    case isFalse =>
      rw [h.waits, Option.toList, List.append_nil]
  case busy =>
    intro other place name hmem
    by_cases hplace : slot = place
    · rw [← hplace]
      exact slot_setSlot_self _ _ hslot
    · refine (slot_setSlot_of_ne _ _ hplace).trans (h.busy other place name ?_)
      cases hmem with
      | head => exact absurd rfl hplace
      | tail _ hmem => exact hmem

/-- A delegate has come to an end as in `World.givenBack`: the production is taken back and the slot
given back. -/
theorem unmake (h : start.Records guards (.making id slot key :: F) w)
    (hkey : key ∉ Frame.made id F) (hslot : ∀ id key, .making id slot key ∉ F) (content : Slot) :
    start.Records guards F
      (((w.stopProducing id key).setSlot slot content).stopAwaiting id key) := by
  -- what is recorded of the production shows that there is such an injector
  have hid : id.index < w.injectors.size := by
    by_contra hsize
    have hnone : w.injectors[id.index]? = none := by simpa using hsize
    have hwaits := h.waits id
    rw [World.injector, hnone, Frame.made_cons] at hwaits
    have hrows := congrArg (·.producing.rows) hwaits
    simp [Frame.made?, Table.empty] at hrows
  have hkeys : Frame.keys (.making id slot key :: F) = Frame.keys F :=
    Frame.keys_cons.trans (List.append_nil _)
  refine ⟨h.thread, fun hguards => ?stack, fun other => ?waits, ?busy⟩
  case stack =>
    rw [← hkeys]
    exact h.stack hguards
  case waits =>
    refine (waits_setWaits_setSlot hid _ _ slot content).trans ?_
    split
    case isTrue heq =>
      subst heq
      show WaitGraph.stopAwaiting ((w.setWaits id _).injector id).waits w.thread key = _
      rw [waits_setWaits hid, if_pos rfl, WaitGraph.stopProducing, h.waits, Frame.made_cons, Frame.made?,
        if_pos rfl]
      show WaitGraph.stopAwaiting { producing := Table.erase _ key } w.thread key = _
      rw [Option.toList, Table.erase_of_map _ hkey]
      exact if_neg fun heq => by cases heq
    case isFalse hne =>
      rw [h.waits, Frame.made_cons, Frame.made?, if_neg hne, Option.toList, List.append_nil]
  case busy =>
    intro other place name hmem
    have hplace : slot ≠ place := by
      rintro rfl
      exact hslot other name hmem
    exact (slot_setSlot_of_ne _ _ hplace).trans (h.busy other place name (.tail _ hmem))

end Records

end World

end Wiring
