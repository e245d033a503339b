import Mathlib.Data.List.Induction
import Mathlib.Data.List.Nodup
import Wiring.Proofs.Frames

/-!
# Wrappers around wrappers

A wrapper may be bound in a new wrapper, and that one again, each with a slot of its own and a key
of its choice. Such a nest is entered from the outside, down to the first wrapper that has its value
(`Layer.descent`). The productions on the way are told apart by their keys alone, so a wrapper that
comes under the key of one further out is taken for that one, and the get is refused as a cycle
though nobody would wait for it (`Layer.refused_of_again`). A nest gives its value just if no key
comes twice on the way in (`nest_succeeds_iff`).

* **`Layer.Around`** — the wrappers further out are at work, and those further in are not;
  `Around.enter` goes one wrapper in.
* **`Layer.works_of_nodup`** and **`Layer.refused_of_again`** — the two halves, by induction on the
  layers.
* **`not_nestsSucceed`** — a wrapper that is bound under its own key once more is refused on the
  first get.
-/

namespace Wiring

variable {ρ σ π : Type}

/-- What may be put around a provider: stages, as `Provider.decorating` has them, or the wrapper of
a singleton. -/
inductive Layer (ρ : Type) where
  | singleton (slot : SlotId) (key : Key) (type : ValueType)
  | decorating (stages : List (Stage ρ))

namespace Layer

def around : Layer ρ → Provider ρ → Provider ρ
  | .singleton slot key type, delegate => .singleton slot key type delegate
  | .decorating stages, delegate => .decorating delegate stages

def slot? : Layer ρ → Option SlotId
  | .singleton slot _ _ => some slot
  | .decorating _ => none

def key? : Layer ρ → Option Key
  | .singleton _ key _ => some key
  | .decorating _ => none

/-- The provider at the core with the layers around it, the first outermost, each a `Provider`
again. -/
def nest (layers : List (Layer ρ)) (core : Provider ρ) : Provider ρ :=
  layers.foldr around core

/-- The slots of the wrappers in a nest, outermost first. -/
def slots (layers : List (Layer ρ)) : List SlotId :=
  layers.filterMap slot?

/-- The keys of the wrappers in a nest, outermost first. -/
def keys (layers : List (Layer ρ)) : List Key :=
  layers.filterMap key?

/-- The keys of the wrappers without a value, from the outside in, down to the first whose slot is
`Slot.filled`. -/
def descent (w : World ρ σ π) : List (Layer ρ) → List Key
  | [] => []
  | .decorating _ :: layers => descent w layers
  | .singleton slot key _ :: layers =>
    match w.slot slot with
    | .filled _ => []
    | _ => key :: descent w layers

/-- What the wrappers of a nest do to the world on their own account: they note, set their slots and
change waits under their keys. -/
inductive Books (id : InjectorId) (layers : List (Layer ρ)) : World ρ σ π → World ρ σ π → Prop
  | note (w : World ρ σ π) (slot : SlotId) (type : ValueType) :
      Books id layers w (w.note (.creatingSingleton slot type))
  | setSlot (w : World ρ σ π) {slot : SlotId} (s : Slot) (h : slot ∈ slots layers) :
      Books id layers w (w.setSlot slot s)
  | await {w u : World ρ σ π} {key : Key} (h : key ∈ keys layers)
      (hawait : w.awaitKey id key = (.ok (), u)) : Books id layers w u
  | startProducing (w : World ρ σ π) {key : Key} (h : key ∈ keys layers) :
      Books id layers w (w.startProducing id key)
  | stopProducing (w : World ρ σ π) {key : Key} (h : key ∈ keys layers) :
      Books id layers w (w.stopProducing id key)
  | stopAwaiting (w : World ρ σ π) {key : Key} (h : key ∈ keys layers) :
      Books id layers w (w.stopAwaiting id key)

/-- In every world in which `P` holds the part gives an object by `Host.Yields`, and `P` still
holds. -/
def Works (host : Host ρ σ π) (P : World ρ σ π → Prop)
    (part : ((request : Request ρ σ π) → Run ρ σ π request.Answer) → Run ρ σ π (Except Fault Ref)) :
    Prop :=
  ∀ v, P v → ∃ object after, host.Yields part v (.ok object) after ∧ P after

/-- The core and all stages of a nest `Works` wherever `P` holds, whatever the wrappers of the nest
have put on record meanwhile by `Books`. -/
structure Sound (host : Host ρ σ π) (id : InjectorId) (layers : List (Layer ρ)) (core : Provider ρ)
    (P : World ρ σ π → Prop) : Prop where
  core : Works host P fun answer => answer (.produce id core)
  stage : ∀ stages, .decorating stages ∈ layers → ∀ stage ∈ stages, ∀ object,
    Works host P fun answer => Engine.complete host answer id stage object
  books : ∀ {v u}, P v → Books id layers v u → P u

/-- The wrappers whose keys are `making` are at work around the layers, and none of the layers is:
no slot of theirs is `Slot.busy`. -/
structure Around (id : InjectorId) (making : List Key) (layers : List (Layer ρ)) (v : World ρ σ π) :
    Prop where
  known : id.index < v.injectors.size
  producing : ∀ key ∈ keys layers,
    (v.injector id).waits.producing.get? key = if key ∈ making then some v.thread else none
  idle : ∀ slot ∈ slots layers, v.slot slot ≠ .busy
  distinct : (slots layers).Nodup

variable {host : Host ρ σ π} {id : InjectorId} {layers : List (Layer ρ)} {core : Provider ρ}
variable {P : World ρ σ π → Prop} {v u w : World ρ σ π} {making : List Key}
variable {slot : SlotId} {key : Key} {type : ValueType} {stages : List (Stage ρ)}

/-! ### Going in -/

theorem descent_of_filled {object : Ref} (h : v.slot slot = .filled object) :
    descent v (.singleton slot key type :: layers) = [] := by
  rw [descent, h]

theorem descent_of_empty (h : v.slot slot = .empty) :
    descent v (.singleton slot key type :: layers) = key :: descent v layers := by
  rw [descent, h]

/-- The way in by `descent` depends on the slots of the nest alone. -/
theorem descent_congr (h : ∀ slot ∈ slots layers, u.slot slot = v.slot slot) :
    descent u layers = descent v layers := by
  induction layers with
  | nil => rfl
  | cons layer layers ih =>
    cases layer with
    | decorating stages => exact ih h
    | singleton slot key type =>
      have hslot : u.slot slot = v.slot slot := h slot List.mem_cons_self
      have hrest := ih fun other hother => h other (List.mem_cons_of_mem _ hother)
      rw [descent, descent, hslot, hrest]

theorem Books.cons {layer : Layer ρ} (h : Books id layers v u) : Books id (layer :: layers) v u := by
  have hslots : ∀ slot ∈ slots layers, slot ∈ slots (layer :: layers) := by
    intro slot hslot
    cases layer with
    | decorating _ => exact hslot
    | singleton _ _ _ => exact List.mem_cons_of_mem _ hslot
  have hkeys : ∀ key ∈ keys layers, key ∈ keys (layer :: layers) := by
    intro key hkey
    cases layer with
    | decorating _ => exact hkey
    | singleton _ _ _ => exact List.mem_cons_of_mem _ hkey
  cases h with
  | note slot type => exact .note v slot type
  | setSlot s hslot => exact .setSlot v s (hslots _ hslot)
  | await hkey hawait => exact .await (hkeys _ hkey) hawait
  | startProducing hkey => exact .startProducing v (hkeys _ hkey)
  | stopProducing hkey => exact .stopProducing v (hkeys _ hkey)
  | stopAwaiting hkey => exact .stopAwaiting v (hkeys _ hkey)

theorem Sound.tail {layer : Layer ρ} (h : Sound host id (layer :: layers) core P) :
    Sound host id layers core P where
  core := h.core
  stage := fun stages hmem => h.stage stages (List.mem_cons_of_mem _ hmem)
  books := fun hv hbooks => h.books hv hbooks.cons

theorem Around.tail {layer : Layer ρ} (h : Around id making (layer :: layers) v) :
    Around id making layers v := by
  cases layer with
  | decorating _ => exact ⟨h.known, h.producing, h.idle, h.distinct⟩
  | singleton slot key type =>
    exact {
      known := h.known
      producing := fun other hother => h.producing other (List.mem_cons_of_mem _ hother)
      idle := fun other hother => h.idle other (List.mem_cons_of_mem _ hother)
      distinct := (List.nodup_cons.1 h.distinct).2 }

/-- A wrapper whose key is not at work further out lets the get in, and is itself at work in the
`World.beginning` of its delegate. -/
theorem Around.enter (h : Around id making (.singleton slot key type :: layers) v)
    (hkey : key ∉ making) :
    ∃ u, v.awaitKey id key = (.ok (), u) ∧ u.slot slot = v.slot slot ∧
      Around id (key :: making) layers (u.beginning id slot key type) ∧
      descent (u.beginning id slot key type) layers = descent v layers := by
  have hnone : (v.injector id).waits.producing.get? key = none := by
    rw [h.producing key List.mem_cons_self, if_neg hkey]
  refine ⟨_, World.awaitKey_of_unproduced hnone, rfl, ?_⟩
  generalize hwaiting : { (v.injector id).waits with
    awaiting := (v.injector id).waits.awaiting.insert v.thread key } = graph
  have hgraph : graph.producing = (v.injector id).waits.producing := by rw [← hwaiting]
  obtain ⟨hfresh, hdistinct⟩ := List.nodup_cons.1 h.distinct
  have hslot (other : SlotId) (hother : other ∈ slots layers) :
      ((v.setWaits id graph).beginning id slot key type).slot other = v.slot other := by
    show (v.setSlot slot .busy).slot other = v.slot other
    -- the slots further in are others than the one that is taken
    refine v.slot_setSlot_of_ne .busy ?_
    rintro rfl
    exact hfresh hother
  have hproducing :
      (((v.setWaits id graph).beginning id slot key type).injector id).waits.producing =
        graph.producing.insert key v.thread := by
    show ((((v.setWaits id graph).setSlot slot .busy).setWaits id _).injector id).waits.producing = _
    rw [World.waits_setWaits_setSlot h.known, if_pos rfl]
    show (((v.setWaits id graph).injector id).waits.producing.insert key v.thread) = _
    rw [World.waits_setWaits h.known, if_pos rfl]
  refine ⟨⟨?known, ?producing, ?idle, hdistinct⟩, descent_congr hslot⟩
  case known =>
    simpa [World.beginning, World.startProducing, World.setWaits, World.modifyInjector, World.setSlot,
      World.note] using h.known
  case producing =>
    intro other hother
    rw [hproducing, hgraph, Table.get?_insert, h.producing other (List.mem_cons_of_mem _ hother)]
    show _ = if other ∈ key :: making then some v.thread else none
    by_cases heq : key = other
    · simp [heq]
    · simp [heq, Ne.symm heq]
  case idle =>
    intro other hother
    rw [hslot other hother]
    exact h.idle other (List.mem_cons_of_mem _ hother)

/-- What comes after a key on the way in is apart from it, if it comes once, and from all that is
`making` further out. -/
theorem not_mem_making {names : List Key} (hnew : key ∉ names)
    (hfresh : ∀ other ∈ key :: names, other ∉ making) : ∀ other ∈ names, other ∉ key :: making := by
  intro other hother hmem
  rcases List.mem_cons.1 hmem with rfl | hmem
  · exact hnew hother
  · exact hfresh other (List.mem_cons_of_mem _ hother) hmem

/-! ### What the get comes to -/

theorem stages_work (h : ∀ stage ∈ stages, ∀ object,
      Works host P fun answer => Engine.complete host answer id stage object) (object : Ref) :
    Works host P fun answer => Run.through (Engine.complete host answer id) stages object := by
  induction stages generalizing object with
  | nil => exact fun v hv => ⟨object, v, .pure _ _, hv⟩
  | cons stage rest ih =>
    intro v hv
    obtain ⟨completed, between, hfirst, hbetween⟩ := h stage List.mem_cons_self object v hv
    obtain ⟨last, after, hrest, hafter⟩ :=
      ih (fun other hother => h other (List.mem_cons_of_mem _ hother)) completed between hbetween
    exact ⟨last, after, .bind hfirst hrest, hafter⟩

/-- A get that comes under no key twice on its `descent` gives an object. Induction on the layers,
by `Around.enter`. -/
theorem works_of_nodup (hsound : Sound host id layers core P) (haround : Around id making layers v)
    (hfresh : ∀ key ∈ descent v layers, key ∉ making) (hnodup : (descent v layers).Nodup) (hv : P v) :
    ∃ object after,
      host.Yields (fun answer => answer (.produce id (nest layers core))) v (.ok object) after ∧
        P after := by
  -- over the layers; a wrapper that lets the get in adds its key to those at work
  induction layers generalizing making v with
  | nil => exact hsound.core v hv
  | cons layer layers ih =>
    cases layer with
    | decorating stages =>
      obtain ⟨object, between, hproduce, hbetween⟩ := ih hsound.tail haround.tail hfresh hnodup hv
      obtain ⟨completed, after, hstages, hafter⟩ :=
        stages_work (hsound.stage stages List.mem_cons_self) object between hbetween
      exact ⟨completed, after, .produce (.bind hproduce hstages), hafter⟩
    | singleton slot key type =>
      cases hslot : v.slot slot with
      | busy => exact absurd hslot (haround.idle slot List.mem_cons_self)
      | filled object => exact ⟨object, v, .produce (.single_of_filled hslot), hv⟩
      | empty =>
        rw [descent_of_empty hslot] at hfresh hnodup
        have hkey : key ∉ making := hfresh key List.mem_cons_self
        obtain ⟨u, hawait, hkept, hwithin, hdescent⟩ := haround.enter hkey
        rw [← hdescent] at hnodup hfresh
        obtain ⟨hnew, hrest⟩ := List.nodup_cons.1 hnodup
        have hslots : slot ∈ slots (.singleton slot key type :: layers : List (Layer ρ)) :=
          List.mem_cons_self
        have hkeys : key ∈ keys (.singleton slot key type :: layers : List (Layer ρ)) :=
          List.mem_cons_self
        have hbegin : P (u.beginning id slot key type) :=
          hsound.books (hsound.books (hsound.books (hsound.books hv (.await hkeys hawait))
            (.setSlot _ _ hslots)) (.startProducing _ hkeys)) (.note _ _ _)
        obtain ⟨object, made, hproduce, hmade⟩ :=
          ih hsound.tail hwithin (not_mem_making hnew hfresh) hrest hbegin
        refine ⟨object, _, .produce (.single_of_empty hslot hawait (hkept.trans hslot) hproduce), ?_⟩
        exact hsound.books (hsound.books (hsound.books hmade (.stopProducing _ hkeys))
          (.setSlot _ _ hslots)) (.stopAwaiting _ hkeys)

/-- A get that comes under a key that is at work further out, one of `making` or of the way so far,
is refused there by `World.awaitKey`. -/
theorem refused_of_again {earlier later : List Key} (haround : Around id making layers v)
    (hdescent : descent v layers = earlier ++ key :: later)
    (hfresh : ∀ other ∈ earlier, other ∉ making) (hnodup : earlier.Nodup)
    (hagain : key ∈ making ∨ key ∈ earlier) :
    ∃ after, host.Yields (fun answer => answer (.produce id (nest layers core))) v
      (.error (.cyclicBinding [key, key])) after := by
  induction layers generalizing making v earlier with
  | nil => simp [descent] at hdescent
  | cons layer layers ih =>
    cases layer with
    | decorating stages =>
      obtain ⟨after, hproduce⟩ := ih haround.tail hdescent hfresh hnodup hagain
      exact ⟨after, .produce (.bind hproduce (.pure _ _))⟩
    | singleton slot name type =>
      cases hslot : v.slot slot with
      | busy => exact absurd hslot (haround.idle slot List.mem_cons_self)
      | filled object =>
        rw [descent_of_filled hslot] at hdescent
        simp at hdescent
      | empty =>
        rw [descent_of_empty hslot] at hdescent
        -- this is the key that comes again, or the get goes on further in
        cases earlier with
        | nil =>
          obtain ⟨rfl, rfl⟩ := List.cons.inj hdescent
          have hmaking : name ∈ making := by simpa using hagain
          have hproducing := haround.producing name List.mem_cons_self
          rw [if_pos hmaking] at hproducing
          have hread : (v.slot slot, v) = (.empty, v) := by rw [hslot]
          exact ⟨_, .produce (.bind (.now hread)
            (.bind (.now (World.awaitKey_of_producing hproducing)) (.pure _ _)))⟩
        | cons first earlier =>
          obtain ⟨rfl, hrest⟩ := List.cons.inj hdescent
          obtain ⟨hnew, hnodup⟩ := List.nodup_cons.1 hnodup
          obtain ⟨u, hawait, hkept, hwithin, hkeeps⟩ := haround.enter (hfresh name List.mem_cons_self)
          have hinside : key ∈ name :: making ∨ key ∈ earlier := by
            rcases hagain with hmaking | hmem
            · exact .inl (List.mem_cons_of_mem _ hmaking)
            · exact (List.mem_cons.1 hmem).imp_left fun heq : key = name => List.mem_cons.2 (.inl heq)
          obtain ⟨made, hproduce⟩ :=
            ih hwithin (hkeeps.trans hrest) (not_mem_making hnew hfresh) hnodup hinside
          exact ⟨_, .produce (.single_of_empty hslot hawait (hkept.trans hslot) hproduce)⟩

/-- Where something comes twice, there is a first that comes again: what stands before it is
`List.Nodup`. -/
theorem exists_again {names : List Key} (h : ¬ names.Nodup) :
    ∃ earlier key later, names = earlier ++ key :: later ∧ earlier.Nodup ∧ key ∈ earlier := by
  induction names using List.reverseRecOn with
  | nil => exact absurd List.nodup_nil h
  | append_singleton names last ih =>
    by_cases hnames : names.Nodup
    · refine ⟨names, last, [], rfl, hnames, ?_⟩
      by_contra hlast
      exact h (List.nodup_append_comm.1 (List.nodup_cons.2 ⟨hlast, hnames⟩))
    · obtain ⟨earlier, key, later, rfl, hearlier, hkey⟩ := ih hnames
      exact ⟨earlier, key, later ++ [last], by simp, hearlier, hkey⟩

end Layer

open Layer

section

variable {host : Host ρ σ π} {id : InjectorId} {layers : List (Layer ρ)} {core : Provider ρ}
variable {P : World ρ σ π → Prop} {w : World ρ σ π}

/-- The first get on a nest gives an object just if no key comes twice on its `descent`. Otherwise
it is refused as a cycle of the first key that comes again. -/
theorem nest_succeeds_iff (hsound : Sound host id layers core P) (haround : Around id [] layers w)
    (hw : P w) :
    ((∃ object after,
        host.Yields (fun answer => answer (.produce id (nest layers core))) w (.ok object) after) ↔
      (descent w layers).Nodup) ∧
    ∀ earlier key later, descent w layers = earlier ++ key :: later → earlier.Nodup →
      key ∈ earlier →
      ∃ after, host.Yields (fun answer => answer (.produce id (nest layers core))) w
        (.error (.cyclicBinding [key, key])) after := by
  have hnone : ∀ names : List Key, ∀ key ∈ names, key ∉ ([] : List Key) := by simp
  refine ⟨⟨?_, ?_⟩, ?_⟩
  · rintro ⟨object, after, hyields⟩
    -- were there a key that comes twice, the get would be refused, and it comes to one answer only
    by_contra hnodup
    obtain ⟨earlier, key, later, hdescent, hearlier, hkey⟩ := exists_again hnodup
    have hrefuses : ∃ last, host.Yields (fun answer => answer (.produce id (nest layers core))) w
        (.error (.cyclicBinding [key, key])) last :=
      refused_of_again haround hdescent (hnone earlier) hearlier (.inr hkey)
    obtain ⟨last, hrefused⟩ := hrefuses
    exact nomatch (hyields.unique hrefused).1
  · intro hnodup
    obtain ⟨object, after, hyields, _⟩ := works_of_nodup hsound haround (hnone _) hnodup hw
    exact ⟨object, after, hyields⟩
  · intro earlier key later hdescent hearlier hkey
    exact refused_of_again haround hdescent (hnone earlier) hearlier (.inr hkey)

end

/-! ### Keys that come again -/

/-- Factories make an object, and stages pass on what they get. -/
def easyHost : Host Unit Unit Unit where
  make _ _ := do return .ok (← Code.act (.allocate (.plain ())))
  stage _ _ object := pure (.ok object)
  hook _ _ _ := pure (.ok ())
  kind _ := default
  imports _ := []
  configure _ _ := pure (.ok ())

/-- With `easyHost` any nest around a factory is `Sound`: no wrapper can stand in its way. -/
theorem sound_of_easy (id : InjectorId) (layers : List (Layer Unit)) (type : ValueType)
    (hplain : ∀ stages, .decorating stages ∈ layers → ∀ stage ∈ stages, stage = .routine ()) :
    Sound easyHost id layers (.factory type ()) fun _ => True where
  core := by
    intro v _
    refine ⟨_, _, .produce (.bind (.change _ _) (.of_performs (.act (.done _ _)))), trivial⟩
  stage := by
    intro stages hmem stage hstage object v _
    cases hplain stages hmem stage hstage
    exact ⟨object, v, .of_performs (.done _ _), trivial⟩
  books := fun _ _ => trivial

namespace Layer

def first : Key := ⟨.plain "Nested", some (.text "first")⟩

def second : Key := ⟨.plain "Nested", some (.text "second")⟩

/-- Three wrappers, the innermost under the key of the outermost, and a stage of `easyHost` in
between. -/
def threefold : List (Layer Unit) :=
  [.singleton ⟨2⟩ first first.type, .decorating [.routine ()], .singleton ⟨1⟩ second second.type,
    .singleton ⟨0⟩ first first.type]

/-- The innermost wrapper of `threefold` has its value. -/
def warm : World Unit Unit Unit where
  objects := #[.plain ()]
  slots := #[.filled ⟨0⟩, .empty, .empty]
  injectors := #[{}]
  memory := ()

end Layer

theorem around_of_warm : Around ⟨0⟩ [] threefold warm where
  known := by decide
  producing := fun _ _ => rfl
  idle := by decide
  distinct := by decide

/-- The innermost wrapper of `threefold` is not asked for anything but its value in `warm`, so its
key does no harm. -/
theorem nest_succeeds_iff_of_warm :
    descent warm threefold = [first, second] ∧
      ∃ object after, easyHost.Yields
        (fun answer => answer (.produce ⟨0⟩ (nest threefold (.factory first.type ())))) warm
        (.ok object) after := by
  have hsound : Sound easyHost ⟨0⟩ threefold (.factory first.type ()) fun _ => True := by
    refine sound_of_easy _ _ _ fun stages hstages stage hstage => ?_
    cases stage with
    | memberInjection type => simp [threefold] at hstages; simp [hstages] at hstage
    | routine routine => rfl
  obtain ⟨hiff, _⟩ := nest_succeeds_iff hsound around_of_warm trivial
  have hdescent : descent warm threefold = [first, second] := rfl
  exact ⟨hdescent, hiff.2 (by rw [hdescent]; decide)⟩

namespace Layer

/-- The first get on a nest gives an object, whatever the keys of its wrappers, if the nest is
`Sound`. -/
def NestsSucceed : Prop :=
  ∀ (ρ σ π : Type) (host : Host ρ σ π) (id : InjectorId) (layers : List (Layer ρ)) (core : Provider ρ)
    (P : World ρ σ π → Prop) (w : World ρ σ π),
    Sound host id layers core P → Around id [] layers w → P w →
      ∃ object after,
        host.Yields (fun answer => answer (.produce id (nest layers core))) w (.ok object) after

/-- The wrapper that a key is bound to is bound under the key once more, in a wrapper of its own. -/
def rebound : World Unit Unit Unit :=
  let bare : World Unit Unit Unit := { injectors := #[{}], memory := () }
  let single := bare.bind ⟨0⟩ first (.factory first.type ()) .singleton
  match single.providerOf ⟨0⟩ first with
  | (.error _, w) => w
  | (.ok wrapper, w) => w.bind ⟨0⟩ first wrapper .singleton

/-- What the key is bound to in `rebound`. -/
def twofold : List (Layer Unit) :=
  [.singleton ⟨1⟩ first first.type, .singleton ⟨0⟩ first first.type]

end Layer

/-- The inner wrapper of `twofold` is taken for the outer one, and the get is refused, so
`NestsSucceed` fails. -/
theorem not_nestsSucceed :
    rebound.providerOf ⟨0⟩ first = (.ok (nest twofold (.factory first.type ())), rebound) ∧
      ¬ NestsSucceed := by
  refine ⟨rfl, fun hsucceed => ?_⟩
  have hsound : Sound easyHost ⟨0⟩ twofold (.factory first.type ()) fun _ => True := by
    refine sound_of_easy _ _ _ fun stages hstages => ?_
    simp [twofold] at hstages
  have haround : Around ⟨0⟩ [] twofold rebound := {
    known := by decide
    producing := fun _ _ => rfl
    idle := by decide
    distinct := by decide }
  obtain ⟨object, after, hyields⟩ := hsucceed _ _ _ _ _ _ _ _ _ hsound haround trivial
  have hdescent : descent rebound twofold = [first] ++ first :: [] := rfl
  obtain ⟨last, hrefused⟩ :=
    refused_of_again haround hdescent (by simp) (by simp) (.inr List.mem_cons_self)
  exact nomatch (hyields.unique hrefused).1

end Wiring
