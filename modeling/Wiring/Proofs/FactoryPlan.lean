import Mathlib.Data.List.Forall2
import Mathlib.Logic.Relation
import Wiring.Proofs.RegistryView
import Wiring.Proofs.WaitWalk
import Wiring.Run

/-!
# Singletons that need each other

In a plan each key is bound to a singleton, whose factory resolves the keys it needs in order, gives
the first fault it meets, and otherwise makes one object (`Code.gather`). What threads that resolve
such keys can come to is told by the place of each: the singletons that it is making, and how far it
has got with the next (`Place`).

`FactoryPlan.Inv` relates the places to the world, by one relation for each part of the state:
`WaitsMatch` for the graph of waits, `SlotsMatch` for what the wrappers keep, and `Produced` for the
objects made so far. A key is `Doomed` if what it needs leads into a cycle of `Needs`.

* **`SlotsMatch.take`**, **`SlotsMatch.finish`** and **`SlotsMatch.giveBack`** — the three changes
  of a slot on the way to a singleton.
* **`Doomed.exists_need`** — a key is doomed by what it needs, so a factory whose needs have all
  come to objects is not.
-/

namespace Wiring

variable {ρ σ π : Type}

/-- Keys of one injector, each with the keys that its factory resolves, in `needs`, and what it
makes of their objects, in `content`. -/
structure FactoryPlan (ρ π : Type) where
  id : InjectorId
  keys : List Key
  routine : Key → ρ
  needs : Key → List Key
  content : Key → List Ref → Content π
  closed : ∀ key ∈ keys, ∀ need ∈ needs key, need ∈ keys

/-- The code of a factory: it resolves the keys in order by `Request.resolve`, stops at the first
fault, and allocates one object of what they give. -/
def Code.gather (id : InjectorId) (content : List Ref → Content π) :
    List Ref → List Key → Code ρ σ π (Except Fault Ref)
  | objects, [] => do
    let object ← Code.act (.allocate (content objects))
    pure (.ok object)
  | objects, need :: rest => do
    match ← Code.send (.resolve id need) with
    | .error fault => pure (.error fault)
    | .ok object => Code.gather id content (objects ++ [object]) rest

namespace FactoryPlan

variable (plan : FactoryPlan ρ π)

/-- The registry in which exactly the `keys` of the plan are bound, each in singleton scope to a
factory of its `routine`. -/
def view : RegistryView ρ := fun key =>
  if key ∈ plan.keys then some ⟨.completed key.type (plan.routine key), [], .singleton⟩ else none

/-- The routines of the plan are the factories that it says they are: the host runs `Code.gather`
for each of its keys. -/
def CarriedOutBy (host : Host ρ σ π) : Prop :=
  ∀ key ∈ plan.keys,
    host.make (plan.routine key) plan.id = .gather plan.id (plan.content key) [] (plan.needs key)

/-- The keys of the plan are bound as `view` says, their `slots` are empty, and nobody is at work:
the graph of waits is empty. -/
structure Fresh (w : World ρ σ π) (slots : Key → SlotId) : Prop where
  represents : w.Represents plan.id plan.view slots
  hooks : ∀ type, (w.injector plan.id).hooksOf type = []
  empty : ∀ key ∈ plan.keys, w.slot (slots key) = .empty
  waits : (w.injector plan.id).waits = {}

/-! ### Cycles among what is needed -/

/-- The factory of `key` resolves `need`, which is one of its `needs`. -/
def Needs (key need : Key) : Prop := need ∈ plan.needs key

/-- The key is doomed if one that it needs by `Needs`, at however many removes, needs itself. -/
def Doomed (key : Key) : Prop :=
  ∃ other, Relation.ReflTransGen plan.Needs key other ∧ Relation.TransGen plan.Needs other other

variable {plan} {key need : Key}

theorem doomed_of_cycle (h : Relation.TransGen plan.Needs key key) : plan.Doomed key :=
  ⟨key, .refl, h⟩

theorem Doomed.of_need (h : plan.Doomed need) (hneed : need ∈ plan.needs key) :
    plan.Doomed key := by
  obtain ⟨other, hpath, hcycle⟩ := h
  exact ⟨other, .head hneed hpath, hcycle⟩

/-- A key on a cycle has a need on the cycle, so `Doomed` never starts with the key itself. -/
theorem Doomed.exists_need (h : plan.Doomed key) : ∃ need ∈ plan.needs key, plan.Doomed need := by
  obtain ⟨other, hpath, hcycle⟩ := h
  cases Relation.ReflTransGen.cases_head hpath with
  | inl heq =>
    subst heq
    obtain ⟨need, hneed, hback⟩ := Relation.TransGen.head'_iff.1 hcycle
    have hagain : Relation.TransGen plan.Needs need need := .tail' hback hneed
    exact ⟨need, hneed, doomed_of_cycle hagain⟩
  | inr hstep =>
    obtain ⟨need, hneed, hrest⟩ := hstep
    exact ⟨need, hneed, other, hrest, hcycle⟩

end FactoryPlan

/-! ### Places of threads -/

/-- How far a thread has got with a key beyond those in the `makes` of its `Place`, whose singletons
it is making. -/
inductive Phase where
  | idle
  /-- The factory of the innermost singleton has made its object, which the slot is given next. -/
  | made (object : Ref)
  /-- The key is on the resolve stack, as `World.pushKey` puts it there. -/
  | entered (key : Key)
  /-- The wait for the key is recorded in the graph of waits, as `World.awaitKey` does it. -/
  | waiting (key : Key)
  /-- The slot of the key is `Slot.busy`, and this thread has made it so. -/
  | holding (key : Key)
  /-- The production of the key is over, but its slot is not given back yet; `kept` is what the slot
  will keep. -/
  | stopped (key : Key) (kept : Option Ref)

/-- What is known of a thread: the singletons that it `makes`, outermost first, how far it has got
with the next (`Phase`), and in `known` which objects it has been given for which keys. -/
structure Place where
  makes : List Key := []
  phase : Phase := .idle
  known : List (Key × Ref) := []

namespace Place

/-- The resolve stack of a thread at the place: the keys that it `makes`, and the one it has entered
beyond them. -/
def stack (p : Place) : ResolveStack :=
  match p.phase with
  | .idle | .made _ => p.makes
  | .entered key | .waiting key | .holding key | .stopped key _ => p.makes ++ [key]

/-- The key that the thread waits for on record, in the phases `waiting` and `holding`. -/
def awaits (p : Place) : Option Key :=
  match p.phase with
  | .waiting key | .holding key => some key
  | _ => none

/-- The keys whose slots the thread has taken: those that it `makes`, and the one of the phase
`holding` or `stopped`. -/
def held (p : Place) : List Key :=
  match p.phase with
  | .holding key | .stopped key _ => p.makes ++ [key]
  | _ => p.makes

/-- The object that the thread has made and not put into its slot yet, with the key of that slot. -/
def ready (p : Place) : Option (Key × Ref) :=
  match p.phase with
  | .made object => p.makes.getLast?.map fun key => (key, object)
  | .stopped key (some object) => some (key, object)
  | _ => none

/-- The thread has been given `object` for `key`, and knows it from then on. -/
def learn (p : Place) (key : Key) (object : Ref) : Place :=
  { p with known := (key, object) :: p.known }

end Place

namespace FactoryPlan

variable (plan : FactoryPlan ρ π) (slots : Key → SlotId) (first : Nat)

/-- A stack of keys of the plan, each of which needs by `Needs` all those above it, at however many
removes. -/
structure Lined (stack : List Key) : Prop where
  nodup : stack.Nodup
  subset : ∀ key ∈ stack, key ∈ plan.keys
  needs : stack.Pairwise (Relation.TransGen plan.Needs)

/-- Where `made` are the keys whose factories have succeeded, in this order, the first of which made
the object number `first`, this says that `object` is the one that came of `key`. -/
def MadeAs (made : List Key) (key : Key) (object : Ref) : Prop :=
  ∃ index, made[index]? = some key ∧ object = ⟨first + index⟩

/-- The object that came of `key` by `MadeAs`; the key is not `Doomed`, for doomed keys come to
none. -/
def Kept (made : List Key) (key : Key) (object : Ref) : Prop :=
  MadeAs first made key object ∧ ¬ plan.Doomed key

/-- The graph of waits records what the threads make and what they wait for, as `Place.makes` and
`Place.awaits` tell it. -/
structure WaitsMatch (graph : WaitGraph) (makes : ThreadId → List Key)
    (awaits : ThreadId → Option Key) : Prop where
  producing : ∀ key thread, graph.producing.get? key = some thread ↔ key ∈ makes thread
  awaiting : ∀ thread, graph.awaiting.get? thread = awaits thread
  calm : graph.Calm

/-- The slot of a key is busy while one thread has taken it (`Place.held`), and keeps the one object
made for it, by `MadeAs`, from then on. -/
structure SlotsMatch (slot : Key → Slot) (held : ThreadId → List Key)
    (ready : ThreadId → Option (Key × Ref)) (made : List Key) : Prop where
  busy : ∀ key ∈ plan.keys, slot key = .busy ↔ ∃ thread, key ∈ held thread
  single : ∀ key thread other, key ∈ held thread → key ∈ held other → thread = other
  filled : ∀ key ∈ plan.keys, ∀ object, slot key = .filled object → plan.Kept first made key object
  ready_held : ∀ thread key object, ready thread = some (key, object) → key ∈ held thread
  ready_kept : ∀ thread key object, ready thread = some (key, object) →
    plan.Kept first made key object
  made_once : made.Nodup
  made_where : ∀ key ∈ made, key ∈ plan.keys ∧
    ((∃ object, slot key = .filled object) ∨ ∃ thread object, ready thread = some (key, object))

/-- Each factory that succeeded made one object, by `MadeAs` of the objects of the keys it needs,
and no other object was made since `first`. -/
structure Produced (w : World ρ σ π) (made : List Key) : Prop where
  size : w.objects.size = first + made.length
  content : ∀ index key, made[index]? = some key → ∃ objects,
    List.Forall₂ (MadeAs first made) (plan.needs key) objects ∧
      w.content? ⟨first + index⟩ = some (plan.content key objects)

/-- The world while threads resolve keys of the plan: bindings, waits, slots and objects stand to
the places as `view`, `WaitsMatch`, `SlotsMatch` and `Produced` say. -/
structure Inv (w : World ρ σ π) (places : ThreadId → Place) (made : List Key) : Prop where
  represents : w.Represents plan.id plan.view slots
  hooks : ∀ type, (w.injector plan.id).hooksOf type = []
  lined : ∀ thread, plan.Lined (places thread).stack
  waits : WaitsMatch (w.injector plan.id).waits (fun thread => (places thread).makes)
    fun thread => (places thread).awaits
  slots : plan.SlotsMatch first (fun key => w.slot (slots key)) (fun thread => (places thread).held)
    (fun thread => (places thread).ready) made
  known : ∀ thread, ∀ p ∈ (places thread).known, plan.Kept first made p.1 p.2
  produced : plan.Produced first w made

variable {plan : FactoryPlan ρ π} {slots : Key → SlotId} {first : Nat} {key : Key} {me : ThreadId}

/-! ### Changes of the graph of waits -/

namespace WaitsMatch

variable {graph waiting : WaitGraph} {makes : ThreadId → List Key} {awaits : ThreadId → Option Key}
variable {outer : List Key}

theorem await (h : WaitsMatch graph makes awaits) (hawait : graph.await me key = .ok waiting) :
    WaitsMatch waiting makes (Function.update awaits me (some key)) := by
  have hcalm : waiting.Calm := h.calm.await hawait
  obtain ⟨-, rfl⟩ := WaitGraph.await_eq_ok_iff.1 hawait
  refine ⟨h.producing, fun thread => ?_, hcalm⟩
  by_cases ht : thread = me
  · rw [ht, Function.update_self, Table.get?_insert_self]
  · have hne : me ≠ thread := fun e => ht e.symm
    rw [Function.update_of_ne ht, Table.get?_insert_of_ne _ _ hne]
    exact h.awaiting thread

theorem startProducing (h : WaitsMatch graph makes awaits) (me : ThreadId)
    (hsingle : ∀ thread, key ∈ makes thread → thread = me) :
    WaitsMatch (graph.startProducing me key) (Function.update makes me (makes me ++ [key]))
      (Function.update awaits me none) := by
  refine ⟨fun other thread => ?_, fun thread => ?_, h.calm.startProducing me key⟩
  · rw [WaitGraph.startProducing, Table.get?_insert]
    have hold := h.producing other thread
    -- only `me` comes to produce a key, and only this one
    by_cases ht : thread = me
    · subst ht
      rw [Function.update_self, List.mem_append, List.mem_singleton]
      by_cases hk : key = other
      · simp [hk]
      · have hne : ¬ other = key := fun e => hk e.symm
        simp [hk, hne, hold]
    · rw [Function.update_of_ne ht]
      by_cases hk : key = other
      · subst hk
        have hme : ¬ me = thread := fun e => ht e.symm
        have hnot : key ∉ makes thread := fun hmem => ht (hsingle thread hmem)
        simp [hme, hnot]
      · rw [if_neg hk]
        exact hold
  · rw [WaitGraph.startProducing, Table.get?_erase]
    by_cases ht : thread = me
    · rw [ht, Function.update_self, if_pos rfl]
    · have hne : ¬ me = thread := fun e => ht e.symm
      rw [Function.update_of_ne ht, if_neg hne]
      exact h.awaiting thread

theorem stopProducing (h : WaitsMatch graph makes awaits) (hmakes : makes me = outer ++ [key])
    (hout : key ∉ outer) (hsingle : ∀ thread, key ∈ makes thread → thread = me) :
    WaitsMatch (graph.stopProducing key) (Function.update makes me outer) awaits := by
  refine ⟨fun other thread => ?_, h.awaiting, h.calm.stopProducing key⟩
  rw [WaitGraph.stopProducing, Table.get?_erase]
  have hold := h.producing other thread
  by_cases ht : thread = me
  · subst ht
    rw [Function.update_self]
    rw [hmakes, List.mem_append, List.mem_singleton] at hold
    by_cases hk : key = other
    · subst hk
      simp [hout]
    · have hne : ¬ other = key := fun e => hk e.symm
      simp only [hne, or_false] at hold
      rw [if_neg hk]
      exact hold
  · rw [Function.update_of_ne ht]
    by_cases hk : key = other
    · subst hk
      have hnot : key ∉ makes thread := fun hmem => ht (hsingle thread hmem)
      simp [hnot]
    · rw [if_neg hk]
      exact hold

theorem stopAwaiting (h : WaitsMatch graph makes awaits)
    (hawaits : awaits me = some key ∨ awaits me = none) :
    WaitsMatch (graph.stopAwaiting me key) makes (Function.update awaits me none) := by
  refine ⟨fun other thread => ?_, fun thread => ?_, h.calm.stopAwaiting me key⟩
  · rw [WaitGraph.stopAwaiting]
    split
    · exact h.producing other thread
    · exact h.producing other thread
  · have hme := h.awaiting me
    rw [WaitGraph.stopAwaiting]
    by_cases ht : thread = me
    · subst ht
      rw [Function.update_self]
      rcases hawaits with hsome | hnone
      · rw [hsome] at hme
        rw [if_pos hme, Table.get?_erase, if_pos rfl]
      · rw [hnone] at hme
        rw [hme, if_neg (by simp)]
        exact hme
    · have hne : ¬ me = thread := fun e => ht e.symm
      rw [Function.update_of_ne ht]
      split
      · rw [Table.get?_erase, if_neg hne]
        exact h.awaiting thread
      · exact h.awaiting thread

end WaitsMatch

/-! ### Changes of the slots -/

theorem MadeAs.append {made : List Key} {object : Ref} (h : MadeAs first made key object)
    (more : List Key) : MadeAs first (made ++ more) key object := by
  obtain ⟨index, hindex, rfl⟩ := h
  have hlt : index < made.length := (List.getElem?_eq_some_iff.1 hindex).1
  exact ⟨index, by rwa [List.getElem?_append_left hlt], rfl⟩

theorem Kept.append {made : List Key} {object : Ref} (h : plan.Kept first made key object)
    (more : List Key) : plan.Kept first (made ++ more) key object :=
  ⟨h.1.append more, h.2⟩

/-- The next object that `World.allocate` makes is that of a key, made of the objects of what the
key needs, so `Produced` holds with the key added. -/
theorem Produced.push {w : World ρ σ π} {made : List Key} {objects : List Ref}
    (h : plan.Produced first w made)
    (hobjects : List.Forall₂ (MadeAs first made) (plan.needs key) objects) :
    plan.Produced first (w.allocate (plan.content key objects)).2 (made ++ [key]) := by
  have hsize := h.size
  constructor
  · rw [List.length_append, List.length_singleton]
    show (w.objects.push _).size = _
    rw [Array.size_push, hsize]
    rfl
  · intro index other hother
    rw [List.getElem?_append] at hother
    show ∃ objects', _ ∧ (w.objects.push _)[first + index]? = _
    rw [Array.getElem?_push]
    split at hother
    case isTrue hlt =>
      obtain ⟨objects', hmade, hcontent⟩ := h.content index other hother
      refine ⟨objects', hmade.imp fun need object hm => hm.append [key], ?_⟩
      rw [if_neg (by omega)]
      exact hcontent
    case isFalse hge =>
      obtain ⟨hlt, hlast⟩ := List.getElem?_eq_some_iff.1 hother
      rw [List.getElem_singleton] at hlast
      subst hlast
      rw [List.length_singleton] at hlt
      refine ⟨objects, hobjects.imp fun need object hm => hm.append [key], ?_⟩
      rw [if_pos (by omega)]

namespace SlotsMatch

variable {slot slot' : Key → Slot} {held : ThreadId → List Key}
variable {ready : ThreadId → Option (Key × Ref)} {made : List Key} {object : Ref}

theorem busy_of_held (h : plan.SlotsMatch first slot held ready made) (hkey : key ∈ plan.keys)
    (hheld : key ∈ held me) : slot key = .busy :=
  (h.busy key hkey).2 ⟨me, hheld⟩

theorem not_held_of_empty (h : plan.SlotsMatch first slot held ready made) (hkey : key ∈ plan.keys)
    (hempty : slot key = .empty) (thread : ThreadId) : key ∉ held thread := by
  intro hmem
  have hbusy := h.busy_of_held hkey hmem
  rw [hempty] at hbusy
  cases hbusy

theorem mem_held_of_taken {thread : ThreadId} {other : Key} :
    other ∈ Function.update held me (held me ++ [key]) thread ↔
      other ∈ held thread ∨ (other = key ∧ thread = me) := by
  by_cases ht : thread = me
  · subst ht
    simp
  · simp [ht]

/-- A thread takes an empty slot: the slot is busy then, and the key is one of its `held`. -/
theorem take (h : plan.SlotsMatch first slot held ready made) (me : ThreadId) (hkey : key ∈ plan.keys)
    (hempty : slot key = .empty) (hbusy : slot' key = .busy)
    (hother : ∀ other ∈ plan.keys, other ≠ key → slot' other = slot other) :
    plan.SlotsMatch first slot' (Function.update held me (held me ++ [key])) ready made := by
  have hfree := h.not_held_of_empty hkey hempty
  refine ⟨?busy, ?single, ?filled, ?readyHeld, h.ready_kept, h.made_once, ?madeWhere⟩
  case busy =>
    intro other ho
    simp only [mem_held_of_taken]
    by_cases heq : other = key
    · subst heq
      exact ⟨fun _ => ⟨me, .inr ⟨rfl, rfl⟩⟩, fun _ => hbusy⟩
    · rw [hother other ho heq, h.busy other ho]
      simp [heq]
  case single =>
    intro other thread thread' hone htwo
    rcases mem_held_of_taken.1 hone with hold | ⟨rfl, rfl⟩
    · rcases mem_held_of_taken.1 htwo with hold' | ⟨rfl, rfl⟩
      · exact h.single other thread thread' hold hold'
      · exact absurd hold (hfree thread)
    · rcases mem_held_of_taken.1 htwo with hold' | ⟨-, rfl⟩
      · exact absurd hold' (hfree thread')
      · rfl
  case filled =>
    intro other ho object hobject
    by_cases heq : other = key
    · rw [heq, hbusy] at hobject
      cases hobject
    · rw [hother other ho heq] at hobject
      exact h.filled other ho object hobject
  case readyHeld =>
    intro thread other object hready
    exact mem_held_of_taken.2 (.inl (h.ready_held thread other object hready))
  case madeWhere =>
    intro other ho
    obtain ⟨hmem, hwhere⟩ := h.made_where other ho
    refine ⟨hmem, hwhere.imp_left ?_⟩
    rintro ⟨object, hobject⟩
    have hne : other ≠ key := by
      rintro rfl
      rw [hempty] at hobject
      cases hobject
    exact ⟨object, (hother other hmem hne).trans hobject⟩

/-- What is busy has not been made, unless the thread that holds it has the object `ready`. -/
theorem not_mem_made (h : plan.SlotsMatch first slot held ready made) (hheld : key ∈ held me)
    (hready : ∀ object, ready me ≠ some (key, object)) : key ∉ made := by
  intro hmade
  obtain ⟨hkey, hwhere⟩ := h.made_where key hmade
  rcases hwhere with ⟨object, hobject⟩ | ⟨thread, object, hobject⟩
  · have hbusy := h.busy_of_held hkey hheld
    rw [hobject] at hbusy
    cases hbusy
  -- a thread that has the object ready has the slot too, so it is `me`
  · have hsame : thread = me :=
      h.single key thread me (h.ready_held thread key object hobject) hheld
    rw [hsame] at hobject
    exact hready object hobject

theorem ready_of_finished {thread : ThreadId} {mine p : Key × Ref}
    (hready : Function.update ready me (some mine) thread = some p) :
    (thread = me ∧ p = mine) ∨ ready thread = some p := by
  by_cases ht : thread = me
  · rw [ht, Function.update_self] at hready
    exact .inl ⟨ht, (Option.some.inj hready).symm⟩
  · rw [Function.update_of_ne ht] at hready
    exact .inr hready

/-- The factory of a key whose slot the thread has taken makes the next object, which is `ready` for
the slot. -/
theorem finish (h : plan.SlotsMatch first slot held ready made) (hkey : key ∈ plan.keys)
    (hheld : key ∈ held me) (hready : ready me = none) (hdoomed : ¬ plan.Doomed key) :
    plan.SlotsMatch first slot held
      (Function.update ready me (some (key, ⟨first + made.length⟩))) (made ++ [key]) := by
  have hnew : plan.Kept first (made ++ [key]) key ⟨first + made.length⟩ :=
    ⟨⟨made.length, by simp, rfl⟩, hdoomed⟩
  have hnot : key ∉ made := h.not_mem_made hheld (by simp [hready])
  refine ⟨h.busy, h.single, ?filled, ?readyHeld, ?readyKept, ?madeOnce, ?madeWhere⟩
  case filled =>
    intro other ho object hobject
    exact (h.filled other ho object hobject).append [key]
  case readyHeld =>
    intro thread other object hr
    rcases ready_of_finished hr with ⟨rfl, heq⟩ | hold
    · cases heq
      exact hheld
    · exact h.ready_held thread other object hold
  case readyKept =>
    intro thread other object hr
    rcases ready_of_finished hr with ⟨-, heq⟩ | hold
    · cases heq
      exact hnew
    · exact (h.ready_kept thread other object hold).append [key]
  case madeOnce =>
    exact ResolveStack.nodup_of_push h.made_once (ResolveStack.push_eq_ok_iff.2 ⟨hnot, rfl⟩)
  case madeWhere =>
    intro other ho
    rcases List.mem_append.1 ho with hold | hlast
    · obtain ⟨hmem, hwhere⟩ := h.made_where other hold
      refine ⟨hmem, hwhere.imp_right ?_⟩
      rintro ⟨thread, object, hobject⟩
      have hne : thread ≠ me := by
        rintro rfl
        rw [hready] at hobject
        cases hobject
      exact ⟨thread, object, by rwa [Function.update_of_ne hne]⟩
    · rw [List.mem_singleton.1 hlast]
      exact ⟨hkey, .inr ⟨me, _, Function.update_self ..⟩⟩

theorem mem_held_of_given {outer : List Key} {thread : ThreadId} {other : Key}
    (h : plan.SlotsMatch first slot held ready made) (hheld : held me = outer ++ [key])
    (hout : key ∉ outer) :
    other ∈ Function.update held me outer thread ↔ other ∈ held thread ∧ other ≠ key := by
  by_cases ht : thread = me
  · subst ht
    rw [Function.update_self, hheld, List.mem_append, List.mem_singleton]
    constructor
    · intro ho
      exact ⟨.inl ho, fun e => hout (e ▸ ho)⟩
    · rintro ⟨ho | ho, hne⟩
      · exact ho
      · exact absurd ho hne
  -- nobody else has the slot of the key
  · rw [Function.update_of_ne ht]
    refine ⟨fun ho => ⟨ho, ?_⟩, fun ho => ho.1⟩
    rintro rfl
    exact ht (h.single other thread me ho (by simp [hheld]))

theorem ready_of_given {thread : ThreadId} {p : Key × Ref}
    (hready : Function.update ready me none thread = some p) :
    thread ≠ me ∧ ready thread = some p := by
  by_cases ht : thread = me
  · rw [ht, Function.update_self] at hready
    cases hready
  · rw [Function.update_of_ne ht] at hready
    exact ⟨ht, hready⟩

/-- A slot that is given back keeps the object that was ready for it, if any, and is `Slot.empty`
otherwise; it is not busy in either case. -/
theorem eq_of_given {kept : Option Ref} (hslot : slot' key = kept.elim .empty .filled) :
    slot' key ≠ .busy ∧ ∀ object, slot' key = .filled object → kept = some object := by
  rw [hslot]
  cases kept with
  | none => exact ⟨nofun, nofun⟩
  | some mine => exact ⟨nofun, fun object hobject => congrArg some (Slot.filled.inj hobject)⟩

/-- A thread gives a slot back, with the object that it has ready for it, if any: `SlotsMatch` holds
with the innermost key taken off its `held`. -/
theorem giveBack {outer : List Key} {kept : Option Ref}
    (h : plan.SlotsMatch first slot held ready made) (hkey : key ∈ plan.keys)
    (hheld : held me = outer ++ [key]) (hout : key ∉ outer)
    (hready : ready me = kept.map fun object => (key, object))
    (hslot : slot' key = kept.elim .empty .filled)
    (hother : ∀ other ∈ plan.keys, other ≠ key → slot' other = slot other) :
    plan.SlotsMatch first slot' (Function.update held me outer) (Function.update ready me none)
      made := by
  have hmine : key ∈ held me := by simp [hheld]
  obtain ⟨hnot, hkept⟩ := eq_of_given hslot
  refine ⟨?busy, ?single, ?filled, ?readyHeld, ?readyKept, h.made_once, ?madeWhere⟩
  case busy =>
    intro other ho
    simp only [h.mem_held_of_given hheld hout]
    by_cases heq : other = key
    · subst heq
      simp [hnot]
    · rw [hother other ho heq, h.busy other ho]
      simp [heq]
  case single =>
    intro other thread thread' hone htwo
    obtain ⟨hold, -⟩ := (h.mem_held_of_given hheld hout).1 hone
    obtain ⟨hold', -⟩ := (h.mem_held_of_given hheld hout).1 htwo
    exact h.single other thread thread' hold hold'
  case filled =>
    intro other ho object hobject
    by_cases heq : other = key
    · subst heq
      rw [hkept object hobject] at hready
      exact h.ready_kept me other object hready
    · rw [hother other ho heq] at hobject
      exact h.filled other ho object hobject
  case readyHeld =>
    intro thread other object hr
    obtain ⟨ht, hold⟩ := ready_of_given hr
    have hin := h.ready_held thread other object hold
    refine (h.mem_held_of_given hheld hout).2 ⟨hin, ?_⟩
    rintro rfl
    exact ht (h.single other thread me hin hmine)
  case readyKept =>
    intro thread other object hr
    exact h.ready_kept thread other object (ready_of_given hr).2
  case madeWhere =>
    intro other ho
    obtain ⟨hin, hwhere⟩ := h.made_where other ho
    refine ⟨hin, ?_⟩
    by_cases heq : other = key
    · subst heq
      -- a slot given back empty is one for which nothing was made
      cases kept with
      | none => exact absurd ho (h.not_mem_made hmine (by simp [hready]))
      | some mine => exact .inl ⟨mine, hslot⟩
    · refine hwhere.imp ?_ ?_
      · rintro ⟨object, hobject⟩
        exact ⟨object, (hother other hin heq).trans hobject⟩
      · rintro ⟨thread, object, hobject⟩
        have ht : thread ≠ me := by
          rintro rfl
          obtain ⟨mine, -, hmade⟩ := Option.map_eq_some_iff.1 (hready.symm.trans hobject)
          exact heq (Prod.mk.inj hmade).1.symm
        exact ⟨thread, object, by rwa [Function.update_of_ne ht]⟩

end SlotsMatch

end FactoryPlan

end Wiring
