import Wiring.World

/-!
# Guards and the resolve stack

A thread that puts a key on its stack holds a guard for it until it drops the guard. What a drop
takes off is the key on top, whichever key the guard is for (`World.popKey`), so once guards have
been dropped out of order the keys on the stack need not be those of the guards that are left. Two
things hold all the same after any calls (`Holding.Matched`): no key is on the stack twice, and
there is a key for each guard, so there is always one to take off. The stack lists the keys of the
guards themselves as long as the newest guard is dropped first (`Holding.stack_of_lastFirst`).

* **`Holding.step`** — one call; by `Holding.step_eq_none_iff` it is possible unless the guard is
  not held.
* **`Matched.stack_ne_nil`** — whoever holds a guard finds a key to take off.
-/

namespace Wiring

/-- What a thread does with guards, of which `Holding` keeps count. -/
inductive GuardCall where
  /-- Puts the key on the stack by `World.pushKey`. Unless it is refused, the thread holds a new
  guard. -/
  | push (key : Key)
  /-- Drops the guard at this place among those that are held, the oldest of which comes first, by
  `World.popKey`. -/
  | drop (place : Nat)

/-- A `World` beside the guards that its thread holds. -/
structure Holding (ρ σ π : Type) where
  world : World ρ σ π
  /-- The keys of the guards, the oldest first, whatever the stack of the world has. -/
  guards : List Key := []

namespace Holding

variable {ρ σ π : Type} {s t : Holding ρ σ π} {call : GuardCall} {calls : List GuardCall}
variable {key : Key} {place : Nat}

/-- The state after a `GuardCall`. A guard that is not held cannot be dropped. -/
def step (s : Holding ρ σ π) : GuardCall → Option (Holding ρ σ π)
  | .push key =>
    match s.world.pushKey key with
    | (.error _, world) => some { s with world }
    | (.ok (), world) => some { world, guards := s.guards ++ [key] }
  | .drop place =>
    if place < s.guards.length then
      some { world := s.world.popKey, guards := s.guards.eraseIdx place }
    else none

def run (s : Holding ρ σ π) (calls : List GuardCall) : Option (Holding ρ σ π) :=
  calls.foldlM step s

theorem run_cons {rest : List GuardCall} :
    s.run (call :: rest) = some t ↔ ∃ next, s.step call = some next ∧ next.run rest = some t := by
  rw [run, List.foldlM_cons]
  exact Option.bind_eq_some_iff

/-! ### What one call does -/

theorem step_push (h : s.step (.push key) = some t) :
    (key ∈ s.world.stack ∧ t.world.stack = s.world.stack ∧ t.guards = s.guards) ∨
      (key ∉ s.world.stack ∧ t.world.stack = s.world.stack ++ [key] ∧
        t.guards = s.guards ++ [key]) := by
  rw [step] at h
  by_cases hkey : key ∈ s.world.stack
  · rw [World.pushKey_of_mem rfl hkey] at h
    cases h
    exact .inl ⟨hkey, rfl, rfl⟩
  · rw [World.pushKey_of_not_mem rfl hkey] at h
    cases h
    exact .inr ⟨hkey, rfl, rfl⟩

theorem step_drop (h : s.step (.drop place) = some t) :
    place < s.guards.length ∧ t.world.stack = s.world.stack.dropLast ∧
      t.guards = s.guards.eraseIdx place := by
  rw [step] at h
  split at h
  case isTrue hheld =>
    cases h
    exact ⟨hheld, rfl, rfl⟩
  case isFalse => cases h

/-- Every call is possible by `step` but to drop a guard that is not held. -/
theorem step_eq_none_iff :
    s.step call = none ↔ ∃ place, call = .drop place ∧ s.guards.length ≤ place := by
  cases call with
  | push key =>
    rw [step]
    split <;> simp
  | drop place =>
    rw [step]
    split
    case isTrue hheld => simpa using hheld
    case isFalse hheld => simpa using hheld

/-! ### After any calls -/

/-- No key is on the stack twice, and there are as many keys as `guards`. -/
structure Matched (s : Holding ρ σ π) : Prop where
  nodup : s.world.stack.Nodup
  depth : s.world.stack.length = s.guards.length

theorem Matched.step (h : s.Matched) (hstep : s.step call = some t) : t.Matched := by
  cases call with
  | push key =>
    rcases step_push hstep with ⟨-, hstack, hguards⟩ | ⟨hfree, hstack, hguards⟩
    · exact ⟨hstack ▸ h.nodup, by rw [hstack, hguards, h.depth]⟩
    · constructor
      · exact ResolveStack.nodup_of_push h.nodup (ResolveStack.push_eq_ok_iff.2 ⟨hfree, hstack⟩)
      · rw [hstack, hguards, List.length_append, List.length_append, h.depth]
  | drop place =>
    obtain ⟨hheld, hstack, hguards⟩ := step_drop hstep
    constructor
    · rw [hstack]
      exact h.nodup.sublist (List.dropLast_sublist _)
    · rw [hstack, hguards, List.length_dropLast, List.length_eraseIdx_of_lt hheld, h.depth]

theorem Matched.run (h : s.Matched) (hrun : s.run calls = some t) : t.Matched := by
  induction calls generalizing s with
  | nil =>
    cases hrun
    exact h
  | cons call rest ih =>
    obtain ⟨next, hstep, hrest⟩ := run_cons.1 hrun
    exact ih (h.step hstep) hrest

/-- There is a key to take off as long as a guard is held, by the count of `Matched`. -/
theorem Matched.stack_ne_nil (h : s.Matched) (hheld : place < s.guards.length) :
    s.world.stack ≠ [] := by
  rw [← h.depth] at hheld
  exact List.ne_nil_of_length_pos (Nat.zero_lt_of_lt hheld)

/-! ### When the newest guard is dropped first -/

/-- The call drops no guard but the newest, the last of `guards`. -/
def Newest (s : Holding ρ σ π) : GuardCall → Prop
  | .push _ => True
  | .drop place => place + 1 = s.guards.length

/-- Whenever a guard is dropped it is the `Newest` of those that are held then. -/
def LastFirst (s : Holding ρ σ π) : List GuardCall → Prop
  | [] => True
  | call :: rest => s.Newest call ∧ ∀ next ∈ s.step call, next.LastFirst rest

instance decidableNewest (s : Holding ρ σ π) : (call : GuardCall) → Decidable (s.Newest call)
  | .push _ => isTrue trivial
  | .drop place => inferInstanceAs (Decidable (place + 1 = s.guards.length))

instance decidableLastFirst : (s : Holding ρ σ π) → (calls : List GuardCall) →
    Decidable (s.LastFirst calls)
  | _, [] => isTrue trivial
  | s, call :: rest =>
    have : DecidablePred fun next : Holding ρ σ π => next.LastFirst rest :=
      fun next => decidableLastFirst next rest
    inferInstanceAs (Decidable (s.Newest call ∧ ∀ next ∈ s.step call, next.LastFirst rest))

theorem stack_of_newest (h : s.world.stack = s.guards) (hnewest : s.Newest call)
    (hstep : s.step call = some t) : t.world.stack = t.guards := by
  cases call with
  | push key =>
    rcases step_push hstep with ⟨-, hstack, hguards⟩ | ⟨-, hstack, hguards⟩
    · rw [hstack, hguards, h]
    · rw [hstack, hguards, h]
  | drop place =>
    obtain ⟨-, hstack, hguards⟩ := step_drop hstep
    have hlast : place = s.guards.length - 1 := Nat.eq_sub_of_add_eq hnewest
    rw [hstack, hguards, h, hlast, List.eraseIdx_length_sub_one]

theorem stack_of_lastFirst (h : s.world.stack = s.guards) (hlast : s.LastFirst calls)
    (hrun : s.run calls = some t) : t.world.stack = t.guards := by
  induction calls generalizing s with
  | nil =>
    cases hrun
    exact h
  | cons call rest ih =>
    obtain ⟨next, hstep, hrest⟩ := run_cons.1 hrun
    exact ih (stack_of_newest h hlast.1 hstep) (hlast.2 next hstep) hrest

/-- After any calls of a thread whose stack was empty at first, the stack has no key twice and one
key for each guard (`Matched`). So every guard that is held can be dropped and there is a key to
take off for it. A key is refused just if it is on the stack, with the whole chain, and then the
stack stays as it is. If the newest guard has always been dropped first (`LastFirst`), the stack
lists the keys of the guards. -/
theorem stack_of_calls {w : World ρ σ π} {calls : List GuardCall} {s : Holding ρ σ π}
    (hempty : w.stack = []) (hrun : run { world := w } calls = some s) :
    s.world.stack.Nodup ∧ s.world.stack.length = s.guards.length ∧
      (∀ call, s.step call = none ↔ ∃ place, call = .drop place ∧ s.guards.length ≤ place) ∧
      (∀ place t, s.step (.drop place) = some t → s.world.stack ≠ []) ∧
      (∀ key fault, (s.world.pushKey key).1 = .error fault ↔
        key ∈ s.world.stack ∧ fault = .cyclicBinding (s.world.stack ++ [key])) ∧
      (∀ key fault, (s.world.pushKey key).1 = .error fault →
        (s.world.pushKey key).2.stack = s.world.stack) ∧
      (LastFirst { world := w } calls → s.world.stack = s.guards) := by
  have hstart : Matched { world := w } := ⟨by simp [hempty], by simp [hempty]⟩
  have hmatched := hstart.run hrun
  refine ⟨hmatched.nodup, hmatched.depth, fun _ => step_eq_none_iff, ?drop, ?refused, ?kept, ?lastFirst⟩
  case drop => exact fun place t hstep => hmatched.stack_ne_nil (step_drop hstep).1
  case refused => exact fun key fault => World.pushKey_eq_error_iff
  case kept => exact fun key fault => World.stack_of_refused
  case lastFirst => exact fun hlast => stack_of_lastFirst hempty hlast hrun

/-! ### Guards that are dropped out of order -/

def outer : Key := ⟨.plain "Outer", none⟩

def inner : Key := ⟨.plain "Inner", some (.text "second")⟩

/-- The guard of the outer key is dropped first and takes the inner key off. So the inner key can be
put on once more, and the outer key is refused though no guard is held for it. -/
def crossed : List GuardCall :=
  [.push outer, .push inner, .drop 0, .push inner, .push outer]

/-- Here the newest guard is dropped first, as `LastFirst` asks. -/
def nested : List GuardCall :=
  [.push outer, .push inner, .push outer, .drop 1, .drop 0, .push inner]

def unheld : Holding Unit Unit Unit :=
  { world := { memory := () } }

theorem stack_of_calls_crossed :
    (∃ s, unheld.run crossed = some s ∧ s.guards = [inner, inner] ∧
        s.world.stack = [outer, inner] ∧ s.world.stack.Nodup ∧
        (s.world.pushKey outer).1 = .error (.cyclicBinding [outer, inner, outer])) ∧
      unheld.LastFirst nested ∧
      ∃ s, unheld.run nested = some s ∧ s.guards = [inner] ∧ s.world.stack = s.guards := by
  have hcrossed : ∃ s, unheld.run crossed = some s ∧ s.guards = [inner, inner] ∧
      s.world.stack = [outer, inner] := ⟨_, rfl, rfl, rfl⟩
  have hnested : ∃ s, unheld.run nested = some s ∧ s.guards = [inner] := ⟨_, rfl, rfl⟩
  have hlast : unheld.LastFirst nested := by decide
  obtain ⟨s, hs, hguards, hstack⟩ := hcrossed
  obtain ⟨t, ht, hleft⟩ := hnested
  obtain ⟨hnodup, -, -, -, hrefused, -, -⟩ := stack_of_calls rfl hs
  obtain ⟨-, -, -, -, -, -, horder⟩ := stack_of_calls rfl ht
  refine ⟨⟨s, hs, hguards, hstack, hnodup, ?_⟩, hlast, t, ht, hleft, horder hlast⟩
  rw [hrefused, hstack]
  exact ⟨List.mem_cons_self, rfl⟩

end Holding

end Wiring
