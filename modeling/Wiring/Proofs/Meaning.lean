import Mathlib.Data.List.Perm.Subperm
import Mathlib.Data.Nat.Find
import Wiring.Proofs.Contents
import Wiring.Proofs.Yields

/-!
# What providers mean

A provider of plain wiring means a function from what keys resolve to, to what it produces: a
`Meaning`, which `Provider.Means` gives it. A table of `Meanings` can be evaluated in two ways: as
keys are resolved, with a stack on which no key may come again (`Meanings.evaluate`), and by
unwinding it so many layers deep with no stack at all (`Meanings.unwind`).

What succeeds on a stack unwinds, and what unwinds succeeds on every stack that leads to it: such a
stack holds no key on which the unwinding rests (`Meanings.evaluate_of_unwind`).

* **`Meaning.staged`**, **`Meaning.lookup`** and **`Meaning.all`** — the meanings that decorations,
  lookups and collections have.
* **`Meanings.Rests`** — that one key cannot be unwound without another; `Meanings.Roomy` bounds the
  stack by the keys that are bound.
-/

namespace Wiring

variable {ρ σ π : Type}

/-- The results of several productions, up to the first fault, as `Run.inTurn` comes to them. -/
def collect {α : Type} : List (Except Fault α) → Except Fault (List α)
  | [] => .ok []
  | .error fault :: _ => .error fault
  | .ok a :: rest => (collect rest).map (a :: ·)

theorem collect_eq_ok_iff {α : Type} {outcomes : List (Except Fault α)} {values : List α} :
    collect outcomes = .ok values ↔ outcomes = values.map .ok := by
  induction outcomes generalizing values with
  | nil =>
    rw [collect]
    constructor
    · intro h
      cases h
      rfl
    · intro h
      rw [List.map_eq_nil_iff.1 h.symm]
  | cons outcome rest ih =>
    cases outcome with
    | error fault =>
      rw [collect]
      constructor
      · intro h
        cases h
      · intro h
        cases values with
        | nil => cases h
        | cons _ _ => cases h
    | ok a =>
      rw [collect]
      constructor
      · intro h
        cases hrest : collect rest with
        | error fault =>
          rw [hrest] at h
          cases h
        | ok others =>
          rw [hrest] at h
          cases h
          rw [List.map_cons, ih.1 hrest]
      · intro h
        cases values with
        | nil => cases h
        | cons b others =>
          obtain ⟨hhead, htail⟩ := List.cons.inj h
          cases hhead
          rw [ih.2 htail]
          rfl

/-! ### Meanings -/

/-- What comes of a provider, its `result`, given what keys resolve to. -/
structure Meaning (π : Type) where
  /-- The keys that are asked for, unless a fault comes first; `strict` says that a value needs all
  of them. -/
  uses : Key → Prop
  result : (Key → Except Fault (Value π)) → Except Fault (Value π)
  /-- There is no value without a value for each key of `uses`. -/
  strict : ∀ resolve value, result resolve = .ok value →
    ∀ key, uses key → ∃ v, resolve key = .ok v
  /-- A value depends on the values of keys alone, so it stays when more keys `resolve` to one. -/
  mono : ∀ resolve other, (∀ key v, resolve key = .ok v → other key = .ok v) →
    ∀ value, result resolve = .ok value → result other = .ok value

namespace Meaning

/-- Always the value: what `Provider.fixed` means. -/
def always (value : Value π) : Meaning π where
  uses _ := False
  result _ := .ok value
  strict _ _ _ _ h := h.elim
  mono _ _ _ _ h := h

/-- Always the fault, for a production that cannot begin, as that of a list in contradictory
order. -/
def fail (fault : Fault) : Meaning π where
  uses _ := False
  result _ := .error fault
  strict _ _ _ _ h := h.elim
  mono _ _ _ _ h := h

/-- What the key resolves to: what `Provider.lookup` means. -/
def lookup (key : Key) : Meaning π where
  uses other := other = key
  result resolve := resolve key
  strict _ value h _ hother := ⟨value, hother ▸ h⟩
  mono _ _ hsub value h := hsub key value h

/-- What comes of the delegate, led through a function: what a stage of `Provider.decorating` makes
of it. -/
def staged (delegate : Meaning π) (f : Value π → Except Fault (Value π)) : Meaning π where
  uses := delegate.uses
  result resolve := (delegate.result resolve).bind f
  strict resolve value h := by
    cases hd : delegate.result resolve with
    | error fault =>
      rw [hd] at h
      cases h
    | ok v => exact delegate.strict resolve v hd
  mono resolve other hsub value h := by
    cases hd : delegate.result resolve with
    | error fault =>
      rw [hd] at h
      cases h
    | ok v =>
      rw [delegate.mono resolve other hsub v hd]
      rwa [hd] at h

/-- What comes of several, by `collect`, put together: what a list or map means. -/
def all (parts : List (Meaning π)) (make : List (Value π) → Value π) : Meaning π where
  uses key := ∃ part ∈ parts, part.uses key
  result resolve := (collect (parts.map (·.result resolve))).map make
  strict resolve value h key hkey := by
    obtain ⟨part, hpart, huses⟩ := hkey
    cases hall : collect (parts.map (·.result resolve)) with
    | error fault =>
      rw [hall] at h
      cases h
    | ok values =>
      have hmem : part.result resolve ∈ values.map Except.ok := by
        rw [← collect_eq_ok_iff.1 hall]
        exact List.mem_map_of_mem hpart
      obtain ⟨v, -, hv⟩ := List.mem_map.1 hmem
      exact part.strict resolve v hv.symm key huses
  mono resolve other hsub value h := by
    cases hall : collect (parts.map (·.result resolve)) with
    | error fault =>
      rw [hall] at h
      cases h
    | ok values =>
      have hsame : parts.map (·.result other) = parts.map (·.result resolve) := by
        apply List.map_congr_left
        intro part hpart
        have hmem : part.result resolve ∈ values.map Except.ok := by
          rw [← collect_eq_ok_iff.1 hall]
          exact List.mem_map_of_mem hpart
        obtain ⟨v, -, hv⟩ := List.mem_map.1 hmem
        rw [← hv]
        exact part.mono resolve other hsub v hv.symm
      rwa [hsame]

end Meaning

/-! ### Room on the stack -/

/-- A stack of distinct keys among those that are bound, with room for so many more at most; `bound`
bounds how deep resolving goes. -/
structure ResolveStack.Fits (bound : List Key) (room : Nat) (stack : ResolveStack) : Prop where
  nodup : stack.Nodup
  subset : ∀ key ∈ stack, key ∈ bound
  room : bound.length ≤ stack.length + room

/-- Where there is no room left, all bound keys are on the stack; so a key that is pushed takes up
room, and `Fits` holds with less of it. -/
theorem ResolveStack.Fits.push {bound : List Key} {room : Nat} {stack : ResolveStack} {key : Key}
    (h : Fits bound room stack) (hbound : key ∈ bound) (hkey : key ∉ stack) :
    ∃ less, room = less + 1 ∧ Fits bound less (stack ++ [key]) := by
  have hnodup : (stack ++ [key]).Nodup :=
    nodup_of_push h.nodup (push_eq_ok_iff.2 ⟨hkey, rfl⟩)
  have hsubset : ∀ other ∈ stack ++ [key], other ∈ bound := by
    intro other hother
    rcases List.mem_append.1 hother with hold | hlast
    · exact h.subset other hold
    · rwa [List.mem_singleton.1 hlast]
  -- distinct keys among the bound ones are no more than those
  have hlength := (List.subperm_of_subset hnodup hsubset).length_le
  have hroom := h.room
  rw [List.length_append, List.length_singleton] at hlength
  refine ⟨room - 1, by omega, hnodup, hsubset, ?_⟩
  rw [List.length_append, List.length_singleton]
  omega

/-! ### Evaluating a table of meanings -/

/-- The `Meaning` of each bound key. -/
abbrev Meanings (π : Type) := Key → Option (Meaning π)

namespace Meanings

/-- Resolves a key on a stack, as `Engine.resolve` does without scopes. `room` bounds the keys that
the stack has yet to take. -/
def evaluate (table : Meanings π) : (room : Nat) → ResolveStack → Key → Except Fault (Value π)
  | 0, stack, key => .error (.cyclicBinding (stack ++ [key]))
  | room + 1, stack, key =>
    if key ∈ stack then .error (.cyclicBinding (stack ++ [key]))
    else
      match table key with
      | none => .error (.unboundKey key)
      | some m => m.result (table.evaluate room (stack ++ [key]))

/-- Puts meanings in for keys, so many layers deep; there is no stack, so a cycle fails at the
`depth` alone. -/
def unwind (table : Meanings π) : (depth : Nat) → Key → Except Fault (Value π)
  | 0, key => .error (.unboundKey key)
  | depth + 1, key =>
    match table key with
    | none => .error (.unboundKey key)
    | some m => m.result (table.unwind depth)

variable {table : Meanings π} {key other : Key} {value : Value π} {m : Meaning π}

theorem unwind_succ (depth : Nat) (h : table.unwind depth key = .ok value) :
    table.unwind (depth + 1) key = .ok value := by
  induction depth generalizing key value with
  | zero => cases h
  | succ depth ih =>
    rw [unwind] at h ⊢
    split at h
    · cases h
    case h_2 m hm =>
      exact m.mono _ _ (fun _ _ hk => ih hk) value h

theorem unwind_mono {depth deeper : Nat} (hle : depth ≤ deeper)
    (h : table.unwind depth key = .ok value) : table.unwind deeper key = .ok value := by
  induction hle with
  | refl => exact h
  | step _ ih => exact unwind_succ _ ih

theorem unwind_of_evaluate {room : Nat} {stack : ResolveStack}
    (h : table.evaluate room stack key = .ok value) : table.unwind room key = .ok value := by
  induction room generalizing stack key value with
  | zero => cases h
  | succ room ih =>
    rw [evaluate] at h
    split at h
    · cases h
    · rw [unwind]
      split at h
      · cases h
      case h_2 m _ => exact m.mono _ _ (fun _ _ hk => ih hk) value h

/-- There is no unwinding `key` by `unwind` without unwinding `other` less deep. -/
def Rests (table : Meanings π) (key other : Key) : Prop :=
  ∀ depth value, table.unwind depth key = .ok value →
    ∃ less < depth, ∃ v, table.unwind less other = .ok v

theorem rests_of_uses (hm : table key = some m) (huses : m.uses other) : table.Rests key other := by
  intro depth value h
  cases depth with
  | zero => cases h
  | succ depth =>
    simp only [unwind, hm] at h
    exact ⟨depth, Nat.lt_succ_self depth, m.strict _ value h other huses⟩

theorem Rests.trans {third : Key} (h : table.Rests key other) (k : table.Rests other third) :
    table.Rests key third := by
  intro depth value hv
  obtain ⟨less, hless, v, hother⟩ := h depth value hv
  obtain ⟨least, hleast, hthird⟩ := k less v hother
  exact ⟨least, Nat.lt_trans hleast hless, hthird⟩

/-- A stack of distinct bound keys, with room for the others, by `ResolveStack.Fits`. -/
structure Roomy (table : Meanings π) (bound : List Key) (room : Nat) (stack : ResolveStack) :
    Prop where
  nodup : stack.Nodup
  subset : ∀ key ∈ stack, key ∈ bound
  covers : ∀ key, table key ≠ none → key ∈ bound
  room : bound.length ≤ stack.length + room

theorem Roomy.exists_room {bound : List Key} {room : Nat} {stack : ResolveStack}
    (h : Roomy table bound room stack) (hm : table key = some m) (hkey : key ∉ stack) :
    ∃ less, room = less + 1 ∧ Roomy table bound less (stack ++ [key]) := by
  have hfits : ResolveStack.Fits bound room stack := ⟨h.nodup, h.subset, h.room⟩
  obtain ⟨less, hless, hpushed⟩ := hfits.push (h.covers key (by simp [hm])) hkey
  exact ⟨less, hless, hpushed.nodup, hpushed.subset, h.covers, hpushed.room⟩

/-- A key that unwinds succeeds by `evaluate` on every stack whose keys do not unwind as soon.
Induction on the depth: a key on the stack would unwind less deep than itself. -/
theorem evaluate_of_later {bound : List Key} (depth : Nat) :
    ∀ {room : Nat} {stack : ResolveStack} {key : Key} {value : Value π},
      Roomy table bound room stack → table.unwind depth key = .ok value →
      (∀ passed ∈ stack, ∀ v, table.unwind depth passed ≠ .ok v) →
      table.evaluate (room + 1) stack key = .ok value := by
  induction depth with
  | zero =>
    intro room stack key value _ h _
    cases h
  | succ depth ih =>
    intro room stack key value hroomy h hlater
    have hearlier : ∀ passed ∈ stack, ∀ v, table.unwind depth passed ≠ .ok v :=
      fun passed hp v hv => hlater passed hp v (unwind_succ depth hv)
    cases hdepth : table.unwind depth key with
    | ok v =>
      have hsame : v = value := by
        have hv := unwind_succ depth hdepth
        rw [h] at hv
        exact (Except.ok.inj hv).symm
      rw [hsame] at hdepth
      exact ih hroomy hdepth hearlier
    | error fault =>
      have hkey : key ∉ stack := fun hmem => hlater key hmem value h
      rw [unwind] at h
      split at h
      · cases h
      case h_2 m hm =>
        obtain ⟨less, rfl, hmore⟩ := hroomy.exists_room hm hkey
        rw [evaluate, if_neg hkey, hm]
        refine m.mono _ _ (fun other v hother => ?_) value h
        -- the key itself does not unwind as soon as what it uses
        refine ih hmore hother ?_
        intro passed hp
        rcases List.mem_append.1 hp with hold | hlast
        · exact hearlier passed hold
        · rw [List.mem_singleton.1 hlast]
          intro w hw
          rw [hdepth] at hw
          cases hw

/-- What unwinds, however deep, succeeds by `evaluate` on a stack whose keys all rest on it by
`Rests`. -/
theorem evaluate_of_unwind {bound : List Key} {room depth : Nat} {stack : ResolveStack}
    (hroomy : Roomy table bound room stack) (h : table.unwind depth key = .ok value)
    (hrests : ∀ passed ∈ stack, table.Rests passed key) :
    table.evaluate (room + 1) stack key = .ok value := by
  classical
  have hsome : ∃ depth, ∃ v, table.unwind depth key = .ok v := ⟨depth, value, h⟩
  -- the least depth at which the key unwinds comes before those of the keys that rest on it
  obtain ⟨v, hv⟩ := Nat.find_spec hsome
  have hsame : v = value := by
    have hdeep := unwind_mono (Nat.find_min' hsome ⟨value, h⟩) hv
    rw [h] at hdeep
    exact (Except.ok.inj hdeep).symm
  rw [hsame] at hv
  refine evaluate_of_later (Nat.find hsome) hroomy hv ?_
  intro passed hp u hu
  obtain ⟨less, hless, hearly⟩ := hrests passed hp _ u hu
  exact Nat.find_min hsome hless hearly

end Meanings

end Wiring
