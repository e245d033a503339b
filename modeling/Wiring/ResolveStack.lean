import Wiring.Fault

/-!
# The resolve stack

Each thread keeps the keys that it is resolving, outermost first. A key that is asked for while it
is on the stack would be asked for forever; `ResolveStack.push` refuses it with the whole chain, as
`Fault.cyclicBinding`.
-/

namespace Wiring

/-- The keys being resolved on a thread, outermost first. -/
abbrev ResolveStack := List Key

namespace ResolveStack

/-- Puts `key` on the stack, unless it is there already: then the fault has the chain of all the
keys on the stack, and `key` again. -/
def push (stack : ResolveStack) (key : Key) : Except Fault ResolveStack :=
  if key ∈ stack then .error (.cyclicBinding (stack ++ [key])) else .ok (stack ++ [key])

/-- Takes off the key pushed last, whichever it is. -/
def pop (stack : ResolveStack) : ResolveStack :=
  stack.dropLast

theorem push_eq_ok_iff {stack pushed : ResolveStack} {key : Key} :
    stack.push key = .ok pushed ↔ key ∉ stack ∧ pushed = stack ++ [key] := by
  unfold push
  split <;> simp_all [eq_comm]

theorem push_eq_error_iff {stack : ResolveStack} {key : Key} {fault : Fault} :
    stack.push key = .error fault ↔ key ∈ stack ∧ fault = .cyclicBinding (stack ++ [key]) := by
  unfold push
  split <;> simp_all [eq_comm]

theorem nodup_of_push {stack pushed : ResolveStack} {key : Key} (h : stack.Nodup)
    (hp : stack.push key = .ok pushed) : pushed.Nodup := by
  obtain ⟨hk, rfl⟩ := push_eq_ok_iff.1 hp
  rw [List.nodup_append]
  exact ⟨h, by simp, fun a ha b hb e => hk (List.mem_singleton.1 hb ▸ e ▸ ha)⟩

@[simp] theorem pop_append_singleton (stack : ResolveStack) (key : Key) :
    pop (stack ++ [key]) = stack := by
  simp [pop]

end ResolveStack

end Wiring
