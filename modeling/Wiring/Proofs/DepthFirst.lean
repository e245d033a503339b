import Mathlib.Data.Set.Card
import Wiring.Log
import Wiring.Proofs.Prerequisites

/-!
# Depth-first orders of modules

Kinds of modules need other kinds. `DepthFirst` says in which order the kinds that are not marked
yet come when each comes after all that it needs, as far as that is possible: a kind that needs
itself, however indirectly, comes before some of those. There is an order wherever finitely many
kinds are reachable (`DepthFirst.exists_order`), no kind comes twice in it (`DepthFirst.nodup`), and
where no kind needs itself each comes after all that it needs (`DepthFirst.ordered`).

* **`DepthFirst.mem_of_mem_starts`** — in the end every start is marked.
* **`DepthFirst.ordered_of_path`** — the induction behind `DepthFirst.ordered`, with the kinds that
  have been entered and not left.
-/

namespace Wiring

/-- From `starts`, one after the other, the kinds that are not marked are visited depth-first, and
come in `order` as they are left. A kind is marked from when it is entered. -/
inductive DepthFirst (needs : ModuleId → List ModuleId) :
    (marked : Set ModuleId) → (starts order : List ModuleId) → Prop
  | nil (marked : Set ModuleId) : DepthFirst needs marked [] []
  | skip {marked : Set ModuleId} {kind : ModuleId} {rest order : List ModuleId}
      (hkind : kind ∈ marked) (hrest : DepthFirst needs marked rest order) :
      DepthFirst needs marked (kind :: rest) order
  | visit {marked : Set ModuleId} {kind : ModuleId} {rest below order : List ModuleId}
      (hkind : kind ∉ marked) (hbelow : DepthFirst needs (insert kind marked) (needs kind) below)
      (hrest : DepthFirst needs (insert kind marked ∪ {k | k ∈ below}) rest order) :
      DepthFirst needs marked (kind :: rest) (below ++ kind :: order)

variable {needs : ModuleId → List ModuleId} {marked done : Set ModuleId}
variable {starts order : List ModuleId}

namespace DepthFirst

/-- There is an order by `DepthFirst` if the kinds that the starts lead to by `Needs` are finitely
many. -/
theorem exists_order {reach : Set ModuleId} (hfinite : reach.Finite)
    (hclosed : ∀ kind ∈ reach, ∀ other, Needs needs kind other → other ∈ reach)
    (hstarts : ∀ kind ∈ starts, kind ∈ reach) : ∃ order, DepthFirst needs marked starts order := by
  -- each visit marks one more of the reachable kinds
  suffices hbound : ∀ (bound : Nat) (marked : Set ModuleId), (reach \ marked).ncard ≤ bound →
      ∀ starts, (∀ kind ∈ starts, kind ∈ reach) → ∃ order, DepthFirst needs marked starts order from
    hbound _ marked (Nat.le_refl _) starts hstarts
  intro bound
  induction bound with
  | zero =>
    intro marked hcard starts hstarts
    have hempty : reach \ marked = ∅ :=
      (Set.ncard_eq_zero (hfinite.subset Set.sdiff_subset)).1 (Nat.le_zero.1 hcard)
    induction starts with
    | nil => exact ⟨[], .nil marked⟩
    | cons kind rest ih =>
      obtain ⟨order, hrest⟩ := ih fun k hk => hstarts k (.tail _ hk)
      have hmarked : kind ∈ marked := Set.sdiff_eq_empty.1 hempty (hstarts kind (.head _))
      exact ⟨order, .skip hmarked hrest⟩
  | succ bound ih =>
    intro marked hcard starts hstarts
    induction starts with
    | nil => exact ⟨[], .nil marked⟩
    | cons kind rest ihrest =>
      have hreach := hstarts kind (.head _)
      have hlater := fun k hk => hstarts k (.tail _ hk)
      by_cases hkind : kind ∈ marked
      · obtain ⟨order, hrest⟩ := ihrest hlater
        exact ⟨order, .skip hkind hrest⟩
      · have hless (more : Set ModuleId) (hmore : insert kind marked ⊆ more) :
            (reach \ more).ncard ≤ bound := by
          have hlt : (reach \ more).ncard < (reach \ marked).ncard := by
            refine Set.ncard_lt_ncard ?_ (hfinite.subset Set.sdiff_subset)
            refine ⟨Set.sdiff_subset_sdiff_right fun k hk => hmore (.inr hk), fun hsub => ?_⟩
            exact (hsub ⟨hreach, hkind⟩).2 (hmore (.inl rfl))
          omega
        obtain ⟨below, hbelow⟩ := ih _ (hless _ subset_rfl) (needs kind) (hclosed kind hreach)
        obtain ⟨order, hrest⟩ := ih _ (hless _ Set.subset_union_left) rest hlater
        exact ⟨below ++ kind :: order, .visit hkind hbelow hrest⟩

theorem not_mem_marked (h : DepthFirst needs marked starts order) : ∀ kind ∈ order, kind ∉ marked := by
  induction h with
  | nil => exact fun _ hk => nomatch hk
  | skip _ _ ih => exact ih
  | visit hkind _ _ ihbelow ihrest =>
    intro k hk hmarked
    rcases List.mem_append.1 hk with hk | hk
    · exact ihbelow k hk (.inr hmarked)
    · rcases List.mem_cons.1 hk with rfl | hk
      · exact hkind hmarked
      · exact ihrest k hk (.inl (.inr hmarked))

/-- No kind is visited twice, for `DepthFirst` marks it when it is entered. -/
theorem nodup (h : DepthFirst needs marked starts order) : order.Nodup := by
  induction h with
  | nil => exact List.nodup_nil
  | skip _ _ ih => exact ih
  | visit _ hbelow hrest ihbelow ihrest =>
    rw [List.nodup_append, List.nodup_cons]
    refine ⟨ihbelow, ⟨fun hk => hrest.not_mem_marked _ hk (.inl (.inl rfl)), ihrest⟩, ?_⟩
    rintro k hk other hother rfl
    rcases List.mem_cons.1 hother with rfl | hother
    · exact hbelow.not_mem_marked _ hk (.inl rfl)
    · exact hrest.not_mem_marked _ hother (.inr hk)

/-- In the end each of the kinds that it starts from is marked: it was so before, or is in the
`order`. -/
theorem mem_of_mem_starts (h : DepthFirst needs marked starts order) :
    ∀ kind ∈ starts, kind ∈ marked ∨ kind ∈ order := by
  induction h with
  | nil => exact fun _ hk => nomatch hk
  | skip hkind _ ih =>
    intro k hk
    rcases List.mem_cons.1 hk with rfl | hk
    · exact .inl hkind
    · exact ih k hk
  | visit _ _ _ _ ihrest =>
    intro k hk
    rcases List.mem_cons.1 hk with rfl | hk
    · exact .inr (List.mem_append_right _ (.head _))
    · rcases ihrest k hk with ((rfl | hmarked) | hbelow) | hmem
      · exact .inr (List.mem_append_right _ (.head _))
      · exact .inl hmarked
      · exact .inr (List.mem_append_left _ hbelow)
      · exact .inr (List.mem_append_right _ (.tail _ hmem))

end DepthFirst

/-! ### What comes after what -/

/-- Where no kind `Needs` itself, each comes after all that it needs. Here `path` are the kinds that
have been entered and not left, which all need what is visited now. -/
theorem DepthFirst.ordered_of_path (h : DepthFirst needs marked starts order)
    (hacyclic : ∀ kind, ¬ Relation.TransGen (Needs needs) kind kind) {path : Set ModuleId}
    (hmarked : marked = done ∪ path)
    (hpath : ∀ kind ∈ path, ∀ start ∈ starts, Relation.TransGen (Needs needs) kind start) :
    Ordered needs done order := by
  induction h generalizing done path with
  | nil => exact fun _ _ _ heq => absurd heq (by simp)
  | skip _ _ ih => exact ih hmarked fun k hk start hstart => hpath k hk start (.tail _ hstart)
  | @visit marked kind rest below order _ hbelow _ ihbelow ihrest =>
    subst hmarked
    have hentered : ∀ k ∈ insert kind path, ∀ start ∈ needs kind,
        Relation.TransGen (Needs needs) k start := by
      rintro k (rfl | hk) start hstart
      · exact .single hstart
      · exact .tail (hpath k hk kind (.head _)) hstart
    have hfirst : Ordered needs done below := by
      refine ihbelow ?_ hentered
      rw [Set.union_insert]
    refine hfirst.append ?_
    -- what the kind itself needs is neither on the path nor the kind, for both lead back to it
    have hself : Ordered needs (done ∪ {k | k ∈ below}) [kind] := by
      refine .singleton fun other hneeds => ?_
      rcases hbelow.mem_of_mem_starts other hneeds with (rfl | hdone | hpassed) | hmem
      · exact absurd (.single hneeds) (hacyclic _)
      · exact .inl hdone
      · exact absurd (hentered other (.inr hpassed) other hneeds) (hacyclic _)
      · exact .inr hmem
    refine hself.append (ihrest ?_ fun k hk start hstart => hpath k hk start (.tail _ hstart))
    ext k
    simp only [Set.mem_union, Set.mem_insert_iff, Set.mem_ofPred_eq, List.mem_singleton]
    tauto

theorem DepthFirst.ordered (h : DepthFirst needs done starts order)
    (hacyclic : ∀ kind, ¬ Relation.TransGen (Needs needs) kind kind) : Ordered needs done order :=
  h.ordered_of_path hacyclic (Set.union_empty done).symm fun _ hk => hk.elim

end Wiring
