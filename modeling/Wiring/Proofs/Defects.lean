import Wiring.Proofs.LinearOrder
import Wiring.Proofs.RegistryView

/-!
# Defects of a wiring

What is bound under a key is a tree of providers (`Provider.Contains`), and the keys that are looked
up in it are those that the key depends on (`World.DependsOn`). A key is `World.Defective` if it is
unbound, if it depends on itself by way of others, or if the constraints of a list in its tree
contradict each other.

`World.Meets` is the walk through the tree that meets a defect, depth-first and with the keys on the
way, and `World.Clear` the walk that meets none. The walk knows nothing but these keys, and yet it
is clear just if there is no defect to be reached (`World.Clear.sound`, `World.Meets.defective`).

* **`Meets.unique`** — the walk meets one defect, so what a resolution reports is determined.
* **`Meets.chain_of_start`** — the chain of a cycle is the way from the key that was asked for to
  the one that comes again.
-/

namespace Wiring

variable {ρ σ π : Type}

/-- The provider stands in the tree of the first, whose lists and maps have the entries that
`World.roster` and `World.catalog` tell. -/
inductive Provider.Contains (w : World ρ σ π) : Provider ρ → Provider ρ → Prop
  | self (provider : Provider ρ) : Contains w provider provider
  | delegate {delegate part : Provider ρ} {stages : List (Stage ρ)} (h : Contains w delegate part) :
      Contains w (.decorating delegate stages) part
  | entry {roster : RosterId} {entry : Entry (Provider ρ)} {part : Provider ρ}
      (hentry : entry ∈ (w.roster roster).entries) (h : Contains w entry.provider part) :
      Contains w (.list roster) part
  | row {catalog : CatalogId} {row : String × Provider ρ} {part : Provider ρ}
      (hrow : row ∈ (w.catalog catalog).entries.rows) (h : Contains w row.2 part) :
      Contains w (.map catalog) part

namespace World

/-- The tree that is bound under the key looks up the other: it `Contains` the lookup. -/
def DependsOn (w : World ρ σ π) (view : RegistryView ρ) (key other : Key) : Prop :=
  ∃ r, view key = some r ∧ r.provider.Contains w (.lookup other)

/-- The other key is the key itself, or one that it depends on by `DependsOn`, directly or by way of
others. -/
def Reaches (w : World ρ σ π) (view : RegistryView ρ) : Key → Key → Prop :=
  Relation.ReflTransGen (w.DependsOn view)

/-- What can be wrong with a key: it is unbound, leads back to itself by `DependsOn`, or has a list
in its tree that is `Roster.Contradictory`. -/
inductive Defective (w : World ρ σ π) (view : RegistryView ρ) (key : Key) : Prop
  | unbound (hview : view key = none)
  | cyclic (hself : Relation.TransGen (w.DependsOn view) key key)
  | disordered {r : Registration ρ} {roster : RosterId} (hview : view key = some r)
      (hcontains : r.provider.Contains w (.list roster)) (hroster : (w.roster roster).Contradictory)

/-- Walking through the tree meets no defect: each list has an order by `Roster.order`, and no key
comes again on the way. `path` are the keys on the way to the tree. -/
inductive Clear (w : World ρ σ π) (view : RegistryView ρ) : List Key → Provider ρ → Prop
  | fixed (path : List Key) (object : Ref) : Clear w view path (.fixed object)
  | lookup {path : List Key} {key : Key} {r : Registration ρ} (hkey : key ∉ path)
      (hview : view key = some r) (hbelow : Clear w view (path ++ [key]) r.provider) :
      Clear w view path (.lookup key)
  | decorating {path : List Key} {delegate : Provider ρ} {stages : List (Stage ρ)}
      (h : Clear w view path delegate) : Clear w view path (.decorating delegate stages)
  | list {path : List Key} {roster : RosterId} {entries : List (Entry (Provider ρ))}
      (horder : (w.roster roster).order = .ok entries)
      (hentries : ∀ entry ∈ entries, Clear w view path entry.provider) :
      Clear w view path (.list roster)
  | map {path : List Key} {catalog : CatalogId}
      (hrows : ∀ row ∈ (w.catalog catalog).entries.rows, Clear w view path row.2) :
      Clear w view path (.map catalog)

/-- Walking through the tree depth-first, the entries of a list in the order of `Roster.order` and
those of a map by name, the first defect met is the one of the fault. `path` are the keys on the way
to the tree. -/
inductive Meets (w : World ρ σ π) (view : RegistryView ρ) : List Key → Provider ρ → Fault → Prop
  | cycle {path : List Key} {key : Key} (hkey : key ∈ path) :
      Meets w view path (.lookup key) (.cyclicBinding (path ++ [key]))
  | unbound {path : List Key} {key : Key} (hkey : key ∉ path) (hview : view key = none) :
      Meets w view path (.lookup key) (.unboundKey key)
  | inner {path : List Key} {key : Key} {r : Registration ρ} {fault : Fault} (hkey : key ∉ path)
      (hview : view key = some r) (h : Meets w view (path ++ [key]) r.provider fault) :
      Meets w view path (.lookup key) fault
  | decorating {path : List Key} {delegate : Provider ρ} {stages : List (Stage ρ)} {fault : Fault}
      (h : Meets w view path delegate fault) : Meets w view path (.decorating delegate stages) fault
  | disordered {path : List Key} {roster : RosterId} {fault : Fault}
      (horder : (w.roster roster).order = .error fault) : Meets w view path (.list roster) fault
  | entry {path : List Key} {roster : RosterId} {entry : Entry (Provider ρ)}
      {before after : List (Entry (Provider ρ))} {fault : Fault}
      (horder : (w.roster roster).order = .ok (before ++ entry :: after))
      (hbefore : ∀ entry ∈ before, Clear w view path entry.provider)
      (h : Meets w view path entry.provider fault) : Meets w view path (.list roster) fault
  | row {path : List Key} {catalog : CatalogId} {row : String × Provider ρ}
      {before after : List (String × Provider ρ)} {fault : Fault}
      (hrows : (w.catalog catalog).entries.rows = before ++ row :: after)
      (hbefore : ∀ row ∈ before, Clear w view path row.2) (h : Meets w view path row.2 fault) :
      Meets w view path (.map catalog) fault

variable {w : World ρ σ π} {view : RegistryView ρ} {path : List Key} {provider : Provider ρ}
variable {key : Key} {fault : Fault}

/-! ### A clear walk -/

/-- A tree that the walk finds `Clear` has no defect, and none can be reached from it by `Reaches`;
nor does it lead to a key on the way. -/
theorem Clear.sound (h : w.Clear view path provider) :
    (∀ roster, provider.Contains w (.list roster) → ¬ (w.roster roster).Contradictory) ∧
      ∀ key, provider.Contains w (.lookup key) → ∀ other, w.Reaches view key other →
        other ∉ path ∧ ¬ w.Defective view other := by
  induction h with
  | fixed path object => exact ⟨fun _ hcontains => (nomatch hcontains), fun _ hcontains => nomatch hcontains⟩
  | @lookup path key r hkey hview _ ih =>
    refine ⟨fun _ hcontains => (nomatch hcontains), ?_⟩
    rintro _ ⟨⟩ other hreach
    -- whatever the key depends on leads neither to the key nor to those before it
    have hnext {next other : Key} (hdepends : w.DependsOn view key next)
        (hreach : w.Reaches view next other) : other ∉ path ++ [key] ∧ ¬ w.Defective view other := by
      obtain ⟨r', hview', hcontains⟩ := hdepends
      obtain rfl := Option.some.inj (hview.symm.trans hview')
      exact ih.2 next hcontains other hreach
    rcases Relation.ReflTransGen.cases_head hreach with rfl | ⟨next, hdepends, hrest⟩
    · refine ⟨hkey, fun hdefective => ?_⟩
      cases hdefective with
      | unbound hnone => exact absurd (hview.symm.trans hnone) (by simp)
      | cyclic hself =>
        obtain ⟨next, hdepends, hback⟩ := Relation.TransGen.head'_iff.1 hself
        exact (hnext hdepends hback).1 (List.mem_append_right _ (.head _))
      | disordered hview' hcontains hroster =>
        obtain rfl := Option.some.inj (hview.symm.trans hview')
        exact ih.1 _ hcontains hroster
    · obtain ⟨hfresh, hsound⟩ := hnext hdepends hrest
      exact ⟨fun hmem => hfresh (List.mem_append_left _ hmem), hsound⟩
  | decorating _ ih =>
    refine ⟨fun roster hcontains => ?_, fun key hcontains => ?_⟩
    · cases hcontains with
      | delegate hcontains => exact ih.1 roster hcontains
    · cases hcontains with
      | delegate hcontains => exact ih.2 key hcontains
  | @list path roster entries horder _ ih =>
    have hmem {entry : Entry (Provider ρ)} (hentry : entry ∈ (w.roster roster).entries) :
        entry ∈ entries := (Roster.order_perm horder).mem_iff.2 hentry
    refine ⟨fun other hcontains => ?_, fun key hcontains => ?_⟩
    · cases hcontains with
      | self _ =>
        intro hcontradictory
        obtain ⟨fault, herror⟩ := Roster.order_error_iff.2 hcontradictory
        cases horder.symm.trans herror
      | entry hentry hcontains => exact (ih _ (hmem hentry)).1 other hcontains
    · cases hcontains with
      | entry hentry hcontains => exact (ih _ (hmem hentry)).2 key hcontains
  | map _ ih =>
    refine ⟨fun roster hcontains => ?_, fun key hcontains => ?_⟩
    · cases hcontains with
      | row hrow hcontains => exact (ih _ hrow).1 roster hcontains
    · cases hcontains with
      | row hrow hcontains => exact (ih _ hrow).2 key hcontains

/-- A `Clear` tree is clear whatever the way to it, unless it leads back to a key on the way. -/
theorem Clear.of_path (h : w.Clear view path provider) {other : List Key}
    (hother : ∀ key, provider.Contains w (.lookup key) → ∀ passed, w.Reaches view key passed →
      passed ∉ other) : w.Clear view other provider := by
  induction h generalizing other with
  | fixed path object => exact .fixed other object
  | @lookup path key r hkey hview hbelow ih =>
    refine .lookup (hother key (.self _) key .refl) hview (ih fun next hcontains passed hreach => ?_)
    intro hmem
    rcases List.mem_append.1 hmem with hmem | hlast
    · exact hother key (.self _) passed (.head ⟨r, hview, hcontains⟩ hreach) hmem
    · exact (hbelow.sound.2 next hcontains passed hreach).1 (List.mem_append_right _ hlast)
  | decorating _ ih => exact .decorating (ih fun key hcontains => hother key (.delegate hcontains))
  | list horder _ ih =>
    refine .list horder fun entry hentry => ih entry hentry fun key hcontains => ?_
    exact hother key (.entry ((Roster.order_perm horder).mem_iff.1 hentry) hcontains)
  | map _ ih =>
    exact .map fun row hrow => ih row hrow fun key hcontains => hother key (.row hrow hcontains)

/-! ### A walk that meets a defect -/

theorem Meets.not_clear (h : w.Meets view path provider fault) : ¬ w.Clear view path provider := by
  -- what is met contradicts a premise of the one way in which the provider could be clear
  induction h with
  | cycle hkey =>
    rintro (_ | ⟨hfresh, _, _⟩)
    exact hfresh hkey
  | unbound _ hview =>
    rintro (_ | ⟨_, hview', _⟩)
    cases hview.symm.trans hview'
  | inner _ hview _ ih =>
    rintro (_ | ⟨_, hview', hbelow⟩)
    obtain rfl := Option.some.inj (hview.symm.trans hview')
    exact ih hbelow
  | decorating _ ih =>
    rintro (_ | _ | ⟨hdelegate⟩)
    exact ih hdelegate
  | disordered horder =>
    rintro (_ | _ | _ | ⟨horder', _⟩)
    cases horder.symm.trans horder'
  | entry horder _ _ ih =>
    rintro (_ | _ | _ | ⟨horder', hentries⟩)
    obtain rfl := Except.ok.inj (horder.symm.trans horder')
    exact ih (hentries _ (List.mem_append_right _ (.head _)))
  | row hrows _ _ ih =>
    rintro (_ | _ | _ | _ | ⟨hclear⟩)
    rw [hrows] at hclear
    exact ih (hclear _ (List.mem_append_right _ (.head _)))

/-- The first of a list that lacks a property is the same, however it is found; so `Meets` finds one
entry only. -/
theorem eq_of_first {α : Type} {P : α → Prop} {before before' after after' : List α} {one other : α}
    (heq : before ++ one :: after = before' ++ other :: after') (hbefore : ∀ item ∈ before, P item)
    (hbefore' : ∀ item ∈ before', P item) (hone : ¬ P one) (hother : ¬ P other) : one = other := by
  rcases List.append_eq_append_iff.1 heq with ⟨between, rfl, htail⟩ | ⟨between, rfl, htail⟩
  · cases between with
    | nil => exact (List.cons.inj htail).1
    | cons first _ =>
      obtain ⟨rfl, -⟩ := List.cons.inj htail
      exact absurd (hbefore' one (by simp)) hone
  · cases between with
    | nil => exact (List.cons.inj htail).1.symm
    | cons first _ =>
      obtain ⟨rfl, -⟩ := List.cons.inj htail
      exact absurd (hbefore other (by simp)) hother

/-- There is one defect that the walk meets first: the fault of `Meets` is determined. -/
theorem Meets.unique {other : Fault} (h : w.Meets view path provider fault)
    (hother : w.Meets view path provider other) : fault = other := by
  induction h with
  | cycle hkey =>
    cases hother with
    | cycle => rfl
    | unbound hfresh => exact absurd hkey hfresh
    | inner hfresh => exact absurd hkey hfresh
  | unbound hkey hview =>
    cases hother with
    | cycle hmem => exact absurd hmem hkey
    | unbound => rfl
    | inner _ hview' => cases hview.symm.trans hview'
  | inner hkey hview _ ih =>
    cases hother with
    | cycle hmem => exact absurd hmem hkey
    | unbound _ hview' => cases hview.symm.trans hview'
    | inner _ hview' h =>
      obtain rfl := Option.some.inj (hview.symm.trans hview')
      exact ih h
  | decorating _ ih =>
    cases hother with
    | decorating h => exact ih h
  | disordered horder =>
    cases hother with
    | disordered horder' => exact Except.error.inj (horder.symm.trans horder')
    | entry horder' => cases horder.symm.trans horder'
  | entry horder hbefore h ih =>
    cases hother with
    | disordered horder' => cases horder.symm.trans horder'
    | entry horder' hbefore' h' =>
      have hsplit := Except.ok.inj (horder.symm.trans horder')
      -- all before it are clear on both walks, and it is not, so both have come to the same entry
      obtain rfl := eq_of_first hsplit hbefore hbefore' h.not_clear h'.not_clear
      exact ih h'
  | row hrows hbefore h ih =>
    cases hother with
    | row hrows' hbefore' h' =>
      obtain rfl := eq_of_first (hrows.symm.trans hrows') hbefore hbefore' h.not_clear h'.not_clear
      exact ih h'

/-- Where every key on the way leads to the tree, there is a defect if the walk `Meets` one. A key
that comes again on the way is `Defective` for that reason. -/
theorem Meets.defective (h : w.Meets view path provider fault)
    (hpath : ∀ passed ∈ path, ∀ key, provider.Contains w (.lookup key) →
      Relation.TransGen (w.DependsOn view) passed key) :
    (∃ roster, provider.Contains w (.list roster) ∧ (w.roster roster).Contradictory) ∨
      ∃ key, provider.Contains w (.lookup key) ∧ ∃ other, w.Reaches view key other ∧
        w.Defective view other := by
  induction h with
  | @cycle path key hkey =>
    exact .inr ⟨key, .self _, key, .refl, .cyclic (hpath key hkey key (.self _))⟩
  | @unbound path key _ hview => exact .inr ⟨key, .self _, key, .refl, .unbound hview⟩
  | @inner path key r fault _ hview _ ih =>
    -- the keys on the path lead to this one, and this one to all that its tree asks for
    have hbelow : ∀ passed ∈ path ++ [key], ∀ next, r.provider.Contains w (.lookup next) →
        Relation.TransGen (w.DependsOn view) passed next := by
      intro passed hpassed next hcontains
      rcases List.mem_append.1 hpassed with hmem | hlast
      · exact (hpath passed hmem key (.self _)).tail ⟨r, hview, hcontains⟩
      · rw [List.mem_singleton.1 hlast]
        exact .single ⟨r, hview, hcontains⟩
    rcases ih hbelow with ⟨roster, hcontains, hroster⟩ | ⟨next, hcontains, other, hreach, hdefective⟩
    · exact .inr ⟨key, .self _, key, .refl, .disordered hview hcontains hroster⟩
    · exact .inr ⟨key, .self _, other, .head ⟨r, hview, hcontains⟩ hreach, hdefective⟩
  | decorating _ ih =>
    rcases ih fun passed hpassed key hcontains => hpath passed hpassed key (.delegate hcontains) with
      ⟨roster, hcontains, hroster⟩ | ⟨key, hcontains, hrest⟩
    · exact .inl ⟨roster, .delegate hcontains, hroster⟩
    · exact .inr ⟨key, .delegate hcontains, hrest⟩
  | @disordered path roster fault horder =>
    exact .inl ⟨roster, .self _, Roster.order_error_iff.1 ⟨fault, horder⟩⟩
  | @entry path roster entry before after fault horder _ _ ih =>
    have hentry : entry ∈ (w.roster roster).entries :=
      (Roster.order_perm horder).mem_iff.1 (List.mem_append_right _ (.head _))
    rcases ih fun passed hpassed key hcontains =>
        hpath passed hpassed key (.entry hentry hcontains) with
      ⟨roster, hcontains, hroster⟩ | ⟨key, hcontains, hrest⟩
    · exact .inl ⟨roster, .entry hentry hcontains, hroster⟩
    · exact .inr ⟨key, .entry hentry hcontains, hrest⟩
  | @row path catalog row before after fault hrows _ _ ih =>
    have hrow : row ∈ (w.catalog catalog).entries.rows := by
      rw [hrows]
      exact List.mem_append_right _ (.head _)
    rcases ih fun passed hpassed key hcontains => hpath passed hpassed key (.row hrow hcontains) with
      ⟨roster, hcontains, hroster⟩ | ⟨key, hcontains, hrest⟩
    · exact .inl ⟨roster, .row hrow hcontains, hroster⟩
    · exact .inr ⟨key, .row hrow hcontains, hrest⟩

/-- From where the walk starts, it `Meets` a defect only if one can be reached by `Reaches`. -/
theorem Meets.exists_defective (h : w.Meets view [] (.lookup key) fault) :
    ∃ other, w.Reaches view key other ∧ w.Defective view other := by
  rcases h.defective fun _ hpassed => nomatch hpassed with ⟨roster, hcontains, -⟩ | ⟨next, hcontains, hrest⟩
  · cases hcontains
  · cases hcontains
    exact hrest

theorem Clear.not_defective (h : w.Clear view [] (.lookup key)) {other : Key}
    (hreach : w.Reaches view key other) : ¬ w.Defective view other :=
  (h.sound.2 key (.self _) other hreach).2

theorem isChain_push (hchain : path.IsChain (w.DependsOn view))
    (hlast : ∀ last ∈ path.getLast?, w.DependsOn view last key) :
    (path ++ [key]).IsChain (w.DependsOn view) := by
  refine List.isChain_append.2 ⟨hchain, .singleton key, ?_⟩
  rintro last hmem _ ⟨⟩
  exact hlast last hmem

/-- The chain of a cycle is the way from the first key on, each key of which `DependsOn` the next,
and then the key that comes again. -/
theorem Meets.chain {chain : List Key} (h : w.Meets view path provider (.cyclicBinding chain))
    (hnodup : path.Nodup) (hchain : path.IsChain (w.DependsOn view))
    (hlast : ∀ last ∈ path.getLast?, ∀ key, provider.Contains w (.lookup key) →
      w.DependsOn view last key) :
    ∃ passed repeated, chain = passed ++ [repeated] ∧ path <+: passed ∧ passed.Nodup ∧
      repeated ∈ passed ∧ chain.IsChain (w.DependsOn view) := by
  generalize hfault : Fault.cyclicBinding chain = fault at h
  induction h with
  | @cycle path key hkey =>
    obtain rfl := Fault.cyclicBinding.inj hfault
    exact ⟨path, key, rfl, List.prefix_refl path, hnodup, hkey,
      isChain_push hchain fun last hmem => hlast last hmem key (.self _)⟩
  | unbound => cases hfault
  | @inner path key r _ hkey hview _ ih =>
    have hdepends {last next : Key} (hmem : last ∈ (path ++ [key]).getLast?)
        (hcontains : r.provider.Contains w (.lookup next)) : w.DependsOn view last next := by
      -- the last key on the way is the one whose tree is walked now
      rw [List.getLast?_concat, Option.mem_some_iff] at hmem
      exact hmem ▸ ⟨r, hview, hcontains⟩
    have hpush := ResolveStack.push_eq_ok_iff.2 ⟨hkey, rfl⟩
    obtain ⟨passed, repeated, heq, hprefix, hrest⟩ :=
      ih (ResolveStack.nodup_of_push hnodup hpush)
        (isChain_push hchain fun last hmem => hlast last hmem key (.self _))
        (fun last hmem next hcontains => hdepends hmem hcontains) hfault
    exact ⟨passed, repeated, heq, (List.prefix_append path [key]).trans hprefix, hrest⟩
  | decorating _ ih =>
    exact ih hnodup hchain (fun last hmem key hcontains => hlast last hmem key (.delegate hcontains)) hfault
  | disordered horder =>
    obtain ⟨cycle, rfl⟩ := Roster.fault_of_order horder
    cases hfault
  | @entry path roster entry before after fault horder _ _ ih =>
    have hentry : entry ∈ (w.roster roster).entries :=
      (Roster.order_perm horder).mem_iff.1 (List.mem_append_right _ (.head _))
    exact ih hnodup hchain
      (fun last hmem key hcontains => hlast last hmem key (.entry hentry hcontains)) hfault
  | @row path catalog row before after fault hrows _ _ ih =>
    have hrow : row ∈ (w.catalog catalog).entries.rows := by
      rw [hrows]
      exact List.mem_append_right _ (.head _)
    exact ih hnodup hchain
      (fun last hmem key hcontains => hlast last hmem key (.row hrow hcontains)) hfault

/-- From where the walk starts, with no `path`, the chain of a cycle starts too. -/
theorem Meets.chain_of_start {chain : List Key} (h : w.Meets view [] (.lookup key) (.cyclicBinding chain)) :
    ∃ passed repeated, chain = passed ++ [repeated] ∧ passed.head? = some key ∧ passed.Nodup ∧
      repeated ∈ passed ∧ chain.IsChain (w.DependsOn view) := by
  cases h with
  | cycle hkey => cases hkey
  | @inner _ _ r _ _ hview h =>
    obtain ⟨passed, repeated, heq, ⟨rest, rfl⟩, hmore⟩ :=
      h.chain (List.nodup_singleton key) (.singleton key) fun last hmem next hcontains =>
        Option.some.inj hmem ▸ ⟨r, hview, hcontains⟩
    exact ⟨_, repeated, heq, rfl, hmore⟩

end World

end Wiring
