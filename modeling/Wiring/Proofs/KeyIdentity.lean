import Mathlib.Data.Set.Function
import Mathlib.Tactic.Linarith
import Wiring.Key

/-!
# What tells keys apart

A key can be looked at in three ways: by its parts, by its place among sorted keys (`Key.compare`),
and by the text that stands for it in messages (`Key.display`). The first two always agree, for keys
are compared part by part, each of them in a linear order (`Key.compare_eq_iff`).

The text agrees with them if each type has a name of its own and no name holds the two characters
that stand before a qualifier. The qualifier is written as it is and may hold anything, these two
characters too. But they are first found where the name ends: a name that ends in a parenthesis is
followed by another, and not by a quotation mark (`Key.split_unique`).

* **`Key.hashed_perm_sorted`** — a set by hash and a set by order keep the same of any keys.
* **`Key.identity_order_display`** — equality, comparison and text, for all types of a set whose
  names are fit for it.
-/

namespace Wiring

open Std

/-! ### Types and qualifiers in order -/

namespace ValueType

theorem compare_swap (a b : ValueType) : a.compare b = (b.compare a).swap := by
  induction a generalizing b with
  | plain name =>
    cases b with
    | plain other => exact OrientedOrd.eq_swap
    | list _ => rfl
    | map _ => rfl
  | list element ih =>
    cases b with
    | plain _ => rfl
    | list other => exact ih other
    | map _ => rfl
  | map element ih =>
    cases b with
    | plain _ => rfl
    | list _ => rfl
    | map other => exact ih other

theorem compare_trans {a b c : ValueType} (h : (a.compare b).isLE) (h' : (b.compare c).isLE) :
    (a.compare c).isLE := by
  -- names come before lists and these before maps, so only two of one kind are compared further
  induction a generalizing b c with
  | plain name =>
    cases b with
    | plain other =>
      cases c with
      | plain last => exact TransOrd.isLE_trans h h'
      | list _ => rfl
      | map _ => rfl
    | list _ =>
      cases c with
      | plain _ => cases h'
      | list _ => rfl
      | map _ => rfl
    | map _ =>
      cases c with
      | plain _ => cases h'
      | list _ => cases h'
      | map _ => rfl
  | list element ih =>
    cases b with
    | plain _ => cases h
    | list other =>
      cases c with
      | plain _ => cases h'
      | list last => exact ih h h'
      | map _ => rfl
    | map _ =>
      cases c with
      | plain _ => cases h'
      | list _ => cases h'
      | map _ => rfl
  | map element ih =>
    cases b with
    | plain _ => cases h
    | list _ => cases h
    | map other =>
      cases c with
      | plain _ => cases h'
      | list _ => cases h'
      | map last => exact ih h h'

theorem eq_of_compare {a b : ValueType} (h : a.compare b = .eq) : a = b := by
  induction a generalizing b with
  | plain name =>
    cases b with
    | plain other => exact congrArg plain (LawfulEqOrd.eq_of_compare h)
    | list _ => cases h
    | map _ => cases h
  | list element ih =>
    cases b with
    | plain _ => cases h
    | list other => exact congrArg list (ih h)
    | map _ => cases h
  | map element ih =>
    cases b with
    | plain _ => cases h
    | list _ => cases h
    | map other => exact congrArg map (ih h)

instance : TransOrd ValueType where
  eq_swap := compare_swap _ _
  isLE_trans := compare_trans

instance : LawfulEqOrd ValueType where
  eq_of_compare := eq_of_compare

end ValueType

namespace Qualifier

instance : TransOrd Qualifier where
  eq_swap {a b} := by
    cases a with
    | text _ =>
      cases b with
      | text _ => exact OrientedOrd.eq_swap (α := String)
      | object _ => rfl
    | object _ =>
      cases b with
      | text _ => rfl
      | object _ => exact OrientedOrd.eq_swap (α := Nat)
  isLE_trans {a b c} h h' := by
    cases a with
    | text _ =>
      cases b with
      | text _ =>
        cases c with
        | text _ => exact TransOrd.isLE_trans (α := String) h h'
        | object _ => rfl
      | object _ =>
        cases c with
        | text _ => cases h'
        | object _ => rfl
    | object _ =>
      cases b with
      | text _ => cases h
      | object _ =>
        cases c with
        | text _ => cases h'
        | object _ => exact TransOrd.isLE_trans (α := Nat) h h'

instance : LawfulEqOrd Qualifier where
  eq_of_compare {a b} h := by
    cases a with
    | text _ =>
      cases b with
      | text _ => exact congrArg text (LawfulEqOrd.eq_of_compare (α := String) h)
      | object _ => cases h
    | object _ =>
      cases b with
      | text _ => cases h
      | object _ => exact congrArg object (LawfulEqOrd.eq_of_compare (α := Nat) h)

end Qualifier

namespace Key

/-! ### Keys in order -/

instance : TransCmp compare :=
  inferInstanceAs (TransCmp (compareLex (compareOn fun key : Key => key.type.name)
    (compareLex (compareOn Key.type) (compareOn Key.qualifier))))

instance : LawfulEqCmp compare where
  eq_of_compare {a b} h := by
    obtain ⟨-, hrest⟩ := Ordering.then_eq_eq.1 h
    obtain ⟨htype, hqualifier⟩ := Ordering.then_eq_eq.1 hrest
    cases a
    cases b
    exact congrArg₂ Key.mk (LawfulEqOrd.eq_of_compare htype) (LawfulEqOrd.eq_of_compare hqualifier)

theorem compare_eq_iff {a b : Key} : a.compare b = .eq ↔ a = b :=
  LawfulEqCmp.compare_eq_iff_eq

/-- A key comes before another by `compare`, or after it, or stands at the same place. -/
theorem isLE_or_isLE (a b : Key) : (a.compare b).isLE ∨ (b.compare a).isLE := by
  have hswap : b.compare a = (a.compare b).swap := OrientedCmp.eq_swap
  rw [hswap]
  cases a.compare b with
  | lt => exact .inl rfl
  | eq => exact .inl rfl
  | gt => exact .inr rfl

theorem eq_of_isLE {a b : Key} (h : (a.compare b).isLE) (h' : (b.compare a).isLE) : a = b :=
  compare_eq_iff.1 (OrientedCmp.isLE_antisymm h h')

/-- A set that looks for equal keys and one that sorts by `compare` keep the same of any keys. -/
theorem hashed_perm_sorted (hash : Hashable Key) (keys : List Key) :
    (HashSet.ofList keys).toList.Perm (TreeSet.ofList keys compare).toList := by
  refine (List.perm_ext_iff_of_nodup ?_ ?_).2 fun key => ?_
  · exact HashSet.distinct_toList.imp fun h heq => by simp [heq] at h
  · exact TreeSet.distinct_toList.imp fun h heq => h (compare_eq_iff.2 heq)
  · rw [HashSet.mem_toList, HashSet.mem_ofList, TreeSet.mem_toList, TreeSet.mem_ofList]

/-! ### Keys as texts -/

/-- What stands in `Key.display` between the name of a type and a qualifier. -/
def opening : List Char := ['(', '"']

/-- Where what stands before one `opening` is longer than what stands before another, it has an
opening. -/
theorem eq_nil_of_split {between rest more : List Char} (h : opening ++ rest = between ++ (opening ++ more))
    (hbetween : ¬ opening <+: between) : between = [] := by
  rcases between with _ | ⟨first, _ | ⟨second, later⟩⟩
  · rfl
  · -- the quotation mark would have to be a parenthesis
    simp [opening] at h
  · simp only [opening, List.cons_append, List.nil_append, List.cons.injEq] at h
    obtain ⟨rfl, rfl, -⟩ := h
    exact absurd ⟨later, rfl⟩ hbetween

/-- Of names without an `opening`, followed by one, each can be told where it ends. -/
theorem split_unique {name other rest more : List Char} (hname : ¬ opening <:+: name)
    (hother : ¬ opening <:+: other) (h : name ++ (opening ++ rest) = other ++ (opening ++ more)) :
    name = other ∧ rest = more := by
  have hfresh {before between : List Char} (hfree : ¬ opening <:+: before ++ between) :
      ¬ opening <+: between := by
    rintro ⟨later, rfl⟩
    exact hfree ⟨before, later, by simp⟩
  rcases List.append_eq_append_iff.1 h with ⟨between, rfl, hsplit⟩ | ⟨between, rfl, hsplit⟩
  · obtain rfl := eq_nil_of_split hsplit (hfresh hother)
    simpa using hsplit
  · obtain rfl := eq_nil_of_split hsplit (hfresh hname)
    simpa [eq_comm] using hsplit

theorem toList_display_named (type : ValueType) (qualifier : Option String) :
    (named type qualifier).display.toList = type.name.toList ++
      match qualifier with
      | none => []
      | some text => opening ++ (text.toList ++ ['"', ')']) := by
  cases qualifier with
  | none => simp [named, display]
  | some text => simp [named, display, Qualifier.display, opening]

theorem named_of_display {s t : ValueType} (hs : ¬ opening <:+: s.name.toList)
    (ht : ¬ opening <:+: t.name.toList) {p q : Option String}
    (h : (named s p).display = (named t q).display) : s.name = t.name ∧ p = q := by
  have hlists := congrArg String.toList h
  rw [toList_display_named, toList_display_named] at hlists
  cases p with
  | none =>
    cases q with
    | none => exact ⟨String.toList_inj.1 (by simpa using hlists), rfl⟩
    | some text => exact absurd ⟨t.name.toList, _, by simpa using hlists.symm⟩ hs
  | some text =>
    cases q with
    | none => exact absurd ⟨s.name.toList, _, by simpa using hlists⟩ ht
    | some other =>
      obtain ⟨hname, hrest⟩ := split_unique hs ht hlists
      exact ⟨String.toList_inj.1 hname, congrArg some (String.toList_inj.1 (List.append_cancel_right hrest))⟩

/-- Keys of types whose names are different and hold no `opening` are equal just if `compare` puts
them at the same place, and just if `display` gives them the same text. All keys are in a linear
order, and a set that looks for equal keys and one that sorts keep the same of them. -/
theorem identity_order_display {types : Set ValueType} (hnames : Set.InjOn ValueType.name types)
    (hopening : ∀ type ∈ types, ¬ opening <:+: type.name.toList) :
    (∀ s ∈ types, ∀ t ∈ types, ∀ p q : Option String,
      (named s p = named t q ↔ (named s p).compare (named t q) = .eq) ∧
        (named s p = named t q ↔ (named s p).display = (named t q).display)) ∧
    (∀ a b : Key, a.compare b = (b.compare a).swap) ∧
    (∀ a b : Key, (a.compare b).isLE ∨ (b.compare a).isLE) ∧
    (∀ a b : Key, (a.compare b).isLE → (b.compare a).isLE → a = b) ∧
    (∀ a b c : Key, (a.compare b).isLE → (b.compare c).isLE → (a.compare c).isLE) ∧
    ∀ (_ : Hashable Key) (keys : List Key),
      (HashSet.ofList keys).toList.Perm (TreeSet.ofList keys compare).toList := by
  refine ⟨?_, fun _ _ => OrientedCmp.eq_swap, isLE_or_isLE, fun _ _ => eq_of_isLE,
    fun _ _ _ => TransCmp.isLE_trans, hashed_perm_sorted⟩
  intro s hs t ht p q
  refine ⟨compare_eq_iff.symm, congrArg display, fun h => ?_⟩
  obtain ⟨hname, rfl⟩ := named_of_display (hopening s hs) (hopening t ht) h
  rw [hnames hs ht hname]

/-- Two types whose names differ by a parenthesis at the end, the first character of `opening`. -/
def parenthesized : Set ValueType :=
  {.plain "i64", .plain "i64("}

/-- The texts are `i64("("b")` and `i64(("b")`. -/
theorem identity_order_display_of_parenthesized :
    Set.InjOn ValueType.name parenthesized ∧
      (∀ type ∈ parenthesized, ¬ opening <:+: type.name.toList) ∧
      (named (.plain "i64") (some "(\"b")).compare (named (.plain "i64(") (some "b")) ≠ .eq ∧
      (named (.plain "i64") (some "(\"b")).display ≠ (named (.plain "i64(") (some "b")).display := by
  have hnames : Set.InjOn ValueType.name parenthesized := by
    rintro s (rfl | rfl) t (rfl | rfl) h
    · rfl
    · exact absurd h (by decide)
    · exact absurd h (by decide)
    · rfl
  have hopening : ∀ type ∈ parenthesized, ¬ opening <:+: type.name.toList := by
    rintro type (rfl | rfl)
    · decide +kernel
    · decide +kernel
  have hne : named (.plain "i64") (some "(\"b") ≠ named (.plain "i64(") (some "b") := by
    decide
  obtain ⟨hagree, -⟩ := identity_order_display hnames hopening
  obtain ⟨hcompare, hdisplay⟩ := hagree _ (.inl rfl) _ (.inr rfl) (some "(\"b") (some "b")
  exact ⟨hnames, hopening, fun h => hne (hcompare.2 h), fun h => hne (hdisplay.2 h)⟩

end Key

end Wiring
