/-
Module: NsuLabs.Lib.OrderedList
Purpose: C comparators as total orders up to equivalence, and finite ordered sets kept as strictly increasing
  lists. Blocks of elements with separators between them, as in a search tree with many keys in a node.
Trusted boundary: none
Main exports: LawfulComparator, insertBy, interleave, lefts, rights
-/
import Mathlib

namespace NsuLabs.Lib

open List

universe u

variable {α : Type u} {a b c z : α} {left right xs : List α}

/-- The laws a comparator in the style of `qsort` obeys when it describes a total order: swapping
    the arguments swaps the sign, and `≤` is transitive. Two elements that compare as zero are
    equivalent, not necessarily equal. -/
structure LawfulComparator (cmp : α → α → Int) : Prop where
  swap : ∀ a b, cmp a b < 0 ↔ 0 < cmp b a
  trans : ∀ a b c, cmp a b ≤ 0 → cmp b c ≤ 0 → cmp a c ≤ 0

namespace LawfulComparator

variable {cmp : α → α → Int} (h : LawfulComparator cmp)

include h

theorem self (a : α) : cmp a a = 0 := by
  have := h.swap a a
  omega

theorem zero_symm (hab : cmp a b = 0) : cmp b a = 0 := by
  have := h.swap a b
  have := h.swap b a
  omega

theorem lt_of_le_of_lt (hab : cmp a b ≤ 0) (hbc : cmp b c < 0) : cmp a c < 0 := by
  have hac := h.trans a b c hab (by omega)
  by_contra hn
  -- `c ≤ a ≤ b` would contradict `b < c`.
  have hca : cmp c a ≤ 0 := by
    have := h.swap a c
    omega
  have hcb := h.trans c a b hca hab
  have := h.swap b c
  omega

theorem lt_of_lt_of_le (hab : cmp a b < 0) (hbc : cmp b c ≤ 0) : cmp a c < 0 := by
  have hac := h.trans a b c (by omega) hbc
  by_contra hn
  have hca : cmp c a ≤ 0 := by
    have := h.swap a c
    omega
  have hba := h.trans b c a hbc hca
  have := h.swap a b
  omega

end LawfulComparator

/-- Strictly increasing for a comparator. -/
def StrictlyIncreasing (cmp : α → α → Int) (xs : List α) : Prop :=
  xs.Pairwise fun a b => cmp a b < 0

/-- Insert into an increasing list; an equivalent element is replaced. -/
def insertBy (cmp : α → α → Int) (x : α) : List α → List α
  | [] => [x]
  | y :: ys =>
    if cmp x y < 0 then x :: y :: ys
    else if cmp x y > 0 then y :: insertBy cmp x ys
    else x :: ys

/-- Remove the element equivalent to `x` from an increasing list, if there is one. -/
def eraseBy (cmp : α → α → Int) (x : α) : List α → List α
  | [] => []
  | y :: ys =>
    if cmp x y < 0 then y :: ys
    else if cmp x y > 0 then y :: eraseBy cmp x ys
    else ys

/-- The element of an increasing list that is equivalent to `x`. -/
def lookupBy (cmp : α → α → Int) (x : α) : List α → Option α
  | [] => none
  | y :: ys =>
    if cmp x y < 0 then none
    else if cmp x y > 0 then lookupBy cmp x ys
    else some y

/-! ### Splitting at a pivot

On `left ++ y :: right` with every element of `left` below `y` and every element of `right` above it, the
three operations act on the side of `y` the argument belongs to. -/

section Pivot

variable {cmp : α → α → Int} {x y : α}

/-- `x` above everything on the left skips the whole left part. -/
theorem gt_of_lt_pivot (h : LawfulComparator cmp) (hleft : ∀ z ∈ left, cmp z y < 0) (hxy : 0 ≤ cmp x y) :
    ∀ z ∈ left, 0 < cmp x z := by
  intro z hz
  have hyx : cmp y x ≤ 0 := by
    have := h.swap x y
    omega
  exact (h.swap z x).1 (h.lt_of_lt_of_le (hleft z hz) hyx)

theorem insertBy_skip (hleft : ∀ z ∈ left, 0 < cmp x z) :
    insertBy cmp x (left ++ right) = left ++ insertBy cmp x right := by
  induction left with
  | nil => rfl
  | cons z zs ih =>
    have hz := hleft z (by simp)
    have hrest := ih fun w hw => hleft w (by simp [hw])
    simp [insertBy, show ¬ cmp x z < 0 by omega, hz, hrest]

theorem eraseBy_skip (hleft : ∀ z ∈ left, 0 < cmp x z) :
    eraseBy cmp x (left ++ right) = left ++ eraseBy cmp x right := by
  induction left with
  | nil => rfl
  | cons z zs ih =>
    have hz := hleft z (by simp)
    have hrest := ih fun w hw => hleft w (by simp [hw])
    simp [eraseBy, show ¬ cmp x z < 0 by omega, hz, hrest]

theorem lookupBy_skip (hleft : ∀ z ∈ left, 0 < cmp x z) :
    lookupBy cmp x (left ++ right) = lookupBy cmp x right := by
  induction left with
  | nil => rfl
  | cons z zs ih =>
    have hz := hleft z (by simp)
    have hrest := ih fun w hw => hleft w (by simp [hw])
    simp [lookupBy, show ¬ cmp x z < 0 by omega, hz, hrest]

theorem insertBy_pivot_lt (hxy : cmp x y < 0) :
    insertBy cmp x (left ++ y :: right) = insertBy cmp x left ++ y :: right := by
  induction left with
  | nil => simp [insertBy, hxy]
  | cons z zs ih =>
    simp only [cons_append, insertBy, ih]
    split_ifs <;> simp

theorem eraseBy_pivot_lt (hxy : cmp x y < 0) :
    eraseBy cmp x (left ++ y :: right) = eraseBy cmp x left ++ y :: right := by
  induction left with
  | nil => simp [eraseBy, hxy]
  | cons z zs ih =>
    simp only [cons_append, eraseBy, ih]
    split_ifs <;> simp

theorem lookupBy_pivot_lt (hxy : cmp x y < 0) :
    lookupBy cmp x (left ++ y :: right) = lookupBy cmp x left := by
  induction left with
  | nil => simp [lookupBy, hxy]
  | cons z zs ih =>
    simp only [cons_append, lookupBy, ih]

end Pivot

/-! ### Membership -/

section Membership

variable {cmp : α → α → Int} (h : LawfulComparator cmp) {x : α}

include h

/-- What is above the first element is above `x` as well, unless `x` is above the first element. -/
theorem StrictlyIncreasing.behind (hxs : StrictlyIncreasing cmp (b :: xs)) (hle : cmp x b ≤ 0) :
    ∀ z ∈ xs, cmp x z < 0 :=
  fun z hz => h.lt_of_le_of_lt hle ((pairwise_cons.1 hxs).1 z hz)

theorem mem_insertBy (hxs : StrictlyIncreasing cmp xs) :
    z ∈ insertBy cmp x xs ↔ z = x ∨ (z ∈ xs ∧ cmp x z ≠ 0) := by
  induction xs with
  | nil => simp [insertBy]
  | cons y ys ih =>
    have ih := ih (pairwise_cons.1 hxs).2
    have hbehind := hxs.behind h (x := x)
    rw [insertBy]
    split_ifs with hlt hgt
    · grind
    · grind
    · grind

theorem mem_eraseBy (hxs : StrictlyIncreasing cmp xs) : z ∈ eraseBy cmp x xs ↔ z ∈ xs ∧ cmp x z ≠ 0 := by
  induction xs with
  | nil => simp [eraseBy]
  | cons y ys ih =>
    have ih := ih (pairwise_cons.1 hxs).2
    have hbehind := hxs.behind h (x := x)
    rw [eraseBy]
    split_ifs with hlt hgt
    · grind
    · grind
    · grind

theorem lookupBy_eq_some_iff (hxs : StrictlyIncreasing cmp xs) :
    lookupBy cmp x xs = some z ↔ z ∈ xs ∧ cmp x z = 0 := by
  induction xs with
  | nil => simp [lookupBy]
  | cons y ys ih =>
    have ih := ih (pairwise_cons.1 hxs).2
    have hbehind := hxs.behind h (x := x)
    rw [lookupBy]
    split_ifs with hlt hgt
    · grind
    · grind
    · grind

theorem lookupBy_eq_none_iff (hxs : StrictlyIncreasing cmp xs) :
    lookupBy cmp x xs = none ↔ ∀ z ∈ xs, cmp x z ≠ 0 := by
  rw [Option.eq_none_iff_forall_ne_some]
  constructor
  · intro hnone z hz hzero
    exact hnone z ((lookupBy_eq_some_iff h hxs).2 ⟨hz, hzero⟩)
  · intro hall z hz
    have := (lookupBy_eq_some_iff h hxs).1 hz
    exact hall z this.1 this.2

/-! ### The operations keep the list increasing, and how they change its length -/

theorem StrictlyIncreasing.insertBy (hxs : StrictlyIncreasing cmp xs) :
    StrictlyIncreasing cmp (insertBy cmp x xs) := by
  induction xs with
  | nil => simp [Lib.insertBy, StrictlyIncreasing]
  | cons y ys ih =>
    obtain ⟨hy, hys⟩ := pairwise_cons.1 hxs
    rw [Lib.insertBy]
    split_ifs with hlt hgt
    · exact pairwise_cons.2 ⟨forall_mem_cons.mpr ⟨hlt, hxs.behind h hlt.le⟩, hxs⟩
    · refine pairwise_cons.2 ⟨?_, ih hys⟩
      intro w hw
      rcases (mem_insertBy h hys).1 hw with rfl | ⟨hw, -⟩
      · exact (h.swap y w).2 hgt
      · exact hy w hw
    · exact pairwise_cons.2 ⟨hxs.behind h (not_lt.mp hgt), hys⟩

omit h in
theorem eraseBy_sublist (xs : List α) : (eraseBy cmp x xs).Sublist xs := by
  induction xs with
  | nil => simp [eraseBy]
  | cons y ys ih =>
    rw [eraseBy]
    split_ifs
    · exact Sublist.refl _
    · exact ih.cons_cons y
    · exact sublist_cons_self y ys

omit h in
theorem StrictlyIncreasing.eraseBy (hxs : StrictlyIncreasing cmp xs) :
    StrictlyIncreasing cmp (eraseBy cmp x xs) :=
  hxs.sublist (eraseBy_sublist xs)

omit h in
theorem length_insertBy (cmp : α → α → Int) (x : α) (xs : List α) :
    (insertBy cmp x xs).length = xs.length + (if lookupBy cmp x xs = none then 1 else 0) := by
  induction xs with
  | nil => simp [insertBy, lookupBy]
  | cons y ys ih =>
    rw [insertBy, lookupBy]
    split_ifs with hlt hgt hnone <;> simp_all

omit h in
theorem length_eraseBy (cmp : α → α → Int) (x : α) (xs : List α) :
    (eraseBy cmp x xs).length + (if lookupBy cmp x xs = none then 0 else 1) = xs.length := by
  induction xs with
  | nil => simp [eraseBy, lookupBy]
  | cons y ys ih =>
    rw [eraseBy, lookupBy]
    split_ifs with hlt hgt hnone <;> simp_all

end Membership

variable {xs ys : List α} {bs : List (List α)}

/-- The blocks with the separators between them. -/
def interleave : (blocks : List (List α)) → (seps : List α) → List α
  | [], _ => []
  | b :: _, [] => b
  | b :: bs, x :: xs => b ++ x :: interleave bs xs

/-- Blocks, each with the separator behind it. -/
def lefts (blocks : List (List α)) (seps : List α) : List α :=
  (List.zipWith (fun b x => b ++ [x]) blocks seps).flatten

/-- Blocks, each with the separator in front of it. -/
def rights (seps : List α) (blocks : List (List α)) : List α :=
  (List.zipWith (fun x b => x :: b) seps blocks).flatten

theorem rights_cons (x : α) (xs : List α) (b : List α) (bs : List (List α)) :
    rights (x :: xs) (b :: bs) = x :: (b ++ rights xs bs) := rfl

theorem interleave_cons_eq_rights (b : List α) (h : bs.length = xs.length) :
    interleave (b :: bs) xs = b ++ rights xs bs := by
  induction xs generalizing b bs with
  | nil =>
    cases bs with
    | nil => simp [interleave, rights]
    | cons c cs => cases h
  | cons x xs ih =>
    cases bs with
    | nil => cases h
    | cons c cs => rw [interleave, ih c (Nat.succ.inj h), rights_cons]

/-- One block and its two sides. -/
theorem interleave_middle {ls : List (List α)} (b : List α) {rs : List (List α)} (hl : ls.length = xs.length)
    (hr : rs.length = ys.length) :
    interleave (ls ++ b :: rs) (xs ++ ys) = lefts ls xs ++ (b ++ rights ys rs) := by
  induction ls generalizing xs with
  | nil =>
    cases xs with
    | nil => exact interleave_cons_eq_rights b hr
    | cons x xs => cases hl
  | cons l ls ih =>
    cases xs with
    | nil => cases hl
    | cons x xs =>
      rw [cons_append, cons_append, interleave, ih (Nat.succ.inj hl)]
      simp [lefts]

/-- Cut at a separator. -/
theorem interleave_append {as : List (List α)} (m : α) (bs : List (List α)) (ys : List α)
    (h : as.length = xs.length + 1) :
    interleave (as ++ bs) (xs ++ m :: ys) = interleave as xs ++ m :: interleave bs ys := by
  induction xs generalizing as with
  | nil =>
    match as, h with
    | [a], _ => simp [interleave]
  | cons x xs ih =>
    match as, h with
    | a :: as, h =>
      rw [cons_append, cons_append, interleave, interleave, ih (Nat.succ.inj h)]
      simp

theorem seps_sublist_interleave (h : bs.length = xs.length + 1) :
    xs.Sublist (interleave bs xs) := by
  induction xs generalizing bs with
  | nil => exact nil_sublist _
  | cons x xs ih =>
    match bs, h with
    | b :: bs, h =>
      rw [interleave]
      exact ((ih (Nat.succ.inj h)).cons_cons x).trans (sublist_append_right b _)

/-! ### Order -/

section Order

variable [Preorder α] {v : α}

theorem lefts_le (hlen : bs.length = xs.length) (hsorted : (lefts bs xs).Pairwise (· ≤ ·))
    (hxs : ∀ x ∈ xs, x ≤ v) : ∀ a ∈ lefts bs xs, a ≤ v := by
  induction bs generalizing xs with
  | nil => nofun
  | cons b bs ih =>
    cases xs with
    | nil => cases hlen
    | cons x xs =>
      have hsplit : lefts (b :: bs) (x :: xs) = b ++ (x :: lefts bs xs) := by simp [lefts]
      rw [hsplit] at hsorted ⊢
      have hx : x ≤ v := hxs x mem_cons_self
      obtain ⟨-, hrest, hb⟩ := pairwise_append.mp hsorted
      intro a ha
      rcases mem_append.mp ha with ha | ha
      · exact (hb a ha x mem_cons_self).trans hx
      · rcases mem_cons.mp ha with rfl | ha
        · exact hx
        · exact ih (Nat.succ.inj hlen) (pairwise_cons.mp hrest).2
            (fun y hy => hxs y (mem_cons_of_mem x hy)) a ha

theorem le_rights (hlen : bs.length = xs.length) (hsorted : (rights xs bs).Pairwise (· ≤ ·))
    (hxs : ∀ x ∈ xs, v ≤ x) : ∀ a ∈ rights xs bs, v ≤ a := by
  cases xs with
  | nil =>
    intro a ha
    simp [rights] at ha
  | cons x xs =>
    cases bs with
    | nil => cases hlen
    | cons b bs =>
      -- the first separator is below all that follows
      rw [rights_cons] at hsorted ⊢
      have hx : v ≤ x := hxs x mem_cons_self
      intro a ha
      rcases mem_cons.mp ha with rfl | ha
      · exact hx
      · exact hx.trans ((pairwise_cons.mp hsorted).1 a ha)

/-- The second list is the first with `v` put where it belongs. -/
def InsertedAt (v : α) (xs ys : List α) : Prop :=
  ∃ as bs, xs = as ++ bs ∧ ys = as ++ v :: bs ∧ (∀ a ∈ as, a ≤ v) ∧ ∀ b ∈ bs, v ≤ b

theorem InsertedAt.perm (h : InsertedAt v xs ys) : ys.Perm (v :: xs) := by
  obtain ⟨as, bs, rfl, rfl, -, -⟩ := h
  exact perm_middle

theorem InsertedAt.sorted (h : InsertedAt v xs ys) (hxs : xs.Pairwise (· ≤ ·)) :
    ys.Pairwise (· ≤ ·) := by
  obtain ⟨as, bs, rfl, rfl, has, hbs⟩ := h
  obtain ⟨h₁, h₂, h₃⟩ := pairwise_append.mp hxs
  apply pairwise_append.mpr
  refine ⟨h₁, pairwise_cons.mpr ⟨hbs, h₂⟩, fun a ha b hb => ?_⟩
  rcases mem_cons.mp hb with rfl | hb
  · exact has a ha
  · exact h₃ a ha b hb

/-- Between elements that are not above and elements that are not below. -/
theorem InsertedAt.between {before after : List α} (h : InsertedAt v xs ys) (hbefore : ∀ a ∈ before, a ≤ v)
    (hafter : ∀ b ∈ after, v ≤ b) : InsertedAt v (before ++ (xs ++ after)) (before ++ (ys ++ after)) := by
  obtain ⟨as, bs, rfl, rfl, has, hbs⟩ := h
  refine ⟨before ++ as, bs ++ after, by simp, by simp, fun a ha => ?_, fun b hb => ?_⟩
  · exact (mem_append.mp ha).elim (hbefore a) (has a)
  · exact (mem_append.mp hb).elim (hbs b) (hafter b)

end Order

end NsuLabs.Lib
