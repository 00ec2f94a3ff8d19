/-
Module: NsuLabs.Lib.Selections
Purpose: The best selections of weighted items. The arrangements of the elements of a list in lexicographic
  order: which one is the greatest and which the least, the next one after a given one, and chains of next
  arrangements.
Trusted boundary: none
Main exports: IsBest, bestPrice, IsGreatestArrangement, IsNextArrangement
-/
import Mathlib

namespace NsuLabs.Lib

universe u

variable {α : Type u} [AddCommGroup α] [LinearOrder α] {w : ℕ → ℕ} {p : ℕ → α} {n c : ℕ}

/-- The selection is one of the first `n` items and fits the capacity. -/
def Fits (w : ℕ → ℕ) (n c : ℕ) (s : Finset ℕ) : Prop := s ⊆ Finset.range n ∧ ∑ i ∈ s, w i ≤ c

/-- The greatest price of a fitting selection. -/
def IsBest (w : ℕ → ℕ) (p : ℕ → α) (n c : ℕ) (v : α) : Prop :=
  IsGreatest {v | ∃ s, Fits w n c s ∧ v = ∑ i ∈ s, p i} v

/-! ### One item more -/

variable {s : Finset ℕ}

theorem Fits.succ (hs : Fits w n c s) : Fits w (n + 1) c s :=
  ⟨hs.1.trans (Finset.range_mono n.le_succ), hs.2⟩

theorem Fits.notMem (hs : Fits w n c s) : n ∉ s := fun hn => Finset.notMem_range_self (hs.1 hn)

theorem Fits.insert (hn : w n ≤ c) (hs : Fits w n (c - w n) s) : Fits w (n + 1) c (insert n s) := by
  refine ⟨Finset.insert_subset (Finset.self_mem_range_succ n) hs.succ.1, ?_⟩
  rw [Finset.sum_insert hs.notMem]
  have := hs.2
  omega

/-- A selection without the last item. -/
theorem Fits.of_notMem (hs : Fits w (n + 1) c s) (hn : n ∉ s) : Fits w n c s := by
  refine ⟨fun i hi => ?_, hs.2⟩
  have hlt := Finset.mem_range.mp (hs.1 hi)
  have hne : i ≠ n := fun heq => hn (heq ▸ hi)
  exact Finset.mem_range.mpr (by omega)

/-- A selection with the last item. -/
theorem Fits.erase (hs : Fits w (n + 1) c s) (hn : n ∈ s) : w n ≤ c ∧ Fits w n (c - w n) (s.erase n) := by
  have hsum := Finset.add_sum_erase s w hn
  have hle := hs.2
  refine ⟨by omega, fun i hi => ?_, by omega⟩
  obtain ⟨hne, hi⟩ := Finset.mem_erase.mp hi
  have hlt := Finset.mem_range.mp (hs.1 hi)
  exact Finset.mem_range.mpr (by omega)

theorem isBest_zero : IsBest w p 0 c 0 := by
  refine ⟨⟨∅, ⟨Finset.empty_subset _, by simp⟩, by simp⟩, ?_⟩
  rintro v ⟨s, hs, rfl⟩
  have hempty : s = ∅ := Finset.subset_empty.mp hs.1
  rw [hempty, Finset.sum_empty]

theorem IsBest.leave {v : α} (hv : IsBest w p n c v) (hn : c < w n) : IsBest w p (n + 1) c v := by
  obtain ⟨⟨s, hs, hvs⟩, hupper⟩ := hv
  refine ⟨⟨s, hs.succ, hvs⟩, ?_⟩
  rintro v' ⟨s', hs', rfl⟩
  by_cases hmem : n ∈ s'
  · exact absurd (hs'.erase hmem).1 (not_le.mpr hn)
  · exact hupper ⟨s', hs'.of_notMem hmem, rfl⟩

theorem IsBest.max [IsOrderedAddMonoid α] {v u : α} (hn : w n ≤ c) (hv : IsBest w p n c v)
    (hu : IsBest w p n (c - w n) u) : IsBest w p (n + 1) c (max v (u + p n)) := by
  constructor
  · rcases max_cases v (u + p n) with ⟨hmax, -⟩ | ⟨hmax, -⟩
    · obtain ⟨s, hs, hvs⟩ := hv.1
      exact ⟨s, hs.succ, hmax.trans hvs⟩
    · obtain ⟨s, hs, hus⟩ := hu.1
      refine ⟨insert n s, hs.insert hn, ?_⟩
      rw [hmax, Finset.sum_insert hs.notMem, hus, add_comm]
  · rintro v' ⟨s, hs, rfl⟩
    by_cases hmem : n ∈ s
    · -- the rest of the selection is one for the capacity that is left
      refine le_max_of_le_right ?_
      rw [← Finset.add_sum_erase s p hmem, add_comm]
      exact add_le_add_left (hu.2 ⟨s.erase n, (hs.erase hmem).2, rfl⟩) _
    · exact le_max_of_le_left (hv.2 ⟨s, hs.of_notMem hmem, rfl⟩)

/-! ### The recursion -/

def bestPrice (w : ℕ → ℕ) (p : ℕ → α) : ℕ → ℕ → α
  | 0, _ => 0
  | n + 1, c => if w n ≤ c then max (bestPrice w p n c) (bestPrice w p n (c - w n) + p n)
    else bestPrice w p n c

theorem isBest_bestPrice [IsOrderedAddMonoid α] (w : ℕ → ℕ) (p : ℕ → α) (n : ℕ) :
    ∀ c, IsBest w p n c (bestPrice w p n c) := by
  induction n with
  | zero => exact fun c => isBest_zero
  | succ n ih =>
    intro c
    rw [bestPrice]
    split
    · rename_i hn
      exact (ih c).max hn (ih (c - w n))
    · rename_i hn
      exact (ih c).leave (not_le.mp hn)

/-- The selection that the way back through the recursion finds. -/
def chosen (w : ℕ → ℕ) (p : ℕ → α) : ℕ → ℕ → Finset ℕ
  | 0, _ => ∅
  | n + 1, c =>
    if bestPrice w p (n + 1) c = bestPrice w p n c then chosen w p n c else insert n (chosen w p n (c - w n))

/-- A greatest price that changes with the last item is one of selections with it. -/
theorem bestPrice_succ_of_ne (h : bestPrice w p (n + 1) c ≠ bestPrice w p n c) :
    w n ≤ c ∧ bestPrice w p (n + 1) c = bestPrice w p n (c - w n) + p n := by
  rw [bestPrice] at h ⊢
  by_cases hn : w n ≤ c
  · rw [if_pos hn] at h ⊢
    rcases max_cases (bestPrice w p n c) (bestPrice w p n (c - w n) + p n) with ⟨hmax, -⟩ | ⟨hmax, -⟩
    · exact absurd hmax h
    · exact ⟨hn, hmax⟩
  · rw [if_neg hn] at h
    exact absurd rfl h

theorem chosen_fits (w : ℕ → ℕ) (p : ℕ → α) (n : ℕ) : ∀ c, Fits w n c (chosen w p n c) := by
  induction n with
  | zero => exact fun c => ⟨Finset.empty_subset _, by simp [chosen]⟩
  | succ n ih =>
    intro c
    rw [chosen]
    split
    · exact (ih c).succ
    · rename_i hne
      exact (ih (c - w n)).insert (bestPrice_succ_of_ne hne).1

theorem sum_chosen (w : ℕ → ℕ) (p : ℕ → α) (n : ℕ) : ∀ c, ∑ i ∈ chosen w p n c, p i = bestPrice w p n c := by
  induction n with
  | zero => exact fun c => by simp [chosen, bestPrice]
  | succ n ih =>
    intro c
    rw [chosen]
    split
    · rename_i heq
      rw [ih c, heq]
    · rename_i hne
      rw [Finset.sum_insert (chosen_fits w p n (c - w n)).notMem, ih (c - w n),
        (bestPrice_succ_of_ne hne).2, add_comm]

open List

variable {α : Type u} [LinearOrder α] {s s' t : List α}

/-- No arrangement of the elements of `s` is greater. -/
def IsGreatestArrangement (s : List α) : Prop := ∀ t : List α, t.Perm s → t ≤ s

/-- `s'` is the least arrangement of the elements of `s` that is greater than `s`. -/
structure IsNextArrangement (s s' : List α) : Prop where
  perm : s'.Perm s
  lt : s < s'
  le : ∀ t : List α, t.Perm s → s < t → s' ≤ t

/-! ### The ends of the order -/

theorem cons_le_cons_of {x z : α} (h : x < z ∨ x = z ∧ s ≤ t) : x :: s ≤ z :: t := by
  rcases h with hlt | ⟨rfl, hle⟩
  · exact (cons_lt_cons_iff.mpr (.inl hlt)).le
  · rcases hle.lt_or_eq with hlt | rfl
    · exact (cons_lt_cons_iff.mpr (.inr ⟨rfl, hlt⟩)).le
    · exact le_rfl

theorem isGreatestArrangement_of_pairwise (hs : s.Pairwise (· ≥ ·)) : IsGreatestArrangement s := by
  induction s with
  | nil =>
    intro t ht
    rw [ht.eq_nil]
  | cons x s ih =>
    rintro (_ | ⟨z, t⟩) ht
    · exact absurd ht.symm.eq_nil (cons_ne_nil x s)
    · obtain ⟨hhead, htail⟩ := pairwise_cons.mp hs
      apply cons_le_cons_of
      rcases mem_cons.mp (ht.subset mem_cons_self) with rfl | hz
      · exact .inr ⟨rfl, ih htail t ht.cons_inv⟩
      · rcases (hhead z hz).lt_or_eq with hlt | rfl
        · exact .inl hlt
        · exact .inr ⟨rfl, ih htail t ht.cons_inv⟩

theorem le_of_pairwise_of_perm (hs : s.Pairwise (· ≤ ·)) (ht : t.Perm s) : s ≤ t := by
  induction s generalizing t with
  | nil => rw [ht.eq_nil]
  | cons x s ih =>
    rcases t with _ | ⟨z, t⟩
    · exact absurd ht.symm.eq_nil (cons_ne_nil x s)
    · obtain ⟨hhead, htail⟩ := pairwise_cons.mp hs
      apply cons_le_cons_of
      rcases mem_cons.mp (ht.subset mem_cons_self) with rfl | hz
      · exact .inr ⟨rfl, ih htail ht.cons_inv⟩
      · rcases (hhead z hz).lt_or_eq with hlt | rfl
        · exact .inl hlt
        · exact .inr ⟨rfl, ih htail ht.cons_inv⟩

/-! ### The next arrangement -/

section

variable {x y : α} {U V : List α}

/-- The tail behind the place that grows: in descending order also with `x` in the place of `y`. -/
theorem pairwise_replaced (hdesc : (U ++ y :: V).Pairwise (· ≥ ·)) (hxy : x < y) (hV : ∀ v ∈ V, v ≤ x) :
    (U ++ x :: V).Pairwise (· ≥ ·) := by
  obtain ⟨hU, hyV, hbetween⟩ := pairwise_append.mp hdesc
  refine pairwise_append.mpr ⟨hU, pairwise_cons.mpr ⟨hV, hyV.of_cons⟩, fun u hu w hw => ?_⟩
  rcases mem_cons.mp hw with rfl | hw
  · exact hxy.le.trans (hbetween u hu y mem_cons_self)
  · exact hbetween u hu w (mem_cons_of_mem y hw)

omit [LinearOrder α] in
theorem perm_of_split (A : List α) : (A ++ y :: (U ++ x :: V).reverse).Perm (A ++ x :: (U ++ y :: V)) := by
  refine Perm.append_left A ?_
  calc (y :: (U ++ x :: V).reverse).Perm (y :: (U ++ x :: V)) := (reverse_perm _).cons y
    _ |>.Perm (y :: x :: (U ++ V)) := perm_middle.cons y
    _ |>.Perm (x :: y :: (U ++ V)) := List.Perm.swap x y _
    _ |>.Perm (x :: (U ++ y :: V)) := perm_middle.symm.cons x

/-- Every arrangement above `s` agrees with it up to some place and is greater there. Where `x`
    stands it has at least `y`, the least greater element behind `x`, and the least tail behind `y`
    is in ascending order. -/
theorem le_of_split (hdesc : (U ++ y :: V).Pairwise (· ≥ ·)) (hxy : x < y) (hV : ∀ v ∈ V, v ≤ x)
    (A : List α) : ∀ t : List α, t.Perm (A ++ x :: (U ++ y :: V)) → A ++ x :: (U ++ y :: V) < t →
      A ++ y :: (U ++ x :: V).reverse ≤ t := by
  induction A with
  | nil =>
    rintro (_ | ⟨z, t⟩) ht hlt
    · exact absurd ht.symm.eq_nil (cons_ne_nil _ _)
    · rw [nil_append] at ht hlt ⊢
      apply cons_le_cons_of
      rcases cons_lt_cons_iff.mp hlt with hxz | ⟨rfl, hrest⟩
      · have hz : z ∈ U ++ y :: V := by
          rcases mem_cons.mp (ht.subset mem_cons_self) with rfl | hz
          · exact absurd hxz (lt_irrefl z)
          · exact hz
        obtain ⟨-, hyV, hbetween⟩ := pairwise_append.mp hdesc
        have hyz : y ≤ z := by
          rcases mem_append.mp hz with hz | hz
          · exact hbetween z hz y mem_cons_self
          · rcases mem_cons.mp hz with rfl | hz
            · exact le_rfl
            · exact absurd (hV z hz) (not_le.mpr hxz)
        rcases hyz.lt_or_eq with hyz | rfl
        · exact .inl hyz
        · refine .inr ⟨rfl, le_of_pairwise_of_perm ?_ ?_⟩
          · exact pairwise_reverse.mpr (pairwise_replaced hdesc hxy hV)
          · exact (ht.trans (perm_of_split []).symm).cons_inv
      · exact absurd (isGreatestArrangement_of_pairwise hdesc t ht.cons_inv) (not_le.mpr hrest)
  | cons a A ih =>
    rintro (_ | ⟨z, t⟩) ht hlt
    · exact absurd ht.symm.eq_nil (cons_ne_nil _ _)
    · rw [cons_append] at ht hlt ⊢
      apply cons_le_cons_of
      rcases cons_lt_cons_iff.mp hlt with haz | ⟨rfl, hrest⟩
      · exact .inl haz
      · exact .inr ⟨rfl, ih t ht.cons_inv hrest⟩

theorem isNextArrangement_of_split (A : List α) (hdesc : (U ++ y :: V).Pairwise (· ≥ ·)) (hxy : x < y)
    (hV : ∀ v ∈ V, v ≤ x) :
    IsNextArrangement (A ++ x :: (U ++ y :: V)) (A ++ y :: (U ++ x :: V).reverse) where
  perm := perm_of_split A
  lt := append_left_lt (cons_lt_cons_iff.mpr (.inl hxy))
  le := le_of_split hdesc hxy hV A

theorem IsNextArrangement.not_isGreatest (h : IsNextArrangement s s') : ¬ IsGreatestArrangement s :=
  fun hgreatest => absurd (hgreatest s' h.perm) (not_le.mpr h.lt)

end

/-! ### Chains of next arrangements -/

variable {rest : List (List α)}

theorem pairwise_of_chain (hchain : (s :: rest).IsChain IsNextArrangement) : (s :: rest).Pairwise (· < ·) :=
  isChain_iff_pairwise.mp (hchain.imp fun _ _ h => h.lt)

theorem perm_of_mem_chain (hchain : (s :: rest).IsChain IsNextArrangement) (ht : t ∈ s :: rest) :
    t.Perm s := by
  induction rest generalizing s with
  | nil => rw [mem_singleton.mp ht]
  | cons s' rest ih =>
    obtain ⟨hnext, hchain⟩ := isChain_cons_cons.mp hchain
    rcases mem_cons.mp ht with rfl | ht
    · rfl
    · exact (ih hchain ht).trans hnext.perm

/-- A chain up to the greatest arrangement leaves none out. -/
theorem mem_chain_of_le (hchain : (s :: rest).IsChain IsNextArrangement)
    (hlast : IsGreatestArrangement ((s :: rest).getLast (cons_ne_nil s rest))) (hperm : t.Perm s)
    (hle : s ≤ t) : t ∈ s :: rest := by
  induction rest generalizing s with
  | nil => exact mem_singleton.mpr (le_antisymm (hlast t hperm) hle)
  | cons s' rest ih =>
    obtain ⟨hnext, hchain⟩ := isChain_cons_cons.mp hchain
    rcases hle.lt_or_eq with hlt | rfl
    · rw [getLast_cons (cons_ne_nil s' rest)] at hlast
      exact mem_cons_of_mem s (ih hchain hlast (hperm.trans hnext.perm.symm) (hnext.le t hperm hlt))
    · exact mem_cons_self

/-- A chain is no longer than there are arrangements. -/
theorem length_chain_le (hchain : (s :: rest).IsChain IsNextArrangement) :
    (s :: rest).length ≤ s.length.factorial := by
  have hnodup : (s :: rest).Nodup := (pairwise_of_chain hchain).imp ne_of_lt
  have hsubset : s :: rest ⊆ s.permutations :=
    fun t ht => mem_permutations.mpr (perm_of_mem_chain hchain ht)
  rw [← length_permutations]
  exact (subperm_of_subset hnodup hsubset).length_le

end NsuLabs.Lib
