/-
Module: NsuLabs.QuickSort.QuickSort
Purpose: `partition` and `quickSort` in `C-Labs/Quick_sort/src/main.c`, and that they sort. The recursion
  takes fuel for its depth, and the loops for their passes. `none` is an access outside the array, or the end
  of the fuel.
Trusted boundary: The indices are exact: `start + end` does not overflow
Main exports: quickSort, quickSort_sorts
-/
import NsuLabs.Lib.Arrays

namespace NsuLabs.QuickSort

open Lib

/-- `while (arr[lo] < pivot) ++lo;` -/
def scanUp (arr : List Int) (pivot : Int) : (fuel : Nat) → (lo : Int) → Option Int
  | 0, _ => none
  | fuel + 1, lo => (load arr lo).bind fun x => if x < pivot then scanUp arr pivot fuel (lo + 1) else some lo

/-- `while (arr[hi] > pivot) --hi;` -/
def scanDown (arr : List Int) (pivot : Int) : (fuel : Nat) → (hi : Int) → Option Int
  | 0, _ => none
  | fuel + 1, hi => (load arr hi).bind fun x => if x > pivot then scanDown arr pivot fuel (hi - 1)
    else some hi

/-- The outer loop of `partition`: the index that it returns, and the array. -/
def partitionLoop (pivot : Int) : (fuel : Nat) → (arr : List Int) → (lo hi : Int) → Option (Int × List Int)
  | 0, _, _, _ => none
  | fuel + 1, arr, lo, hi =>
    if lo ≤ hi then do
      let lo ← scanUp arr pivot (arr.length + 1) lo
      let hi ← scanDown arr pivot (arr.length + 1) hi
      if lo ≥ hi then some (hi, arr)
      else (swapAt arr lo hi).bind fun arr => partitionLoop pivot fuel arr (lo + 1) (hi - 1)
    else some (hi, arr)

def partition (arr : List Int) (start last : Int) : Option (Int × List Int) :=
  (load arr ((start + last).tdiv 2)).bind fun pivot => partitionLoop pivot (arr.length + 1) arr start last

def quickSort : (fuel : Nat) → (arr : List Int) → (start last : Int) → Option (List Int)
  | 0, _, _, _ => none
  | fuel + 1, arr, start, last =>
    if start ≥ last then some arr
    else do
      let (dividerIndex, arr) ← partition arr start last
      let arr ← quickSort fuel arr start dividerIndex
      quickSort fuel arr (dividerIndex + 1) last

open List Option

variable {arr arr' arr'' : List Int} {pivot start last lo hi : Int}

/-! ### Elements by their index -/

/-- What `load` reads inside of the array. -/
def item (arr : List Int) (i : Int) : Int := (load arr i).getD 0

theorem load_eq_item {i : Int} (h : 0 ≤ i) (hi : i < arr.length) : load arr i = some (item arr i) := by
  rw [item, load, if_pos h, getElem?_eq_getElem (by omega)]
  rfl

theorem swapAt_spec {i j : Int} (hi : 0 ≤ i) (hi' : i < arr.length) (hj : 0 ≤ j) (hj' : j < arr.length) :
    ∃ arr', swapAt arr i j = some arr' ∧ arr'.Perm arr ∧
      ∀ k, item arr' k = if k = i then item arr j else if k = j then item arr i else item arr k := by
  lift i to Nat using hi
  lift j to Nat using hj
  obtain ⟨arr', hswap, hperm, hget⟩ := @swapAt_natCast Int arr i j (by omega) (by omega)
  refine ⟨arr', hswap, hperm, fun k => ?_⟩
  by_cases hk : 0 ≤ k
  · lift k to Nat using hk
    simp only [item, load_natCast, hget, Equiv.swap_apply_def, Int.natCast_inj]
    split_ifs <;> rfl
  · rw [if_neg (by omega), if_neg (by omega), item, item, load, load, if_neg hk, if_neg hk]

/-- Between two arrays only elements from `start` to `last` were moved, and among themselves. -/
structure Within (start last : Int) (arr arr' : List Int) : Prop where
  perm : arr'.Perm arr
  outside : ∀ i, i < start ∨ last < i → item arr' i = item arr i
  inside : ∀ i, start ≤ i → i ≤ last → ∃ j, start ≤ j ∧ j ≤ last ∧ item arr' i = item arr j

namespace Within

theorem refl (start last : Int) (arr : List Int) : Within start last arr arr :=
  ⟨.refl _, fun _ _ => rfl, fun i hi hi' => ⟨i, hi, hi', rfl⟩⟩

theorem trans (h : Within start last arr arr') (h' : Within start last arr' arr'') :
    Within start last arr arr'' where
  perm := h'.perm.trans h.perm
  outside := fun i hi => (h'.outside i hi).trans (h.outside i hi)
  inside := by
    intro i hi hi'
    obtain ⟨j, hj, hj', heq⟩ := h'.inside i hi hi'
    obtain ⟨k, hk, hk', heq'⟩ := h.inside j hj hj'
    exact ⟨k, hk, hk', heq.trans heq'⟩

/-- What stays within a part stays within the whole. -/
theorem mono {start' last' : Int} (h : Within start' last' arr arr') (hstart : start ≤ start')
    (hlast : last' ≤ last) : Within start last arr arr' where
  perm := h.perm
  outside := fun i hi => h.outside i (by omega)
  inside := by
    intro i hi hi'
    by_cases hpart : start' ≤ i ∧ i ≤ last'
    · obtain ⟨j, hj, hj', heq⟩ := h.inside i hpart.1 hpart.2
      exact ⟨j, by omega, by omega, heq⟩
    · exact ⟨i, hi, hi', h.outside i (by omega)⟩

theorem length_eq (h : Within start last arr arr') : arr'.length = arr.length := h.perm.length_eq

theorem forall_inside (h : Within start last arr arr') {p : Int → Prop}
    (hp : ∀ i, start ≤ i → i ≤ last → p (item arr i)) : ∀ i, start ≤ i → i ≤ last → p (item arr' i) := by
  intro i hi hi'
  obtain ⟨j, hj, hj', heq⟩ := h.inside i hi hi'
  exact heq ▸ hp j hj hj'

end Within

/-! ### The scans -/

/-- The first scan stops at the latest at `s`. -/
theorem scanUp_spec {s : Int} (hs : s < arr.length) (hstop : pivot ≤ item arr s) (fuel : Nat) :
    ∀ lo : Int, 0 ≤ lo → lo ≤ s → s - lo < fuel → ∃ lo', scanUp arr pivot fuel lo = some lo' ∧
      lo ≤ lo' ∧ lo' ≤ s ∧ pivot ≤ item arr lo' ∧ ∀ i, lo ≤ i → i < lo' → item arr i < pivot := by
  induction fuel with
  | zero => omega
  | succ fuel ih =>
    intro lo h0 hle hfuel
    rw [scanUp, load_eq_item h0 (by omega), bind_some]
    split_ifs with hlt
    · have hne : lo ≠ s := by
        rintro rfl
        omega
      obtain ⟨lo', hscan, hlo, hlo', hpivot, hpassed⟩ := ih (lo + 1) (by omega) (by omega) (by omega)
      refine ⟨lo', hscan, by omega, hlo', hpivot, fun i hi hi' => ?_⟩
      rcases Int.lt_or_eq_of_le hi with hi | rfl
      · exact hpassed i hi hi'
      · exact hlt
    · exact ⟨lo, rfl, le_rfl, hle, by omega, fun i hi hi' => by omega⟩

/-- The second scan stops at the latest at `s`. -/
theorem scanDown_spec {s : Int} (hs : 0 ≤ s) (hstop : item arr s ≤ pivot) (fuel : Nat) :
    ∀ hi : Int, hi < arr.length → s ≤ hi → hi - s < fuel →
      ∃ hi', scanDown arr pivot fuel hi = some hi' ∧ hi' ≤ hi ∧
      s ≤ hi' ∧ item arr hi' ≤ pivot ∧ ∀ i, hi' < i → i ≤ hi → pivot < item arr i := by
  induction fuel with
  | zero => omega
  | succ fuel ih =>
    intro hi h0 hle hfuel
    rw [scanDown, load_eq_item (by omega) h0, bind_some]
    split_ifs with hlt
    · have hne : s ≠ hi := by
        rintro rfl
        omega
      obtain ⟨hi', hscan, hhi, hhi', hpivot, hpassed⟩ := ih (hi - 1) (by omega) (by omega) (by omega)
      refine ⟨hi', hscan, by omega, hhi', hpivot, fun i hi₁ hi₂ => ?_⟩
      rcases Int.lt_or_eq_of_le hi₂ with hi₂ | rfl
      · exact hpassed i hi₁ (by omega)
      · exact hlt
    · exact ⟨hi, rfl, le_rfl, hle, by omega, fun i hi₁ hi₂ => by omega⟩

/-! ### The division -/

/-- The loop of `partition`: what is in front of `lo` is at most the pivot, what is behind `hi` is
    at least the pivot. Elements there stop the scans, or in the first pass the pivot, which is not
    the last element. -/
structure Parting (pivot start last : Int) (arr : List Int) (lo hi : Int) : Prop where
  low : ∀ i, start ≤ i → i < lo → item arr i ≤ pivot
  high : ∀ i, hi < i → i ≤ last → pivot ≤ item arr i
  bounds : 0 ≤ start ∧ start ≤ lo ∧ lo ≤ hi + 1 ∧ hi ≤ last ∧ last < arr.length
  stop : (start < lo ∧ hi < last) ∨ (lo = start ∧ hi = last ∧ ∃ m, start ≤ m ∧ m < last ∧ item arr m = pivot)

/-- The segment is divided behind `d`. -/
structure Divided (pivot start last : Int) (arr : List Int) (d : Int) : Prop where
  bounds : start ≤ d ∧ d < last
  low : ∀ i, start ≤ i → i ≤ d → item arr i ≤ pivot
  high : ∀ i, d < i → i ≤ last → pivot ≤ item arr i

theorem partitionLoop_spec (fuel : Nat) :
    ∀ (arr : List Int) (lo hi : Int), Parting pivot start last arr lo hi →
    hi - lo + 1 < fuel → ∃ d arr', partitionLoop pivot fuel arr lo hi = some (d, arr') ∧
      Within start last arr arr' ∧ Divided pivot start last arr' d := by
  induction fuel with
  | zero =>
    intro arr lo hi h hfuel
    have := h.bounds
    omega
  | succ fuel ih =>
    intro arr lo hi h hfuel
    obtain ⟨hlow, hhigh, ⟨h0, hstart, hmet, hlast, hlength⟩, hstop⟩ := h
    rw [partitionLoop]
    by_cases hle : lo ≤ hi
    · -- where the scans stop at the latest
      obtain ⟨s, hs, hpivot⟩ : ∃ s, (lo ≤ s ∧ s ≤ last ∧ (lo = start → s < last)) ∧ pivot ≤ item arr s := by
        rcases hstop with ⟨hlt, hlt'⟩ | ⟨rfl, rfl, m, hm, hm', rfl⟩
        · exact ⟨hi + 1, by omega, hhigh _ (by omega) (by omega)⟩
        · exact ⟨m, by omega, le_rfl⟩
      obtain ⟨s', hs', hpivot'⟩ : ∃ s', (start ≤ s' ∧ s' ≤ hi) ∧ item arr s' ≤ pivot := by
        rcases hstop with ⟨hlt, hlt'⟩ | ⟨rfl, rfl, m, hm, hm', rfl⟩
        · exact ⟨lo - 1, by omega, hlow _ (by omega) (by omega)⟩
        · exact ⟨m, by omega, le_rfl⟩
      obtain ⟨lo', hup, hlo, hlo', hitem, hpassed⟩ :=
        scanUp_spec (by omega) hpivot (arr.length + 1) lo (by omega) hs.1 (by omega)
      obtain ⟨hi', hdown, hhi, hhi', hitem', hpassed'⟩ :=
        scanDown_spec (by omega) hpivot' (arr.length + 1) hi (by omega) hs'.2 (by omega)
      have hlow' : ∀ i, start ≤ i → i < lo' → item arr i ≤ pivot := by
        intro i hi hi'
        by_cases hi : i < lo
        · exact hlow i (by omega) hi
        · exact (hpassed i (by omega) hi').le
      have hhigh' : ∀ i, hi' < i → i ≤ last → pivot ≤ item arr i := by
        intro i hi₁ hi₂
        by_cases hi₃ : hi < i
        · exact hhigh i hi₃ hi₂
        · exact (hpassed' i hi₁ (by omega)).le
      simp only [if_pos hle, hup, hdown, bind_eq_bind, bind_some]
      split_ifs with hcross
      · refine ⟨hi', arr, rfl, .refl .., by omega, fun i hi₁ hi₂ => ?_, hhigh'⟩
        by_cases hlt : i < lo'
        · exact hlow' i hi₁ hlt
        · rwa [(by omega : i = hi')]
      · obtain ⟨arr₁, hswap, hperm, hitems⟩ := @swapAt_spec arr lo' hi' (by omega) (by omega) (by omega)
          (by omega)
        have hwithin : Within start last arr arr₁ := by
          refine ⟨hperm, fun i hi => ?_, fun i hi₁ hi₂ => ?_⟩
          · rw [hitems, if_neg (by omega), if_neg (by omega)]
          · rw [hitems]
            split_ifs
            · exact ⟨hi', by omega, by omega, rfl⟩
            · exact ⟨lo', by omega, by omega, rfl⟩
            · exact ⟨i, hi₁, hi₂, rfl⟩
        have hnext : Parting pivot start last arr₁ (lo' + 1) (hi' - 1) := by
          refine ⟨fun i hi₁ hi₂ => ?_, fun i hi₁ hi₂ => ?_, ⟨h0, by omega, by omega, by omega, ?_⟩,
            .inl (by omega)⟩
          · rw [hitems]
            split_ifs
            · exact hitem'
            · omega
            · exact hlow' i hi₁ (by omega)
          · rw [hitems]
            split_ifs
            · omega
            · exact hitem
            · exact hhigh' i (by omega) hi₂
          · rwa [hwithin.length_eq]
        obtain ⟨d, arr', hrun, hwithin', hdivided⟩ := ih arr₁ (lo' + 1) (hi' - 1) hnext (by omega)
        rw [hswap, bind_some]
        exact ⟨d, arr', hrun, hwithin.trans hwithin', hdivided⟩
    · -- one pass at least was made
      have hseen : start < lo ∧ hi < last := hstop.resolve_right fun hfirst => by
        have := hfirst.1
        omega
      rw [if_neg hle]
      exact ⟨hi, arr, rfl, .refl .., by omega, fun i hi hi' => hlow i hi (by omega), hhigh⟩

theorem partition_divides (h0 : 0 ≤ start) (hlt : start < last) (hlast : last < arr.length) :
    ∃ d arr' pivot, partition arr start last = some (d, arr') ∧ Within start last arr arr' ∧
      Divided pivot start last arr' d := by
  have hmiddle : start ≤ (start + last).tdiv 2 ∧ (start + last).tdiv 2 < last := by
    rw [Int.tdiv_eq_ediv_of_nonneg (by omega)]
    omega
  rw [partition, load_eq_item (by omega) (by omega), bind_some]
  have hparting : Parting (item arr ((start + last).tdiv 2)) start last arr start last :=
    ⟨by omega, by omega, by omega, .inr ⟨rfl, rfl, _, hmiddle.1, hmiddle.2, rfl⟩⟩
  obtain ⟨d, arr', hrun, hwithin, hdivided⟩ :=
    partitionLoop_spec (arr.length + 1) arr start last hparting (by omega)
  exact ⟨d, arr', _, hrun, hwithin, hdivided⟩

/-! ### The recursion -/

theorem quickSort_segment (fuel : Nat) : ∀ (arr : List Int) (start last : Int), 0 ≤ start →
    last < arr.length →
    last - start + 1 < fuel → 0 < fuel → ∃ arr', quickSort fuel arr start last = some arr' ∧
      Within start last arr arr' ∧ ∀ i j, start ≤ i → i ≤ j → j ≤ last → item arr' i ≤ item arr' j := by
  induction fuel with
  | zero => omega
  | succ fuel ih =>
    intro arr start last h0 hlast hfuel _
    rw [quickSort]
    split_ifs with hshort
    · refine ⟨arr, rfl, .refl .., fun i j hi hij hj => ?_⟩
      rw [(by omega : i = j)]
    · obtain ⟨d, arr₁, pivot, hrun, hwithin, hbounds, hlow, hhigh⟩ :=
        partition_divides h0 (not_le.mp hshort) hlast
      have hlength := hwithin.length_eq
      obtain ⟨arr₂, hleft, hwithin₂, hsorted₂⟩ := ih arr₁ start d h0 (by omega) (by omega) (by omega)
      have hlength₂ := hwithin₂.length_eq
      obtain ⟨arr₃, hright, hwithin₃, hsorted₃⟩ :=
        ih arr₂ (d + 1) last (by omega) (by omega) (by omega) (by omega)
      have hlow₂ := hwithin₂.forall_inside (p := (· ≤ pivot)) hlow
      have hhigh₃ := hwithin₃.forall_inside (p := (pivot ≤ ·)) fun i hi hi' => by
        rw [hwithin₂.outside i (by omega)]
        exact hhigh i (by omega) hi'
      refine ⟨arr₃, by simp only [hrun, hleft, bind_eq_bind, bind_some, hright],
        hwithin.trans ((hwithin₂.mono le_rfl (by omega)).trans (hwithin₃.mono (by omega) le_rfl)),
        fun i j hi hij hj => ?_⟩
      -- both in the first part, both in the second, or the pivot between them
      by_cases hjd : j ≤ d
      · rw [hwithin₃.outside i (by omega), hwithin₃.outside j (by omega)]
        exact hsorted₂ i j hi hij hjd
      · by_cases hid : i ≤ d
        · rw [hwithin₃.outside i (by omega)]
          exact (hlow₂ i hi hid).trans (hhigh₃ j (by omega) hj)
        · exact hsorted₃ i j (by omega) hij hj

theorem pairwise_of_item (h : ∀ i j, 0 ≤ i → i ≤ j → j ≤ (arr.length : Int) - 1 → item arr i ≤ item arr j) :
    arr.Pairwise (· ≤ ·) := by
  refine pairwise_iff_getElem.mpr fun i j hi hj hij => ?_
  have hitem := h i j (by omega) (by omega) (by omega)
  simpa [item, load_natCast, getElem?_eq_getElem hi, getElem?_eq_getElem hj] using hitem

/-- The array is sorted for every fuel that is greater than its length, and `partition` divides
    every segment. -/
theorem quickSort_sorts (arr : List Int) :
    (∃ sorted, (∀ fuel > arr.length, quickSort fuel arr 0 (arr.length - 1) = some sorted) ∧ sorted.Perm arr ∧
      sorted.Pairwise (· ≤ ·)) ∧
      ∀ start last : Int, 0 ≤ start → start < last → last < arr.length →
        ∃ d arr', partition arr start last = some (d, arr') ∧ arr'.Perm arr ∧ start ≤ d ∧ d < last ∧
          ∀ i j, start ≤ i → i ≤ d → d < j → j ≤ last →
            ∀ x y, load arr' i = some x → load arr' j = some y → x ≤ y := by
  constructor
  · have hsorts : ∀ fuel > arr.length, ∃ sorted, quickSort fuel arr 0 (arr.length - 1) = some sorted ∧
        sorted.Perm arr ∧ sorted.Pairwise (· ≤ ·) := by
      intro fuel hfuel
      obtain ⟨sorted, hrun, hwithin, hsorted⟩ :=
        quickSort_segment fuel arr 0 (arr.length - 1) le_rfl (by omega) (by omega) (by omega)
      rw [← hwithin.length_eq] at hsorted
      exact ⟨sorted, hrun, hwithin.perm, pairwise_of_item hsorted⟩
    obtain ⟨sorted, -, hperm, hsorted⟩ := hsorts (arr.length + 1) (Nat.lt_succ_self _)
    refine ⟨sorted, fun fuel hfuel => ?_, hperm, hsorted⟩
    obtain ⟨sorted', hrun, hperm', hsorted'⟩ := hsorts fuel hfuel
    rwa [(hperm'.trans hperm.symm).eq_of_pairwise' hsorted' hsorted] at hrun
  · intro start last h0 hlt hlast
    obtain ⟨d, arr', pivot, hrun, hwithin, hbounds, hlow, hhigh⟩ := partition_divides h0 hlt hlast
    refine ⟨d, arr', hrun, hwithin.perm, hbounds.1, hbounds.2, fun i j hi hid hdj hj x y hx hy => ?_⟩
    have hlength := hwithin.length_eq
    rw [load_eq_item (by omega) (by omega), some_inj] at hx hy
    rw [← hx, ← hy]
    exact (hlow i hi hid).trans (hhigh j hdj hj)

/-- Equal elements around the pivot. -/
theorem quickSort_sorts_six :
    (∃ sorted, (∀ fuel > 6, quickSort fuel [3, 1, 3, 2, 3, 1] 0 5 = some sorted) ∧
      sorted.Perm [3, 1, 3, 2, 3, 1] ∧ sorted.Pairwise (· ≤ ·)) ∧
      ∃ d arr', partition [3, 1, 3, 2, 3, 1] 1 4 = some (d, arr') ∧ 1 ≤ d ∧ d < 4 := by
  obtain ⟨hsorts, hdivides⟩ := quickSort_sorts [3, 1, 3, 2, 3, 1]
  obtain ⟨d, arr', hrun, -, hle, hlt, -⟩ := hdivides 1 4 (by decide) (by decide) (by decide)
  exact ⟨hsorts, d, arr', hrun, hle, hlt⟩

end NsuLabs.QuickSort
