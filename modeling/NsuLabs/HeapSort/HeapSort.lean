/-
Module: NsuLabs.HeapSort.HeapSort
Purpose: `heapify`, `makeHeap` and `heapSort` in `C-Labs/Heap_sort/src/main.c`. The loop of `makeHeap` counts
  in an `int`, to which the size is converted. The recursion takes fuel. `none` is an access outside the
  array, or the end of the fuel.
Trusted boundary: A conversion to `int` keeps the lower 32 bits. An array of `int` has
  at most `2 ^ 61` elements, so that `size_t` has room for the index of a child
Main exports: heapSort, heapSort_sorts_iff
-/
import NsuLabs.Lib.Arrays

namespace NsuLabs.HeapSort

open Lib

/-- `if (child < sz && arr[child] > arr[node]) node = child;` -/
def largerOf (arr : List Int) (sz child node : Nat) : Option Nat :=
  if child < sz then
    arr[child]?.bind fun c => arr[node]?.bind fun x => some (if c > x then child else node)
  else some node

def heapify : (fuel : Nat) → (arr : List Int) → (rootNode sz : Nat) → Option (List Int)
  | 0, _, _, _ => none
  | fuel + 1, arr, rootNode, sz => do
      let lChild := rootNode * 2 + 1
      let rChild := rootNode * 2 + 2
      let largestNode ← largerOf arr sz lChild rootNode
      let largestNode ← largerOf arr sz rChild largestNode
      let largest ← arr[largestNode]?
      let root ← arr[rootNode]?
      if largest ≠ root then
        (swapAt arr rootNode largestNode).bind fun arr => heapify fuel arr largestNode sz
      else some arr

/-- The first value of the counter of `makeHeap`. -/
def lastParent (sz : Nat) : Int := ((sz / 2 : Nat) - 1 : Int).bmod (2 ^ 32)

def makeHeap (arr : List Int) (sz : Nat) : Option (List Int) :=
  (List.range (lastParent sz + 1).toNat).reverse.foldlM (fun arr i => heapify (arr.length + 1) arr i sz) arr

/-- The loop of `heapSort`. -/
def sortLoop : (sz : Nat) → (arr : List Int) → Option (List Int)
  | 0, arr => some arr
  | sz + 1, arr =>
    (swapAt arr 0 sz).bind fun arr => (heapify (arr.length + 1) arr 0 sz).bind fun arr => sortLoop sz arr

def heapSort (arr : List Int) : Option (List Int) :=
  (makeHeap arr arr.length).bind fun arr => sortLoop arr.length arr

open List hiding swapAt
open Option

/-- The value at a place of the array. -/
def valueAt (arr : List Int) (i : Nat) : Int := arr[i]?.getD 0

variable {arr : List Int} {root sz : Nat}

theorem getElem?_eq_valueAt {i : Nat} (hi : i < arr.length) : arr[i]? = some (valueAt arr i) := by
  rw [valueAt, getElem?_eq_getElem hi, getD_some]

/-! ### heapify -/

theorem largerOf_spec {child node : Nat} (hnode : node < arr.length) (hsz : sz ≤ arr.length) :
    ∃ m, largerOf arr sz child node = some m ∧ valueAt arr node ≤ valueAt arr m ∧
      (child < sz → valueAt arr child ≤ valueAt arr m) ∧
      (m = node ∨ (m = child ∧ child < sz ∧ valueAt arr node < valueAt arr child)) := by
  by_cases hchild : child < sz
  · rw [largerOf, if_pos hchild, getElem?_eq_valueAt (hchild.trans_le hsz),
      getElem?_eq_valueAt hnode, bind_some, bind_some]
    by_cases hlt : valueAt arr child > valueAt arr node
    · rw [if_pos hlt]
      exact ⟨child, rfl, hlt.le, fun _ => le_rfl, .inr ⟨rfl, hchild, hlt⟩⟩
    · rw [if_neg hlt]
      exact ⟨node, rfl, le_rfl, fun _ => not_lt.mp hlt, .inl rfl⟩
  · rw [largerOf, if_neg hchild]
    exact ⟨node, rfl, le_rfl, fun h => absurd h hchild, .inl rfl⟩

/-- One call: the greatest of a place and its children is the place itself, or it is a child that is
    greater. -/
theorem heapify_step (hroot : root < arr.length) (hsz : sz ≤ arr.length) (fuel : Nat) :
    ∃ m, (∀ c, IsChild c root → c < sz → valueAt arr c ≤ valueAt arr m) ∧
      ((m = root ∧ heapify (fuel + 1) arr root sz = some arr) ∨
        (IsChild m root ∧ m < sz ∧ valueAt arr root < valueAt arr m ∧
          heapify (fuel + 1) arr root sz = (swapAt arr root m).bind fun arr => heapify fuel arr m sz)) := by
  obtain ⟨l, hl, hrootl, hlchild, hlcases⟩ := @largerOf_spec arr sz (root * 2 + 1) root hroot hsz
  have hllt : l < arr.length := by
    rcases hlcases with rfl | ⟨rfl, hlt, -⟩
    · exact hroot
    · exact hlt.trans_le hsz
  obtain ⟨m, hm, hlm, hmchild, hmcases⟩ := @largerOf_spec arr sz (root * 2 + 2) l hllt hsz
  have hmlt : m < arr.length := by
    rcases hmcases with rfl | ⟨rfl, hlt, -⟩
    · exact hllt
    · exact hlt.trans_le hsz
  refine ⟨m, fun c hc hlt => ?_, ?_⟩
  · rcases hc with rfl | rfl
    · rw [Nat.mul_comm 2 root] at hlt ⊢
      exact (hlchild hlt).trans hlm
    · rw [Nat.mul_comm 2 root] at hlt ⊢
      exact hmchild hlt
  · -- the values are compared in place of the indices
    have hrun : heapify (fuel + 1) arr root sz = if valueAt arr m ≠ valueAt arr root then
        (swapAt arr root m).bind fun arr => heapify fuel arr m sz else some arr := by
      simp only [heapify, hl, hm, getElem?_eq_valueAt hmlt, getElem?_eq_valueAt hroot, bind_eq_bind,
        bind_some]
    by_cases heq : m = root
    · exact .inl ⟨heq, by rw [hrun, heq, if_neg (not_not.mpr rfl)]⟩
    · have hgreater : valueAt arr root < valueAt arr m ∧ IsChild m root ∧ m < sz := by
        rcases hmcases with rfl | ⟨rfl, hmsz, hlt⟩
        · rcases hlcases with rfl | ⟨rfl, hmsz, hlt⟩
          · exact absurd rfl heq
          · exact ⟨hlt, .inl (by rw [Nat.mul_comm]), hmsz⟩
        · exact ⟨hrootl.trans_lt hlt, .inr (by rw [Nat.mul_comm]), hmsz⟩
      obtain ⟨hlt, hchild, hmsz⟩ := hgreater
      exact .inr ⟨hchild, hmsz, hlt, by rw [hrun, if_pos hlt.ne']⟩

theorem valueAt_swap {arr' : List Int} {i j : Nat} (h : ∀ k, arr'[k]? = arr[Equiv.swap i j k]?) :
    valueAt arr' = valueAt arr ∘ Equiv.swap i j := by
  funext k
  rw [Function.comp_apply, valueAt, valueAt, h]

/-- `heapify` ends, and changes nothing in front of the node or behind the heap. If the node is the
    only one that may be out of order, all nodes are in order afterwards. -/
theorem heapify_spec (fuel : Nat) :
    ∀ {arr : List Int} {root : Nat}, root < arr.length → sz ≤ arr.length → sz - root < fuel →
      ∃ arr', heapify fuel arr root sz = some arr' ∧ arr'.Perm arr ∧
        (∀ i, i < root ∨ sz ≤ i → arr'[i]? = arr[i]?) ∧
        ∀ lo ≤ root, HeapExcept (valueAt arr) lo sz root → HeapFrom (valueAt arr') lo sz := by
  induction fuel with
  | zero => exact fun _ _ h => absurd h (Nat.not_lt_zero _)
  | succ fuel ih =>
    intro arr root hroot hsz hfuel
    obtain ⟨m, hgreatest, ⟨rfl, hrun⟩ | ⟨hchild, hmsz, hlt, hrun⟩⟩ := heapify_step hroot hsz fuel
    · exact ⟨arr, hrun, List.Perm.refl _, fun _ _ => rfl, fun lo _ hexcept => hexcept.finish hgreatest⟩
    · obtain ⟨arr₁, hswap, hperm₁, hget₁⟩ := swapAt_natCast hroot (hmsz.trans_le hsz)
      have hlength := hperm₁.length_eq
      have hdown := hchild.lt
      obtain ⟨arr₂, hrun₂, hperm₂, hkept₂, hheap₂⟩ :=
        ih (hlength ▸ hmsz.trans_le hsz : m < arr₁.length) (hlength ▸ hsz) (by omega)
      refine ⟨arr₂, ?_, hperm₂.trans hperm₁, fun i hi => ?_, fun lo hlo hexcept => ?_⟩
      · rw [hrun, hswap, bind_some, hrun₂]
      · rw [hkept₂ i (by omega), hget₁, Equiv.swap_apply_of_ne_of_ne (by omega) (by omega)]
      · refine hheap₂ lo (by omega) ?_
        rw [valueAt_swap hget₁]
        exact hexcept.sift hlo hchild hmsz hgreatest hlt.le

/-! ### makeHeap -/

theorem foldlM_heapify_spec (k : Nat) :
    ∀ {arr : List Int}, sz ≤ arr.length → k ≤ sz → HeapFrom (valueAt arr) k sz →
      ∃ heap, (List.range k).reverse.foldlM (fun arr i => heapify (arr.length + 1) arr i sz) arr =
        some heap ∧ heap.Perm arr ∧ HeapFrom (valueAt heap) 0 sz := by
  induction k with
  | zero => exact fun {arr} _ _ h => ⟨arr, rfl, List.Perm.refl _, h⟩
  | succ k ih =>
    intro arr hsz hk hheap
    obtain ⟨arr₁, hrun₁, hperm₁, -, hheap₁⟩ :=
      @heapify_spec sz (arr.length + 1) arr k (hk.trans hsz) hsz (by omega)
    obtain ⟨heap, hrun, hperm, hheap'⟩ :=
      ih (hperm₁.length_eq ▸ hsz) (Nat.le_of_succ_le hk) (hheap₁ k le_rfl hheap.except)
    refine ⟨heap, ?_, hperm.trans hperm₁, hheap'⟩
    rw [range_succ, reverse_append, reverse_singleton, singleton_append, foldlM_cons, hrun₁]
    exact hrun

theorem lastParent_eq (hsz : sz < 2 ^ 32 + 2) : (lastParent sz + 1).toNat = sz / 2 := by
  unfold lastParent
  simp only [Int.bmod_def, Nat.reducePow, Nat.cast_ofNat, Int.reduceAdd, Int.reduceDiv]
  omega

/-- `makeHeap` permutes the array into a heap. -/
theorem makeHeap_spec (hsz : sz < 2 ^ 32 + 2) (hlength : arr.length = sz) :
    ∃ heap, makeHeap arr sz = some heap ∧ heap.Perm arr ∧ HeapFrom (valueAt heap) 0 sz := by
  rw [makeHeap, lastParent_eq hsz]
  exact foldlM_heapify_spec (sz / 2) hlength.ge (Nat.div_le_self sz 2) (heapFrom_of_half_le le_rfl)

/-! ### heapSort -/

/-- One pass of the loop: the root goes right behind the smaller heap, and what is behind it stays. -/
theorem round_spec {first : Int} {rest : List Int} (hlt : sz < (first :: rest).length) :
    ∃ arr₁ arr₂, swapAt (first :: rest) 0 sz = some arr₁ ∧ heapify (arr₁.length + 1) arr₁ 0 sz = some arr₂ ∧
      arr₂.Perm (first :: rest) ∧ arr₂.drop sz = first :: rest.drop sz ∧
      (HeapFrom (valueAt (first :: rest)) 0 (sz + 1) → HeapFrom (valueAt arr₂) 0 sz) ∧
      ∀ i, sz ≤ i → arr₂[i]? = arr₁[i]? := by
  obtain ⟨arr₁, hswap, hperm₁, hget₁⟩ := swapAt_natCast (Nat.zero_lt_of_lt hlt) hlt
  have hlength := hperm₁.length_eq
  obtain ⟨arr₂, hrun, hperm₂, hkept, hheap⟩ := @heapify_spec sz (arr₁.length + 1) arr₁ 0
    (hlength ▸ Nat.zero_lt_of_lt hlt) (hlength ▸ hlt.le) (by omega)
  refine ⟨arr₁, arr₂, hswap, hrun, hperm₂.trans hperm₁, ext_getElem? fun k => ?_, fun hfrom => ?_,
    fun i hi => hkept i (.inr hi)⟩
  · rw [getElem?_drop, hkept _ (.inr (Nat.le_add_right _ _)), hget₁]
    cases k with
    | zero => rw [Nat.add_zero, Equiv.swap_apply_right, getElem?_cons_zero, getElem?_cons_zero]
    | succ k =>
      rw [Equiv.swap_apply_of_ne_of_ne (by omega) (by omega), ← Nat.add_assoc, getElem?_cons_succ,
        getElem?_cons_succ, getElem?_drop]
  · refine hheap 0 le_rfl ?_
    rw [valueAt_swap hget₁]
    exact hfrom.swap_root

/-- The loop ends, and changes nothing behind the heap. A heap in front of a sorted list that is not
    less becomes a sorted list. -/
theorem sortLoop_spec (sz : Nat) :
    ∀ {arr : List Int}, sz ≤ arr.length →
      ∃ sorted, sortLoop sz arr = some sorted ∧ sorted.Perm arr ∧ sorted.drop sz = arr.drop sz ∧
        (HeapFrom (valueAt arr) 0 sz → (arr.drop sz).Pairwise (· ≤ ·) →
          (∀ x ∈ arr.take sz, ∀ y ∈ arr.drop sz, x ≤ y) → sorted.Pairwise (· ≤ ·)) := by
  induction sz with
  | zero => exact fun {arr} _ => ⟨arr, rfl, List.Perm.refl _, rfl, fun _ hsorted _ => hsorted⟩
  | succ sz ih =>
    intro arr hsz
    obtain ⟨first, rest, rfl⟩ := exists_cons_of_length_pos (Nat.zero_lt_of_lt hsz)
    obtain ⟨arr₁, arr₂, hswap, hrun, hperm₂, hdrop₂, hheap₂, -⟩ := round_spec hsz
    obtain ⟨sorted, hloop, hperm, hdrop, hsorted⟩ := @ih arr₂ (hperm₂.length_eq ▸ Nat.le_of_succ_le hsz)
    refine ⟨sorted, ?_, hperm.trans hperm₂, ?_, fun hfrom hbehind hle => ?_⟩
    · rw [sortLoop]
      simp only [hswap, hrun, bind_some, hloop]
    · rw [← drop_drop, hdrop, hdrop₂]
      rfl
    · -- what is left of the heap was in it before, and is not greater than the root
      have hfront : ∀ x ∈ arr₂.take sz, x ∈ (first :: rest).take (sz + 1) := by
        intro x hx
        rw [← take_append_drop sz arr₂, hdrop₂] at hperm₂
        have hcancel := (perm_cons first).mp (perm_middle.symm.trans hperm₂)
        rw [← take_append_drop sz rest, drop_left' (length_take_of_le (Nat.le_of_succ_le_succ hsz)),
          perm_append_right_iff] at hcancel
        exact mem_cons_of_mem first (hcancel.mem_iff.mp hx)
      have hroot : ∀ x ∈ (first :: rest).take (sz + 1), x ≤ first := by
        intro x hx
        obtain ⟨k, hk, rfl⟩ := mem_take_iff_getElem.mp hx
        have hle := hfrom.le_root k (by omega)
        rwa [valueAt, getElem?_eq_getElem (by omega)] at hle
      rw [drop_succ_cons] at hbehind hle
      refine hsorted (hheap₂ hfrom) ?_ ?_
      · rw [hdrop₂]
        exact pairwise_cons.mpr ⟨hle first (by simp), hbehind⟩
      · intro x hx y hy
        rw [hdrop₂] at hy
        rcases mem_cons.mp hy with rfl | hy
        · exact hroot x (hfront x hx)
        · exact hle x (hfront x hx) y hy

/-! ### Which lengths are sorted -/

/-- What `heapSort` does to the arrays of length `n`. -/
structure HeapSorts (n : Nat) : Prop where
  makesHeap : ∀ arr, arr.length = n →
    ∃ heap, makeHeap arr n = some heap ∧ heap.Perm arr ∧ HeapFrom (valueAt heap) 0 n
  restores : ∀ heap sz, heap.length = n → sz < n → HeapFrom (valueAt heap) 0 (sz + 1) →
    ∃ swapped heap', swapAt heap 0 sz = some swapped ∧ heapify (swapped.length + 1) swapped 0 sz =
      some heap' ∧ HeapFrom (valueAt heap') 0 sz ∧ ∀ i, sz ≤ i → heap'[i]? = swapped[i]?
  sorts : ∀ arr, arr.length = n →
    ∃ sorted, heapSort arr = some sorted ∧ sorted.Perm arr ∧ sorted.Pairwise (· ≤ ·)

theorem heapSorts_of_lt {n : Nat} (hn : n < 2 ^ 32 + 2) : HeapSorts n where
  makesHeap := fun _ hlength => makeHeap_spec hn hlength
  restores := by
    intro heap sz hlength hsz hfrom
    obtain ⟨first, rest, rfl⟩ := exists_cons_of_length_pos (hlength ▸ Nat.zero_lt_of_lt hsz)
    obtain ⟨arr₁, arr₂, hswap, hrun, -, -, hheap, hkept⟩ := round_spec (hlength ▸ hsz)
    exact ⟨arr₁, arr₂, hswap, hrun, hheap hfrom, hkept⟩
  sorts := by
    intro arr hlength
    obtain ⟨heap, hmake, hperm, hheap⟩ := makeHeap_spec hn hlength
    have hlength' : heap.length = n := hperm.length_eq.trans hlength
    obtain ⟨sorted, hloop, hperm', -, hsorted⟩ := sortLoop_spec heap.length (le_refl heap.length)
    refine ⟨sorted, ?_, hperm'.trans hperm, hsorted (hlength' ▸ hheap) ?_ ?_⟩
    · rw [heapSort, hlength, hmake, bind_some, hloop]
    · rw [drop_length]
      exact List.Pairwise.nil
    · intro x _ y hy
      rw [drop_length] at hy
      exact absurd hy not_mem_nil

/-- Nothing is exchanged where a node and its children are equal. -/
theorem heapify_of_equal (hroot : root < arr.length) (hsz : sz ≤ arr.length)
    (hequal : ∀ c, IsChild c root → c < sz → valueAt arr c = valueAt arr root) (fuel : Nat) :
    heapify (fuel + 1) arr root sz = some arr := by
  obtain ⟨m, -, ⟨-, hrun⟩ | ⟨hchild, hmsz, hlt, -⟩⟩ := heapify_step hroot hsz fuel
  · exact hrun
  · exact absurd (hequal m hchild hmsz) hlt.ne'

/-- An array whose greatest element is the last one. -/
def lastGreatest (m : Nat) : List Int := List.replicate m 0 ++ [1]

theorem valueAt_lastGreatest {m i : Nat} (hi : i < m) : valueAt (lastGreatest m) i = 0 := by
  rw [valueAt, lastGreatest, getElem?_append_left (by rwa [length_replicate]),
    getElem?_replicate_of_lt hi, getD_some]

theorem length_lastGreatest (m : Nat) : (lastGreatest m).length = m + 1 := by
  rw [lastGreatest, length_append, length_replicate, length_singleton]

/-- The parent of the last element is beyond the counter, and no other node finds anything to
    exchange. -/
theorem makeHeap_lastGreatest {m : Nat} (hm : 2 ^ 32 + 1 ≤ m) :
    makeHeap (lastGreatest m) (m + 1) = some (lastGreatest m) := by
  have hcounter : (lastParent (m + 1) + 1).toNat ≤ 2 ^ 31 := by
    unfold lastParent
    simp only [Int.bmod_def, Nat.reducePow, Nat.cast_ofNat, Int.reduceAdd, Int.reduceDiv]
    omega
  have hnode : ∀ i < 2 ^ 31, heapify ((lastGreatest m).length + 1) (lastGreatest m) i (m + 1) =
      some (lastGreatest m) := by
    intro i hi
    refine heapify_of_equal (by rw [length_lastGreatest]; omega) (length_lastGreatest m).ge
      (fun c hc hlt => ?_) _
    rw [IsChild] at hc
    rw [valueAt_lastGreatest (by omega), valueAt_lastGreatest (by omega)]
  rw [makeHeap]
  generalize (lastParent (m + 1) + 1).toNat = k at hcounter
  induction k with
  | zero => rfl
  | succ k ih =>
    rw [range_succ, reverse_append, reverse_singleton, singleton_append, foldlM_cons,
      hnode k (by omega)]
    exact ih (by omega)

theorem heapSort_lastGreatest {m : Nat} (hm : 2 ^ 32 + 1 ≤ m) :
    ¬ ∃ sorted, heapSort (lastGreatest m) = some sorted ∧ sorted.Pairwise (· ≤ ·) := by
  rintro ⟨sorted, hrun, hsorted⟩
  rw [heapSort, length_lastGreatest, makeHeap_lastGreatest hm, bind_some, length_lastGreatest] at hrun
  obtain ⟨k, rfl⟩ : ∃ k, m = k + 1 := ⟨m - 1, by omega⟩
  have hlength := length_lastGreatest k
  have hcons : lastGreatest (k + 1) = 0 :: lastGreatest k := by
    rw [lastGreatest, replicate_succ, cons_append, lastGreatest]
  rw [hcons] at hrun
  -- the first pass puts a zero to the end, and it stays there
  obtain ⟨arr₁, arr₂, hswap, hheapify, hperm₂, hdrop₂, -⟩ :=
    @round_spec (k + 1) 0 (lastGreatest k) (by rw [length_cons, hlength]; omega)
  obtain ⟨sorted', hloop, hperm, hdrop, -⟩ :=
    @sortLoop_spec (k + 1) arr₂ (by rw [hperm₂.length_eq, length_cons, hlength]; omega)
  rw [sortLoop] at hrun
  simp only [hswap, hheapify, bind_some, hloop] at hrun
  obtain rfl := some.inj hrun
  rw [hdrop₂, drop_eq_nil_of_le hlength.le] at hdrop
  have hone : (1 : Int) ∈ sorted' := by
    refine (hperm.trans hperm₂).mem_iff.mpr (mem_cons_of_mem 0 ?_)
    rw [lastGreatest]
    exact mem_append_right _ mem_cons_self
  rw [← take_append_drop (k + 1) sorted', hdrop] at hone hsorted
  obtain ⟨-, -, hle⟩ := pairwise_append.mp hsorted
  rcases mem_append.mp hone with hone | hone
  · exact absurd (hle 1 hone 0 mem_cons_self) (by decide)
  · exact absurd (mem_singleton.mp hone) (by decide)

/-- Exactly the arrays with fewer than `2 ^ 32 + 2` elements are all sorted. -/
theorem heapSort_sorts_iff (n : Nat) : HeapSorts n ↔ n < 2 ^ 32 + 2 := by
  refine ⟨fun h => ?_, heapSorts_of_lt⟩
  by_contra hn
  obtain ⟨m, rfl⟩ : ∃ m, n = m + 1 := ⟨n - 1, by omega⟩
  obtain ⟨sorted, hrun, -, hsorted⟩ := h.sorts (lastGreatest m) (length_lastGreatest m)
  exact heapSort_lastGreatest (by omega) ⟨sorted, hrun, hsorted⟩

/-- With `2 ^ 32 + 2` elements the counter of `makeHeap` starts below zero. -/
theorem heapSort_unsorted :
    ¬ ∃ sorted, heapSort (lastGreatest (2 ^ 32 + 1)) = some sorted ∧ sorted.Pairwise (· ≤ ·) :=
  heapSort_lastGreatest le_rfl

end NsuLabs.HeapSort
