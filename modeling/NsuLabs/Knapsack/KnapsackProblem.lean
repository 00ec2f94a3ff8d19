/-
Module: NsuLabs.Knapsack.KnapsackProblem
Purpose: `C-Labs/Knapsack_problem/src/KnapsackProblem.c`: the cost table, its filling by `GetBestTotalCost`,
  and the way back through it by `CollectIncludedItems`. `int` arithmetic wraps at 32 bits and sizes are
  converted to `size_t`. `none` is an access outside an array, or the exit after a failed allocation.
Trusted boundary: An allocation depends on the number of bytes only, and no more than
  `PTRDIFF_MAX` bytes are ever granted; `calloc` fails where the product of its arguments does not fit in
  `size_t`. `Granted` cannot be met at a capacity or an item count of `INT_MAX`, where one more wraps around
Main exports: knapsackProblem, knapsackProblem_optimal
-/
import NsuLabs.Lib.Arrays
import NsuLabs.Lib.Runs
import NsuLabs.Lib.Selections

namespace NsuLabs.Knapsack

open Lib

/-! ### Machine integers and memory -/

def int32 (n : Int) : Int := n.bmod (2 ^ 32)

/-- The conversion of an `int` to `size_t`. -/
def toSize (n : Int) : Nat := (n % 2 ^ 64).toNat

/-- Which requests for memory, in bytes, are granted. -/
structure Allocator where
  grants : Nat → Bool
  limit : ∀ bytes, grants bytes = true → bytes < 2 ^ 63

/-- Whether `calloc(n, size)` succeeds. -/
def Allocator.callocs (mem : Allocator) (n size : Nat) : Bool :=
  decide (n * size < 2 ^ 64) && mem.grants (n * size)

/-- `AllocateIntMatrix`, with 8 bytes for a pointer and 4 for an `int`. -/
def allocateIntMatrix (mem : Allocator) (n m : Nat) : Option (List (List Int)) :=
  if mem.grants (8 * n % 2 ^ 64) then
    if n = 0 ∨ mem.callocs m 4 then some (List.replicate n (List.replicate m 0)) else none
  else none

/-! ### The table -/

/-- `costTable[step][load]`. -/
def cell (costTable : List (List Int)) (step : Nat) (load : Int) : Option Int :=
  if 0 ≤ load then costTable[step]?.bind fun row => row[load.toNat]? else none

/-- `costTable[step][load] = cost`. -/
def storeCell (costTable : List (List Int)) (step load : Nat) (cost : Int) : Option (List (List Int)) :=
  costTable[step]?.bind fun row => (store row load cost).bind fun row => store costTable step row

/-- `Max`. -/
def maxInt (a b : Int) : Int := if a > b then a else b

def getBestTotalCost (weights prices : List Int) (costTable : List (List Int)) (step load : Nat) :
    Option Int := do
  let w ← weights[step - 1]?
  let p ← prices[step - 1]?
  let leaveItem ← cell costTable (step - 1) load
  if int32 (load - w) ≥ 0 then
    let rest ← cell costTable (step - 1) (int32 (load - w))
    return maxInt leaveItem (int32 (rest + p))
  else return leaveItem

/-- One pass of the inner loop of `KnapsackProblem`. -/
def fillCell (weights prices : List Int) (step : Nat) (costTable : List (List Int)) (load : Nat) :
    Option (List (List Int)) :=
  (getBestTotalCost weights prices costTable step load).bind (storeCell costTable step load)

/-- One pass of its outer loop. -/
def fillRow (weights prices : List Int) (capacity : Int) (costTable : List (List Int)) (step : Nat) :
    Option (List (List Int)) :=
  (List.range (capacity + 1).toNat).foldlM (fillCell weights prices step) costTable

def fillTable (weights prices : List Int) (itemsCount capacity : Int) (costTable : List (List Int)) :
    Option (List (List Int)) :=
  (List.range' 1 itemsCount.toNat).foldlM (fillRow weights prices capacity) costTable

/-! ### The items -/

/-- The best cost and the items that reach it. -/
structure KnapsackAnswer where
  bestTotalCost : Int
  includedItems : List Nat
  includedItemsCount : Nat
deriving DecidableEq

/-- The first loop of `CollectIncludedItems`, with `step` passes to go. -/
def markIncluded (weights : List Int) (costTable : List (List Int)) :
    (step : Nat) → (included : List Bool) → (count : Nat) → (load : Int) → Option (List Bool × Nat)
  | 0, included, count, _ => some (included, count)
  | step + 1, included, count, load => do
      let cost ← cell costTable (step + 1) load
      let costBefore ← cell costTable step load
      if cost = costBefore then
        let included ← store included step false
        markIncluded weights costTable step included count load
      else
        let included ← store included step true
        let w ← weights[step]?
        markIncluded weights costTable step included (count + 1) (int32 (load - w))

/-- One pass of the second loop: `includedItems` and `idx` are the state. -/
def gatherItem (included : List Bool) : List Nat × Nat → (i : Nat) → Option (List Nat × Nat)
  | (includedItems, idx), i =>
    included[i]?.bind fun isIncluded =>
      if isIncluded then (store includedItems idx i).map fun includedItems => (includedItems, idx + 1)
      else some (includedItems, idx)

def collectIncludedItems (mem : Allocator) (weights : List Int) (itemsCount capacity : Int)
    (costTable : List (List Int)) : Option (List Nat × Nat) :=
  if mem.callocs (toSize itemsCount) 1 then
    (markIncluded weights costTable itemsCount.toNat (List.replicate (toSize itemsCount) false) 0
      capacity).bind
      fun (included, count) =>
        if mem.grants (4 * count) then
          ((List.range itemsCount.toNat).foldlM (gatherItem included) (List.replicate count 0, 0)).map
            fun (includedItems, _) => (includedItems, count)
        else none
  else none

/-- `KnapsackAnswer` takes 24 bytes. -/
def knapsackProblem (mem : Allocator) (weights prices : List Int) (itemsCount capacity : Int) :
    Option KnapsackAnswer := do
  let costTable ← allocateIntMatrix mem (toSize (int32 (itemsCount + 1))) (toSize (int32 (capacity + 1)))
  let costTable ← fillTable weights prices itemsCount capacity costTable
  if mem.callocs 1 24 then
    let bestTotalCost ← cell costTable itemsCount.toNat capacity
    let (includedItems, includedItemsCount) ← collectIncludedItems mem weights itemsCount capacity costTable
    return { bestTotalCost, includedItems, includedItemsCount }
  else none

open List Option

variable {costTable : List (List Int)} {step load i n : Nat} {s : Finset ℕ} {included : List Bool}
  {mem : Allocator}

theorem int32_eq {n : Int} (hlow : -2 ^ 31 ≤ n) (hhigh : n < 2 ^ 31) : int32 n = n := by
  unfold int32
  simp only [Int.bmod_def, Nat.reducePow, Nat.cast_ofNat, Int.reduceAdd, Int.reduceDiv]
  split <;> omega

theorem maxInt_eq (a b : Int) : maxInt a b = max a b := by
  rw [maxInt]
  split <;> omega

/-! ### Cells -/

theorem cell_natCast (costTable : List (List Int)) (step load : Nat) :
    cell costTable step load = costTable[step]?.bind fun row => row[load]? := by
  rw [cell, if_pos (Int.natCast_nonneg load), Int.toNat_natCast]

theorem storeCell_spec {old : Int} (h : cell costTable step load = some old) (cost : Int) :
    ∃ costTable', storeCell costTable step load cost = some costTable' ∧
      ∀ j l : Nat, cell costTable' j l = if j = step ∧ l = load then some cost else cell costTable j l := by
  rw [cell_natCast] at h
  obtain ⟨row, hrow, hold⟩ := bind_eq_some_iff.mp h
  obtain ⟨costTable', hstore, hcells⟩ := store_store hrow hold cost
  refine ⟨costTable', ?_, fun j l => ?_⟩
  · rw [storeCell, hrow, bind_some, hstore]
  · rw [cell_natCast, cell_natCast, hcells]

/-! ### The inputs -/

/-- The weight of item `i`. -/
def weightOf (weights : List Int) (i : Nat) : Nat := (weights.getD i 0).toNat

/-- The price of item `i`. -/
def priceOf (prices : List Int) (i : Nat) : Int := prices.getD i 0

/-- The total weight of the items with these indices. -/
def totalWeight (weights : List Int) (s : Finset ℕ) : Int := ∑ i ∈ s, weights.getD i 0

/-- The total price of the items with these indices. -/
def totalPrice (prices : List Int) (s : Finset ℕ) : Int := ∑ i ∈ s, prices.getD i 0

/-- A selection of the items with a total weight of at most the capacity. -/
def Feasible (weights : List Int) (capacity : Int) (s : Finset ℕ) : Prop :=
  s ⊆ Finset.range weights.length ∧ totalWeight weights s ≤ capacity

/-- Weights, a capacity and a number of items that are non-negative `int`s, and prices whose sums do
    not overflow. -/
structure Input (weights prices : List Int) (capacity : Nat) : Prop where
  length_eq : prices.length = weights.length
  length_lt : weights.length < 2 ^ 31
  weights_nonneg : ∀ w ∈ weights, 0 ≤ w
  weights_lt : ∀ w ∈ weights, w < 2 ^ 31
  capacity_lt : capacity < 2 ^ 31
  sums : ∀ s, Feasible weights capacity s → -2 ^ 31 ≤ totalPrice prices s ∧ totalPrice prices s < 2 ^ 31

variable {weights prices : List Int} {capacity : Nat}

/-- What the table holds at `[step][load]` in the end. -/
def bestCost (weights prices : List Int) (step load : Nat) : Int :=
  bestPrice (weightOf weights) (priceOf prices) step load

theorem bestCost_succ (step load : Nat) :
    bestCost weights prices (step + 1) load =
      if weightOf weights step ≤ load then
        max (bestCost weights prices step load)
          (bestCost weights prices step (load - weightOf weights step) + priceOf prices step)
      else bestCost weights prices step load := rfl

namespace Input

theorem weight (hinput : Input weights prices capacity) (hi : i < weights.length) :
    weights[i]? = some (weightOf weights i : Int) ∧ weightOf weights i < 2 ^ 31 := by
  have hmem : weights[i] ∈ weights := getElem_mem hi
  have hnonneg := hinput.weights_nonneg _ hmem
  have hlt := hinput.weights_lt _ hmem
  have heq : weights.getD i 0 = weights[i] := by simp [hi]
  rw [weightOf, heq, getElem?_eq_getElem hi, Int.toNat_of_nonneg hnonneg]
  exact ⟨rfl, by omega⟩

theorem price (hinput : Input weights prices capacity) (hi : i < weights.length) :
    prices[i]? = some (priceOf prices i) := by
  have hi' : i < prices.length := by rw [hinput.length_eq]; exact hi
  simp [priceOf, hi']

theorem feasible_iff (hinput : Input weights prices capacity) :
    Feasible weights capacity s ↔ Fits (weightOf weights) weights.length capacity s := by
  refine and_congr_right fun hs => ?_
  have hsum : totalWeight weights s = ((∑ i ∈ s, weightOf weights i : ℕ) : ℤ) := by
    rw [Nat.cast_sum]
    refine Finset.sum_congr rfl fun i hi => ?_
    rw [getD_eq_getElem?_getD, (hinput.weight (Finset.mem_range.mp (hs hi))).1, getD_some]
  rw [hsum, Nat.cast_le]

/-- A selection of fewer items with more room left. -/
theorem fits (hinput : Input weights prices capacity) {c : Nat} (hn : n ≤ weights.length) (hc : c ≤ capacity)
    (hs : Fits (weightOf weights) n c s) :
    -2 ^ 31 ≤ ∑ i ∈ s, priceOf prices i ∧ ∑ i ∈ s, priceOf prices i < 2 ^ 31 :=
  hinput.sums s (hinput.feasible_iff.mpr ⟨hs.1.trans (Finset.range_mono hn), hs.2.trans hc⟩)

/-- The sum that `GetBestTotalCost` computes is the price of a fitting selection, and does not
    overflow. -/
theorem takeItem (hinput : Input weights prices capacity) (hstep : step < weights.length)
    (hload : load ≤ capacity) (hfits : weightOf weights step ≤ load) :
    int32 (bestCost weights prices step (load - weightOf weights step) + priceOf prices step) =
      bestCost weights prices step (load - weightOf weights step) + priceOf prices step := by
  have hchosen := chosen_fits (weightOf weights) (priceOf prices) step (load - weightOf weights step)
  have hsum := sum_chosen (weightOf weights) (priceOf prices) step (load - weightOf weights step)
  obtain ⟨hlow, hhigh⟩ := hinput.fits (Nat.succ_le_of_lt hstep) hload (hchosen.insert hfits)
  rw [Finset.sum_insert hchosen.notMem, hsum, add_comm] at hlow hhigh
  exact int32_eq hlow hhigh

end Input

/-! ### The table -/

/-- The cells before `[step][load]` have their values, the others are still zero. -/
def Filled (weights prices : List Int) (capacity step load : Nat) (costTable : List (List Int)) : Prop :=
  ∀ j ≤ weights.length, ∀ l ≤ capacity,
    cell costTable j l = some (if j < step ∨ (j = step ∧ l < load) then bestCost weights prices j l else 0)

theorem Filled.before (hfilled : Filled weights prices capacity (step + 1) load costTable)
    (hstep : step < weights.length) {l : Nat} (hl : l ≤ capacity) :
    cell costTable step l = some (bestCost weights prices step l) := by
  rw [hfilled step hstep.le l hl, if_pos (.inl (Nat.lt_succ_self step))]

theorem getBestTotalCost_eq (hinput : Input weights prices capacity)
    (hfilled : Filled weights prices capacity (step + 1) load costTable) (hstep : step < weights.length)
    (hload : load ≤ capacity) :
    getBestTotalCost weights prices costTable (step + 1) load =
      some (bestCost weights prices (step + 1) load) := by
  obtain ⟨hw, hwlt⟩ := hinput.weight hstep
  have hcapacity := hinput.capacity_lt
  have hrest : int32 ((load : Int) - weightOf weights step) = load - weightOf weights step :=
    int32_eq (by omega) (by omega)
  rw [getBestTotalCost, Nat.add_sub_cancel, hw, hinput.price hstep, hfilled.before hstep hload]
  simp only [bind_eq_bind, bind_some, Option.pure_def, hrest]
  rw [bestCost_succ]
  by_cases hfits : weightOf weights step ≤ load
  · rw [if_pos (by omega), if_pos hfits, ← Int.ofNat_sub hfits, hfilled.before hstep (by omega), bind_some,
      hinput.takeItem hstep hload hfits, maxInt_eq]
  · rw [if_neg (by omega), if_neg hfits]

theorem fillCell_spec (hinput : Input weights prices capacity)
    (hfilled : Filled weights prices capacity (step + 1) load costTable) (hstep : step < weights.length)
    (hload : load ≤ capacity) :
    ∃ costTable', fillCell weights prices (step + 1) costTable load = some costTable' ∧
      Filled weights prices capacity (step + 1) (load + 1) costTable' := by
  obtain ⟨costTable', hstore, hcells⟩ :=
    storeCell_spec (hfilled (step + 1) hstep load hload) (bestCost weights prices (step + 1) load)
  refine ⟨costTable', ?_, fun j hj l hl => ?_⟩
  · rw [fillCell, getBestTotalCost_eq hinput hfilled hstep hload, bind_some, hstore]
  · rw [hcells j l]
    by_cases hthis : j = step + 1 ∧ l = load
    · obtain ⟨rfl, rfl⟩ := hthis
      rw [if_pos ⟨rfl, rfl⟩, if_pos (.inr ⟨rfl, Nat.lt_succ_self _⟩)]
    · rw [if_neg hthis, hfilled j hj l hl]
      refine congrArg some (if_congr ?_ rfl rfl)
      omega

theorem fillTable_spec (hinput : Input weights prices capacity)
    (hzero : Filled weights prices capacity 1 0 costTable) :
    ∃ costTable', fillTable weights prices weights.length capacity costTable = some costTable' ∧
      ∀ j ≤ weights.length, ∀ l ≤ capacity, cell costTable' j l = some (bestCost weights prices j l) := by
  have hrow : ∀ i, 1 ≤ i → i < 1 + weights.length →
    ∀ costTable, Filled weights prices capacity i 0 costTable →
      ∃ costTable', fillRow weights prices capacity costTable i = some costTable' ∧
        Filled weights prices capacity (i + 1) 0 costTable' := by
    intro i hlow hhigh costTable hfilled
    obtain ⟨step, rfl⟩ : ∃ step, i = step + 1 := ⟨i - 1, by omega⟩
    obtain ⟨costTable', hrun, hfilled'⟩ := foldlM_range_rule
      (fun load costTable => Filled weights prices capacity (step + 1) load costTable) (capacity + 1) hfilled
      fun load hload costTable h => fillCell_spec hinput h (by omega) (Nat.le_of_lt_succ hload)
    refine ⟨costTable', hrun, fun j hj l hl => ?_⟩
    rw [hfilled' j hj l hl]
    refine congrArg some (if_congr ?_ rfl rfl)
    omega
  obtain ⟨costTable', hrun, hfilled⟩ := foldlM_range'_rule
    (fun step costTable => Filled weights prices capacity step 0 costTable) weights.length hzero hrow
  refine ⟨costTable', hrun, fun j hj l hl => ?_⟩
  rw [hfilled j hj l hl, if_pos (.inl (by omega))]

/-! ### The way back -/

/-- The items that the way back from `[step][load]` takes. -/
def taken (weights prices : List Int) (step load : Nat) : Finset ℕ :=
  chosen (weightOf weights) (priceOf prices) step load

theorem taken_subset (step load : Nat) : taken weights prices step load ⊆ Finset.range step :=
  (chosen_fits (weightOf weights) (priceOf prices) step load).1

theorem markIncluded_spec (hinput : Input weights prices capacity)
    (hfilled : ∀ j ≤ weights.length, ∀ l ≤ capacity, cell costTable j l = some (bestCost weights prices j l))
    (step : Nat) : ∀ (included : List Bool) (count load : Nat), step ≤ weights.length → load ≤ capacity →
      included.length = weights.length →
      markIncluded weights costTable step included count load =
        some ((List.range step).map (fun i => decide (i ∈ taken weights prices step load)) ++
          included.drop step, count + (taken weights prices step load).card) := by
  induction step with
  | zero => exact fun _ _ _ _ _ _ => rfl
  | succ step ih =>
    intro included count load hstep hload hlen
    have hstore : ∀ b, store included step b = some (included.set step b) := fun b => if_pos (by omega)
    have hdrop : ∀ b, (included.set step b).drop step = b :: included.drop (step + 1) := by
      intro b
      rw [drop_set, if_neg (lt_irrefl step), Nat.sub_self, drop_eq_getElem_cons (by omega), set_cons_zero]
    rw [markIncluded, hfilled (step + 1) hstep load hload, hfilled step (by omega) load hload]
    simp only [bind_eq_bind, bind_some, hstore]
    by_cases hsame : bestCost weights prices (step + 1) load = bestCost weights prices step load
    · have htaken : taken weights prices (step + 1) load = taken weights prices step load := if_pos hsame
      have hnot : step ∉ taken weights prices step load := (chosen_fits _ _ step load).notMem
      rw [if_pos hsame, ih (included.set step false) count load (by omega) hload (by rw [length_set, hlen]),
        hdrop, htaken, range_succ, map_append, map_singleton, decide_eq_false hnot, append_assoc]
      rfl
    · have htaken : taken weights prices (step + 1) load =
          insert step (taken weights prices step (load - weightOf weights step)) := if_neg hsame
      have hfits : weightOf weights step ≤ load := (bestPrice_succ_of_ne hsame).1
      have hcapacity := hinput.capacity_lt
      have hrest : int32 ((load : Int) - weightOf weights step) =
          ((load - weightOf weights step : Nat) : Int) := by
        rw [Int.ofNat_sub hfits]
        exact int32_eq (by omega) (by omega)
      have hrun := ih (included.set step true) (count + 1) (load - weightOf weights step) (by omega)
        (by omega) (by rw [length_set, hlen])
      have hnot : step ∉ taken weights prices step (load - weightOf weights step) :=
        (chosen_fits _ _ step _).notMem
      have hbefore : ∀ i ∈ List.range step,
          decide (i ∈ insert step (taken weights prices step (load - weightOf weights step))) =
            decide (i ∈ taken weights prices step (load - weightOf weights step)) := by
        intro i hi
        rw [decide_eq_decide, Finset.mem_insert, or_iff_right (mem_range.mp hi).ne]
      rw [if_neg hsame, (hinput.weight (by omega)).1, bind_some, hrest, hrun, hdrop, htaken,
        range_succ, map_append,
        map_singleton, map_congr_left hbefore, decide_eq_true (Finset.mem_insert_self _ _), append_assoc,
        Finset.card_insert_of_notMem hnot]
      exact congrArg some (Prod.ext rfl (Nat.add_right_comm ..))

/-! ### The list of the items -/

/-- The indices below `n` that are in the selection, in their order. -/
def indices (s : Finset ℕ) (n : Nat) : List Nat := (List.range n).filter (· ∈ s)

theorem indices_sorted (s : Finset ℕ) (n : Nat) : (indices s n).Pairwise (· < ·) :=
  Pairwise.filter _ pairwise_lt_range

theorem toFinset_indices (hs : s ⊆ Finset.range n) : (indices s n).toFinset = s := by
  ext i
  rw [indices, List.mem_toFinset, mem_filter, mem_range, decide_eq_true_iff]
  exact ⟨fun h => h.2, fun h => ⟨Finset.mem_range.mp (hs h), h⟩⟩

theorem length_indices (hs : s ⊆ Finset.range n) : (indices s n).length = s.card := by
  rw [← toFinset_card_of_nodup ((indices_sorted s n).imp Nat.ne_of_lt), toFinset_indices hs]

/-- Before the pass for `i` the indices from `i` on still are zeros. -/
def Gathered (s : Finset ℕ) (n i : Nat) (state : List Nat × Nat) : Prop :=
  state.1 = indices s i ++ List.replicate ((List.range' i (n - i)).filter (· ∈ s)).length 0 ∧
    state.2 = (indices s i).length

theorem gatherItem_spec (hi : i < n) (hincluded : included[i]? = some (decide (i ∈ s)))
    {state : List Nat × Nat} (hstate : Gathered s n i state) :
    ∃ state', gatherItem included state i = some state' ∧ Gathered s n (i + 1) state' := by
  obtain ⟨includedItems, idx⟩ := state
  obtain ⟨hitems, hidx⟩ := hstate
  dsimp only at hitems hidx
  have hrest : n - i = (n - (i + 1)) + 1 := by omega
  rw [hrest, range'_succ] at hitems
  have hdone : indices s (i + 1) = indices s i ++ if i ∈ s then [i] else [] := by
    rw [indices, range_succ, filter_append, indices]
    by_cases hmem : i ∈ s <;> simp [hmem]
  rw [gatherItem, hincluded, bind_some]
  by_cases hmem : i ∈ s
  · rw [filter_cons_of_pos (by simpa using hmem), length_cons, replicate_succ] at hitems
    rw [if_pos (by simpa using hmem), hitems, hidx, store_append]
    refine ⟨_, rfl, ?_, ?_⟩
    · simp [hdone, hmem]
    · simp [hdone, hmem]
  · rw [filter_cons_of_neg (by simpa using hmem)] at hitems
    rw [if_neg (by simpa using hmem)]
    rw [if_neg hmem, append_nil] at hdone
    exact ⟨_, rfl, hdone ▸ hitems, hdone ▸ hidx⟩

/-- The second loop writes the indices of the marked items. -/
theorem gather_spec (hs : s ⊆ Finset.range n) (hincluded : ∀ i < n, included[i]? = some (decide (i ∈ s))) :
    ∃ idx, (List.range n).foldlM (gatherItem included) (List.replicate s.card 0, 0) =
      some (indices s n, idx) := by
  have hstart : Gathered s n 0 (List.replicate s.card 0, 0) := by
    refine ⟨?_, rfl⟩
    rw [← length_indices hs, indices, indices, @range_eq_range' n, Nat.sub_zero]
    rfl
  obtain ⟨⟨includedItems, idx⟩, hrun, hitems, -⟩ :=
    foldlM_range_rule (Gathered s n) n hstart fun i hi state => gatherItem_spec hi (hincluded i hi)
  refine ⟨idx, ?_⟩
  rw [Nat.sub_self] at hitems
  rw [hrun, some.injEq, Prod.mk.injEq]
  exact ⟨by simpa using hitems, rfl⟩

/-! ### The whole function -/

/-- Every request for memory of the call is granted. -/
structure Granted (mem : Allocator) (itemsCount capacity : Int) : Prop where
  table : mem.grants (8 * toSize (int32 (itemsCount + 1)) % 2 ^ 64) = true
  rows : mem.callocs (toSize (int32 (capacity + 1))) 4 = true
  answer : mem.callocs 1 24 = true
  included : mem.callocs (toSize itemsCount) 1 = true
  items : ∀ count : Nat, count ≤ itemsCount → mem.grants (4 * count) = true

theorem int32_max : int32 2147483648 = -2147483648 := by decide

/-- A granted table has the sizes that were meant: a size that overflowed is never granted. -/
theorem Granted.sizes {itemsCount capacity : Nat} (hgranted : Granted mem itemsCount capacity)
    (hitems : itemsCount < 2 ^ 31) (hcapacity : capacity < 2 ^ 31) :
    toSize (int32 (itemsCount + 1)) = itemsCount + 1 ∧ toSize (int32 (capacity + 1)) = capacity + 1 := by
  constructor
  · rcases Nat.lt_or_ge (itemsCount + 1) (2 ^ 31) with hlt | hge
    · rw [int32_eq (by omega) (by omega), toSize]
      omega
    · have hlimit := mem.limit _ hgranted.table
      have heq : (itemsCount : Int) + 1 = 2147483648 := by omega
      rw [heq, int32_max, toSize] at hlimit
      omega
  · rcases Nat.lt_or_ge (capacity + 1) (2 ^ 31) with hlt | hge
    · rw [int32_eq (by omega) (by omega), toSize]
      omega
    · have hrows := hgranted.rows
      have heq : (capacity : Int) + 1 = 2147483648 := by omega
      rw [heq, int32_max, Allocator.callocs, toSize, Bool.and_eq_true, decide_eq_true_iff] at hrows
      omega

/-- The table before the loops. -/
theorem filled_replicate :
    Filled weights prices capacity 1 0
      (List.replicate (weights.length + 1) (List.replicate (capacity + 1) 0)) := by
  intro j hj l hl
  rw [cell_natCast, getElem?_replicate_of_lt (by omega), bind_some,
    getElem?_replicate_of_lt (by omega)]
  split
  · obtain rfl : j = 0 := by omega
    rfl
  · rfl

theorem knapsackProblem_eq (hinput : Input weights prices capacity)
    (hgranted : Granted mem weights.length capacity) :
    knapsackProblem mem weights prices weights.length capacity =
      some ⟨bestCost weights prices weights.length capacity,
        indices (taken weights prices weights.length capacity) weights.length,
        (taken weights prices weights.length capacity).card⟩ := by
  obtain ⟨hrows, hcolumns⟩ := hgranted.sizes hinput.length_lt hinput.capacity_lt
  have hsubset := @taken_subset weights prices weights.length capacity
  have hcount : toSize (weights.length : Int) = weights.length := by
    have := hinput.length_lt
    rw [toSize]
    omega
  have hmatrix : allocateIntMatrix mem (toSize (int32 (weights.length + 1)))
    (toSize (int32 (capacity + 1))) =
      some (List.replicate (weights.length + 1) (List.replicate (capacity + 1) 0)) := by
    rw [allocateIntMatrix, if_pos hgranted.table, if_pos (.inr hgranted.rows), hrows, hcolumns]
  obtain ⟨costTable, hfill, hcells⟩ := fillTable_spec hinput filled_replicate
  have hmark := markIncluded_spec hinput hcells weights.length
    (List.replicate weights.length false) 0 capacity le_rfl le_rfl length_replicate
  rw [Nat.zero_add, drop_eq_nil_of_le length_replicate.le, append_nil] at hmark
  obtain ⟨idx, hgather⟩ := gather_spec hsubset fun i hi => by rw [getElem?_map, getElem?_range hi, map_some]
  have hcard : (taken weights prices weights.length capacity).card ≤ weights.length := by
    simpa using Finset.card_le_card hsubset
  have hcollect : collectIncludedItems mem weights weights.length capacity costTable =
      some (indices (taken weights prices weights.length capacity) weights.length,
        (taken weights prices weights.length capacity).card) := by
    rw [collectIncludedItems, if_pos hgranted.included, hcount, Int.toNat_natCast, hmark, bind_some]
    dsimp only
    rw [if_pos (hgranted.items _ (by omega))]
    exact congrArg _ hgather
  rw [knapsackProblem, hmatrix, bind_eq_bind, bind_some, hfill]
  simp only [bind_eq_bind, bind_some, if_pos hgranted.answer, Int.toNat_natCast,
    hcells _ le_rfl _ le_rfl, hcollect]
  rfl

/-- `KnapsackProblem` returns the greatest total price of the items that fit, and such items in
    increasing order. -/
theorem knapsackProblem_optimal {mem : Allocator} {weights prices : List Int} {capacity : Nat}
    (hinput : Input weights prices capacity) (hgranted : Granted mem weights.length capacity) :
    ∃ ans, knapsackProblem mem weights prices weights.length capacity = some ans ∧
      IsGreatest {cost | ∃ s, Feasible weights capacity s ∧ cost = totalPrice prices s} ans.bestTotalCost ∧
      ans.includedItems.Pairwise (· < ·) ∧ Feasible weights capacity ans.includedItems.toFinset ∧
      totalPrice prices ans.includedItems.toFinset = ans.bestTotalCost ∧
      ans.includedItemsCount = ans.includedItems.length := by
  have hchosen := chosen_fits (weightOf weights) (priceOf prices) weights.length capacity
  have hitems := toFinset_indices hchosen.1
  refine ⟨_, knapsackProblem_eq hinput hgranted, ?_, indices_sorted _ _, ?_, ?_,
    (length_indices hchosen.1).symm⟩
  · have hbest := isBest_bestPrice (weightOf weights) (priceOf prices) weights.length capacity
    simp only [hinput.feasible_iff]
    exact hbest
  · exact hitems ▸ hinput.feasible_iff.mpr hchosen
  · exact hitems ▸ sum_chosen (weightOf weights) (priceOf prices) weights.length capacity

/-- An item without weight, one with a price below zero, and two pairs of items with the same price. -/
theorem knapsackProblem_optimal_five :
    ∃ ans, knapsackProblem ⟨fun bytes => decide (bytes < 2 ^ 63), fun _ h => of_decide_eq_true h⟩
        [3, 0, 4, 2, 7] [5, 1, 6, -2, 6] 5 7 = some ans ∧
      IsGreatest {cost | ∃ s, Feasible [3, 0, 4, 2, 7] 7 s ∧ cost = totalPrice [5, 1, 6, -2, 6] s}
        ans.bestTotalCost ∧
      ans.includedItems.Pairwise (· < ·) ∧ Feasible [3, 0, 4, 2, 7] 7 ans.includedItems.toFinset ∧
      totalPrice [5, 1, 6, -2, 6] ans.includedItems.toFinset = ans.bestTotalCost ∧
      ans.includedItemsCount = ans.includedItems.length := by
  have hsums : ∀ s ∈ (Finset.range 5).powerset, -2 ^ 31 ≤ totalPrice [5, 1, 6, -2, 6] s ∧
      totalPrice [5, 1, 6, -2, 6] s < 2 ^ 31 := by
    decide +kernel
  have hinput : Input [3, 0, 4, 2, 7] [5, 1, 6, -2, 6] 7 :=
    ⟨rfl, by decide, by decide, by decide, by decide, fun s hs => hsums s (Finset.mem_powerset.mpr hs.1)⟩
  refine knapsackProblem_optimal hinput ⟨by decide, by decide, by decide, by decide, fun count hcount => ?_⟩
  have hle : (count : Int) ≤ 5 := hcount
  exact decide_eq_true (by omega)

end NsuLabs.Knapsack
