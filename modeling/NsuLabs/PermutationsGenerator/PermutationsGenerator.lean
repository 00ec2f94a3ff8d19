/-
Module: NsuLabs.PermutationsGenerator.PermutationsGenerator
Purpose: `C-Labs/Permutations_generator/src/main.c`: `reverse`, `makeNextPermutation` and the loop of `main`
  that prints the permutations. A pointer into the sequence is its index. The loops take fuel; `none` is an
  access outside the sequence, or the end of the fuel.
Trusted boundary: The element type `T` is any linearly ordered type, and `sz` is the
  length of the sequence
Main exports: makeNextPermutation, makeNextPermutation_enumerates
-/
import NsuLabs.Lib.Arrays
import NsuLabs.Lib.Selections

namespace NsuLabs.PermutationsGenerator

open Lib

variable {α : Type} [LinearOrder α]

def reverse : (fuel : Nat) → (sequence : List α) → (start last : Int) → Option (List α)
  | 0, _, _, _ => none
  | fuel + 1, sequence, start, last =>
    if start < last then (swapAt sequence start last).bind fun sequence =>
      reverse fuel sequence (start + 1) (last - 1)
    else some sequence

/-- The first place of the last ascending pair; `some none` is the `return -1` of a sequence without
    one. -/
def findPair (sequence : List α) : (fuel : Nat) → (p : Int) → Option (Option Int)
  | 0, _ => none
  | fuel + 1, p => do
      let x ← load sequence p
      let y ← load sequence (p + 1)
      if x ≥ y then
        if p - 1 < 0 then some none else findPair sequence fuel (p - 1)
      else some (some p)

/-- `while (*lo <= *p) --lo;` -/
def findLowest (sequence : List α) (p : Int) : (fuel : Nat) → (lo : Int) → Option Int
  | 0, _ => none
  | fuel + 1, lo => do
      let y ← load sequence lo
      let x ← load sequence p
      if y ≤ x then findLowest sequence p fuel (lo - 1) else some lo

/-- The value that is returned, and the sequence afterwards. -/
def makeNextPermutation (sequence : List α) : Option (Int × List α) :=
  let last : Int := sequence.length - 1
  if 0 = last then some (-1, sequence)
  else
    (findPair sequence (sequence.length + 1) (last - 1)).bind fun pair =>
      match pair with
      | none => some (-1, sequence)
      | some p => do
          let lo ← findLowest sequence p (sequence.length + 1) last
          let sequence ← swapAt sequence p lo
          let sequence ← reverse (sequence.length + 1) sequence (p + 1) last
          some (1, sequence)

/-- The loop of `main`: the sequences that it prints. -/
def generate : (permutationsAmount : Nat) → (sequence : List α) → Option (List (List α))
  | 0, _ => some []
  | permutationsAmount + 1, sequence => do
      let (result, sequence) ← makeNextPermutation sequence
      if result = -1 then some []
      else (generate permutationsAmount sequence).map (sequence :: ·)

example : makeNextPermutation [1, 3, 3, 2] = some (1, [2, 1, 3, 3]) := by decide

open Option
open List hiding swapAt

/-! ### The loops -/

omit [LinearOrder α] in
/-- Each pass swaps the ends of the part that is left. -/
theorem reverse_spec (fuel : Nat) (A M B : List α) (hfuel : M.length < fuel) :
    reverse fuel (A ++ (M ++ B)) A.length (A.length + M.length - 1) = some (A ++ (M.reverse ++ B)) := by
  induction fuel generalizing A M B with
  | zero => omega
  | succ fuel ih =>
    rw [reverse]
    rcases M with _ | ⟨x, M⟩
    · rw [if_neg (by simp)]
      rfl
    · rcases eq_nil_or_concat' M with rfl | ⟨M, y, rfl⟩
      · rw [if_neg (by simp)]
        rfl
      · have hlength : (x :: (M ++ [y])).length = M.length + 2 := by simp
        have hlast : (A.length : Int) + (x :: (M ++ [y])).length - 1 = A.length + 1 + M.length := by omega
        have hnext : (A.length : Int) + 1 + M.length - 1 = (A ++ [y]).length + M.length - 1 := by simp
        have hstart : (A.length : Int) + 1 = (A ++ [y]).length := by simp
        have hswap := swapAt_append A M B x y
        have hrest := ih (A ++ [y]) M (x :: B) (by omega)
        rw [hlast, if_pos (by omega)]
        simp only [cons_append, append_assoc, nil_append, reverse_cons, reverse_append,
          reverse_nil] at hswap hrest ⊢
        rw [hswap, bind_some, hnext, hstart, hrest]

/-- The scan from the end, with a descending tail behind the place it looks at. -/
theorem findPair_spec (fuel : Nat) (A : List α) (x y : α) (D : List α) (hdesc : (y :: D).Pairwise (· ≥ ·))
    (hfuel : A.length < fuel) :
    ((A ++ x :: y :: D).Pairwise (· ≥ ·) ∧ findPair (A ++ x :: y :: D) fuel A.length = some none) ∨
      ∃ A' x' y' D', A ++ x :: y :: D = A' ++ x' :: y' :: D' ∧ (y' :: D').Pairwise (· ≥ ·) ∧ x' < y' ∧
        findPair (A ++ x :: y :: D) fuel A.length = some (some (A'.length : Int)) := by
  induction fuel generalizing A x y D with
  | zero => omega
  | succ fuel ih =>
    have hx := load_append A (y :: D) x
    have hy := load_append (A ++ [x]) D y
    rw [append_assoc, singleton_append, length_append, length_singleton, Nat.cast_add,
      Nat.cast_one] at hy
    rw [findPair, hx, hy]
    simp only [bind_eq_bind, bind_some]
    by_cases hle : x ≥ y
    · have hdesc : (x :: y :: D).Pairwise (· ≥ ·) := by
        refine pairwise_cons.mpr ⟨fun z hz => ?_, hdesc⟩
        rcases mem_cons.mp hz with rfl | hz
        · exact hle
        · exact ((pairwise_cons.mp hdesc).1 z hz).trans hle
      rw [if_pos hle]
      rcases eq_nil_or_concat' A with rfl | ⟨A, w, rfl⟩
      · exact .inl ⟨hdesc, rfl⟩
      · rw [length_append, length_singleton] at hfuel ⊢
        rw [if_neg (by omega), Nat.cast_add, Nat.cast_one, Int.add_sub_cancel]
        rw [append_assoc, singleton_append]
        exact ih A w x (y :: D) hdesc (by omega)
    · refine .inr ⟨A, x, y, D, rfl, hdesc, not_le.mp hle, ?_⟩
      rw [if_neg hle]

/-- The scan from the end for an element above `x`, with the elements `V` that it has passed. -/
theorem findLowest_spec (fuel : Nat) (A : List α) (x : α) (W V : List α) (hW : ∃ w ∈ W, x < w)
    (hV : ∀ v ∈ V, v ≤ x) (hfuel : W.length < fuel) :
    ∃ U y V', W ++ V = U ++ y :: V' ∧ x < y ∧ (∀ v ∈ V', v ≤ x) ∧
      findLowest (A ++ x :: (W ++ V)) A.length fuel (A.length + W.length) =
        some (A.length + 1 + U.length : Int) := by
  induction fuel generalizing W V with
  | zero => omega
  | succ fuel ih =>
    rcases eq_nil_or_concat' W with rfl | ⟨W, w, rfl⟩
    · obtain ⟨w, hw, -⟩ := hW
      exact absurd hw not_mem_nil
    · have hw := load_append (A ++ x :: W) V w
      have hplace : ((A ++ x :: W).length : Int) = A.length + (W ++ [w]).length := by
        simp only [length_append, length_cons, length_nil]
        omega
      rw [hplace, append_assoc, cons_append] at hw
      rw [append_assoc, singleton_append]
      rw [findLowest, hw, load_append]
      simp only [bind_eq_bind, bind_some]
      by_cases hle : w ≤ x
      · rw [if_pos hle, length_append, length_singleton, Nat.cast_add, Nat.cast_one, ← Int.add_assoc,
          Int.add_sub_cancel]
        refine ih W (w :: V) ?_ ?_ ?_
        · obtain ⟨z, hz, hlt⟩ := hW
          rcases mem_append.mp hz with hz | hz
          · exact ⟨z, hz, hlt⟩
          · exact absurd hlt (not_lt.mpr (mem_singleton.mp hz ▸ hle))
        · intro v hv
          rcases mem_cons.mp hv with rfl | hv
          · exact hle
          · exact hV v hv
        · rw [length_append, length_singleton] at hfuel
          omega
      · refine ⟨W, w, V, rfl, not_le.mp hle, hV, ?_⟩
        rw [if_neg hle, length_append, length_singleton, Nat.cast_add, Nat.cast_one, Int.add_assoc,
          Int.add_comm 1]

/-! ### One call -/

omit [LinearOrder α] in
/-- The end of a call that has found a pair. -/
theorem swapped_and_reversed (A U V : List α) (x y : α) :
    ((swapAt (A ++ x :: (U ++ y :: V)) A.length (A.length + 1 + U.length)).bind fun sequence =>
        (reverse (sequence.length + 1) sequence (A.length + 1)
          ((A ++ x :: (U ++ y :: V)).length - 1)).bind fun sequence => some ((1 : Int), sequence)) =
      some (1, A ++ y :: (U ++ x :: V).reverse) := by
  have hrun := reverse_spec ((A ++ y :: (U ++ x :: V)).length + 1) (A ++ [y]) (U ++ x :: V) []
    (by simp; omega)
  have hlast : ((A ++ [y]).length : Int) + (U ++ x :: V).length - 1 =
      (A ++ x :: (U ++ y :: V)).length - 1 := by
    simp only [length_append, length_cons, length_nil]
    omega
  have hstart : ((A ++ [y]).length : Int) = A.length + 1 := by simp
  rw [hlast, hstart, append_nil, append_nil, append_assoc, append_assoc, singleton_append,
    singleton_append] at hrun
  rw [swapAt_append, bind_some, hrun, bind_some]

theorem makeNextPermutation_spec (s : List α) (hs : s ≠ []) :
    (IsGreatestArrangement s ∧ makeNextPermutation s = some (-1, s)) ∨
      ∃ s', makeNextPermutation s = some (1, s') ∧ IsNextArrangement s s' := by
  obtain ⟨s, z, rfl⟩ := (eq_nil_or_concat' s).resolve_left hs
  rcases eq_nil_or_concat' s with rfl | ⟨A, x, rfl⟩
  · exact .inl ⟨isGreatestArrangement_of_pairwise (pairwise_singleton _ z), rfl⟩
  · rw [append_assoc, singleton_append]
    have hlength : (A ++ [x, z]).length = A.length + 2 := by simp
    have hlast : ((A ++ [x, z]).length : Int) - 1 - 1 = A.length := by omega
    rw [makeNextPermutation]
    rcases findPair_spec ((A ++ [x, z]).length + 1) A x z [] (pairwise_singleton _ z) (by omega) with
      ⟨hdesc, hpair⟩ | ⟨A', x', y', D', heq, hdesc, hlt, hpair⟩
    · refine .inl ⟨isGreatestArrangement_of_pairwise hdesc, ?_⟩
      rw [if_neg (by omega), hlast, hpair, bind_some]
    · obtain ⟨U, y, V, hD, hxy, hV, hlowest⟩ :=
        findLowest_spec ((A ++ [x, z]).length + 1) A' x' (y' :: D') []
        ⟨y', mem_cons_self, hlt⟩ (by simp) (by rw [heq]; simp; omega)
      have hend : (A'.length : Int) + (y' :: D').length = (A ++ [x, z]).length - 1 := by
        rw [heq]
        simp only [length_append, length_cons]
        omega
      rw [append_nil] at hD hlowest
      rw [hend, ← heq] at hlowest
      rw [hD] at heq hdesc
      refine .inr ⟨A' ++ y :: (U ++ x' :: V).reverse, ?_, ?_⟩
      · rw [if_neg (by omega), hlast, hpair, bind_some]
        simp only [hlowest, bind_eq_bind, bind_some]
        rw [heq]
        exact swapped_and_reversed A' U V x' y
      · rw [heq]
        exact isNextArrangement_of_split A' hdesc hxy hV

/-! ### Repeated calls -/

/-- The printed sequences continue the chain of next arrangements, and stop early only at the
    greatest one. -/
theorem generate_spec (n : Nat) (s : List α) (hs : s ≠ []) :
    ∃ printed, generate n s = some printed ∧ (s :: printed).IsChain IsNextArrangement ∧
      (printed.length = n ∨ IsGreatestArrangement ((s :: printed).getLast (cons_ne_nil s printed))) := by
  induction n generalizing s with
  | zero => exact ⟨[], rfl, isChain_singleton s, .inl rfl⟩
  | succ n ih =>
    rcases makeNextPermutation_spec s hs with ⟨hgreatest, hrun⟩ | ⟨s', hrun, hnext⟩
    · refine ⟨[], ?_, isChain_singleton s, .inr hgreatest⟩
      rw [generate, hrun]
      rfl
    · have hs' : s' ≠ [] := by
        rintro rfl
        exact hs hnext.perm.symm.eq_nil
      obtain ⟨printed, hprinted, hchain, hend⟩ := ih s' hs'
      refine ⟨s' :: printed, ?_, isChain_cons_cons.mpr ⟨hnext, hchain⟩, ?_⟩
      · rw [generate, hrun]
        simp only [bind_eq_bind, bind_some]
        rw [if_neg (by decide), hprinted, map_some]
      · rw [getLast_cons (cons_ne_nil s' printed), length_cons]
        exact hend.imp_left (congrArg Nat.succ)

/-- One call finds the next arrangement or says that there is none, and repeated calls from a sorted
    sequence find every arrangement once. -/
theorem makeNextPermutation_enumerates (s : List α) (hs : s ≠ []) :
    (makeNextPermutation s = some (-1, s) ↔ IsGreatestArrangement s) ∧
      (¬ IsGreatestArrangement s → ∃ s', makeNextPermutation s = some (1, s') ∧ IsNextArrangement s s') ∧
      (s.Pairwise (· ≤ ·) → ∀ n ≥ s.length.factorial, ∃ printed, generate n s = some printed ∧
        (s :: printed).Nodup ∧ ∀ t, t ∈ s :: printed ↔ t.Perm s) := by
  refine ⟨?_, ?_, fun hsorted n hn => ?_⟩
  · rcases makeNextPermutation_spec s hs with ⟨hgreatest, hrun⟩ | ⟨s', hrun, hnext⟩
    · exact iff_of_true hrun hgreatest
    · refine iff_of_false (fun h => ?_) hnext.not_isGreatest
      rw [hrun] at h
      have hresult : (1 : Int) = -1 := congrArg Prod.fst (some.inj h)
      exact absurd hresult (by decide)
  · intro hnot
    exact (makeNextPermutation_spec s hs).resolve_left fun h => hnot h.1
  · obtain ⟨printed, hrun, hchain, hend⟩ := generate_spec n s hs
    have hlength := length_chain_le hchain
    rw [length_cons] at hlength
    have hgreatest := hend.resolve_left (by omega)
    refine ⟨printed, hrun, (pairwise_of_chain hchain).imp ne_of_lt,
      fun t => ⟨perm_of_mem_chain hchain, fun ht => ?_⟩⟩
    exact mem_chain_of_le hchain hgreatest ht (le_of_pairwise_of_perm hsorted ht)

/-- Three elements with two equal ones: two calls succeed, and the six that `main` may make print
    the same two. -/
theorem makeNextPermutation_enumerates_three :
    ∃ printed, generate 6 [1, 2, 2] = some printed ∧ ([1, 2, 2] :: printed).Nodup ∧
      ∀ t, t ∈ [1, 2, 2] :: printed ↔ t.Perm [1, 2, 2] :=
  (makeNextPermutation_enumerates [1, 2, 2] (cons_ne_nil 1 [2, 2])).2.2 (by decide) 6 (by decide)

end NsuLabs.PermutationsGenerator
