/-
Module: NsuLabs.Lib.Arrays
Purpose: Arrays of a fixed capacity as lists, with the bounded accesses of C: `memmove`, `fill`, `store`,
  `load` and `swapAt`. The order of a binary heap, as a property of the values at its places.
Trusted boundary: none
Main exports: memmove, fill, store, HeapFrom, HeapExcept, HeapBut
-/
import Mathlib

namespace NsuLabs.Lib

open List Option

universe u

variable {α : Type u}

/-- `memmove(dest + destPos, src + srcPos, n)`, counted in elements. -/
def memmove (dest : List α) (destPos : Nat) (src : List α) (srcPos n : Nat) : Option (List α) :=
  if srcPos + n ≤ src.length ∧ destPos + n ≤ dest.length then
    some (dest.take destPos ++ ((src.drop srcPos).take n ++ dest.drop (destPos + n)))
  else none

/-- `xs[i] = x`. -/
def store (xs : List α) (i : Nat) (x : α) : Option (List α) :=
  if i < xs.length then some (xs.set i x) else none

/-- `xs[i]` with a signed index. -/
def load (xs : List α) (i : Int) : Option α := if 0 ≤ i then xs[i.toNat]? else none

/-- `swap(&xs[i], &xs[j])`. -/
def swapAt (xs : List α) (i j : Int) : Option (List α) :=
  (load xs i).bind fun x => (load xs j).bind fun y => (store xs i.toNat y).bind fun xs => store xs j.toNat x

/-- `std::fill_n(xs + pos, n, x)`. -/
def fill (xs : List α) (pos n : Nat) (x : α) : Option (List α) :=
  if pos + n ≤ xs.length then some (xs.take pos ++ (List.replicate n x ++ xs.drop (pos + n))) else none

/-- A block moved one place up within its array; the element that stood first stays behind. -/
theorem memmove_shift (xs ys zs : List α) (z : α) :
    ∃ w, (ys ++ [z]).head? = some w ∧
      memmove (xs ++ (ys ++ z :: zs)) (xs.length + 1) (xs ++ (ys ++ z :: zs)) xs.length ys.length =
        some (xs ++ w :: (ys ++ zs)) := by
  have hroom : xs.length + ys.length ≤ (xs ++ (ys ++ z :: zs)).length ∧
      xs.length + 1 + ys.length ≤ (xs ++ (ys ++ z :: zs)).length := by
    simp only [length_append, length_cons]
    omega
  rw [memmove, if_pos hroom, take_length_add_append, Nat.add_assoc, drop_length_add_append,
    drop_left, take_left]
  cases ys with
  | nil => exact ⟨z, rfl, by simp⟩
  | cons y ys => exact ⟨y, rfl, by simp [Nat.add_comm 1]⟩

/-- The tail of one array copied to the front of another. -/
theorem memmove_tail (dest xs ys : List α) (h : ys.length ≤ dest.length) :
    memmove dest 0 (xs ++ ys) xs.length ys.length = some (ys ++ dest.drop ys.length) := by
  have hroom : xs.length + ys.length ≤ (xs ++ ys).length ∧ 0 + ys.length ≤ dest.length := by
    simp only [length_append]
    omega
  rw [memmove, if_pos hroom]
  simp

theorem store_append (xs zs : List α) (w x : α) :
    store (xs ++ w :: zs) xs.length x = some (xs ++ x :: zs) := by
  rw [store, if_pos (by simp)]
  simp

theorem load_natCast (xs : List α) (i : Nat) : load xs i = xs[i]? := by
  rw [load, if_pos (Int.natCast_nonneg i), Int.toNat_natCast]

theorem load_append (xs zs : List α) (x : α) : load (xs ++ x :: zs) xs.length = some x := by
  rw [load_natCast, getElem?_append_right le_rfl, Nat.sub_self]
  rfl

/-- The swap of two elements with a list between them. -/
theorem swapAt_append (xs ys zs : List α) (x y : α) :
    swapAt (xs ++ x :: (ys ++ y :: zs)) xs.length (xs.length + 1 + ys.length) =
      some (xs ++ y :: (ys ++ x :: zs)) := by
  have hy : xs ++ x :: (ys ++ y :: zs) = (xs ++ x :: ys) ++ y :: zs := by simp
  have hy' : xs ++ y :: (ys ++ y :: zs) = (xs ++ y :: ys) ++ y :: zs := by simp
  have hj : (xs.length : Int) + 1 + ys.length = ((xs ++ x :: ys).length : Nat) := by
    simp only [length_append, length_cons]
    omega
  have hj' : (xs ++ x :: ys).length = (xs ++ y :: ys).length := by simp
  rw [swapAt, load_append, bind_some, hj]
  nth_rewrite 1 [hy]
  rw [load_append, bind_some, Int.toNat_natCast, Int.toNat_natCast, store_append, bind_some, hy', hj',
    store_append]
  simp

theorem swapAt_natCast {xs : List α} {i j : Nat} (hi : i < xs.length) (hj : j < xs.length) :
    ∃ ys, swapAt xs i j = some ys ∧ ys.Perm xs ∧ ∀ k, ys[k]? = xs[Equiv.swap i j k]? := by
  refine ⟨(xs.set i xs[j]).set j xs[i], ?_, set_set_perm hi hj, fun k => ?_⟩
  · rw [swapAt, load_natCast, load_natCast, getElem?_eq_getElem hi, getElem?_eq_getElem hj, bind_some,
      bind_some, Int.toNat_natCast, Int.toNat_natCast, store, if_pos hi, bind_some, store,
      if_pos (by rwa [length_set])]
  · rw [getElem?_set, getElem?_set, length_set]
    by_cases hjk : j = k
    · subst hjk
      rw [if_pos rfl, if_pos hj, Equiv.swap_apply_right, getElem?_eq_getElem hi]
    · rw [if_neg hjk]
      by_cases hik : i = k
      · subst hik
        rw [if_pos rfl, if_pos hi, Equiv.swap_apply_left, getElem?_eq_getElem hj]
      · rw [if_neg hik, Equiv.swap_apply_of_ne_of_ne (Ne.symm hik) (Ne.symm hjk)]

/-- A write to one element of an array of arrays. -/
theorem store_store {rows : List (List α)} {row : List α} {i j : Nat} {old : α} (hrow : rows[i]? = some row)
    (hold : row[j]? = some old) (x : α) :
    ∃ rows', ((store row j x).bind fun row => store rows i row) = some rows' ∧
      ∀ a b, (rows'[a]?.bind fun row => row[b]?) =
        if a = i ∧ b = j then some x else rows[a]?.bind fun row => row[b]? := by
  obtain ⟨hi, -⟩ := List.getElem?_eq_some_iff.mp hrow
  obtain ⟨hj, -⟩ := List.getElem?_eq_some_iff.mp hold
  refine ⟨rows.set i (row.set j x), ?_, fun a b => ?_⟩
  · rw [store, if_pos hj, bind_some, store, if_pos hi]
  · rw [getElem?_set]
    by_cases ha : i = a
    · subst ha
      rw [if_pos rfl, if_pos hi, bind_some, getElem?_set, hrow, bind_some]
      by_cases hb : j = b
      · subst hb
        rw [if_pos rfl, if_pos hj, if_pos ⟨rfl, rfl⟩]
      · rw [if_neg hb, if_neg fun h => hb h.2.symm]
    · rw [if_neg ha, if_neg fun h => ha h.1.symm]

/-! ### Blocks, cell by cell -/

theorem memmove_getElem? {dest src ys : List α} {destPos srcPos n : Nat}
    (h : memmove dest destPos src srcPos n = some ys) :
    ys.length = dest.length ∧
      ∀ i, ys[i]? = if destPos ≤ i ∧ i < destPos + n then src[srcPos + (i - destPos)]? else dest[i]? := by
  rw [memmove, ite_none_right_eq_some, some_inj] at h
  obtain ⟨hroom, rfl⟩ := h
  have hfirst : (dest.take destPos).length = destPos := length_take_of_le (by omega)
  have hblock : ((src.drop srcPos).take n).length = n := length_take_of_le (by rw [length_drop]; omega)
  constructor
  · simp [hblock]
    omega
  · intro i
    grind

theorem fill_getElem? {xs ys : List α} {pos n : Nat} {x : α} (h : fill xs pos n x = some ys) :
    ys.length = xs.length ∧ ∀ i, ys[i]? = if pos ≤ i ∧ i < pos + n then some x else xs[i]? := by
  rw [fill, ite_none_right_eq_some, some_inj] at h
  obtain ⟨hroom, rfl⟩ := h
  constructor
  · simp
    omega
  · intro i
    grind

theorem memmove_isSome (dest src : List α) (destPos srcPos n : Nat) (h : srcPos + n ≤ src.length)
    (h' : destPos + n ≤ dest.length) : ∃ ys, memmove dest destPos src srcPos n = some ys :=
      ⟨_, if_pos ⟨h, h'⟩⟩

theorem fill_isSome (xs : List α) (pos n : Nat) (x : α) (h : pos + n ≤ xs.length) :
    ∃ ys, fill xs pos n x = some ys := ⟨_, if_pos h⟩

/-! ### Arrays read around their end -/

theorem mod_eq_ite {i n : Nat} (h : i < n + n) : i % n = if i < n then i else i - n := by
  split
  · exact Nat.mod_eq_of_lt ‹_›
  · rw [Nat.mod_eq_sub_mod (by omega), Nat.mod_eq_of_lt (by omega)]

/-- Different offsets from `start` are different places. -/
theorem add_mod_inj {n i j : Nat} (start : Nat) (hi : i < n) (hj : j < n) :
    (start + i) % n = (start + j) % n ↔ i = j :=
  ⟨fun h => Nat.ModEq.eq_of_lt_of_lt (Nat.ModEq.add_left_cancel' start h) hi hj, fun h => h ▸ rfl⟩

/-- The two parts of a block that may run around the end of its array, copied to the front of
    another array. -/
theorem memmove_window (dest xs : List α) (start n : Nat) (hs : start ≤ xs.length) (hn : n ≤ xs.length)
    (hd : n ≤ dest.length) :
    ∃ ys, ((memmove dest 0 xs start (min n (xs.length - start))).bind fun dest =>
        if min n (xs.length - start) < n then
          memmove dest (min n (xs.length - start)) xs 0 (n - min n (xs.length - start))
        else some dest) = some ys ∧ ys.length = dest.length ∧
      ∀ i, ys[i]? = if i < n then xs[(start + i) % xs.length]? else dest[i]? := by
  obtain ⟨us, hus⟩ := memmove_isSome dest xs 0 start (min n (xs.length - start)) (by omega) (by omega)
  have ⟨hlen, hget⟩ := memmove_getElem? hus
  rw [hus, bind_some]
  split
  · obtain ⟨ys, hys⟩ := memmove_isSome us xs (min n (xs.length - start)) 0 (n - min n (xs.length - start))
      (by omega) (by omega)
    have ⟨hlen', hget'⟩ := memmove_getElem? hys
    refine ⟨ys, hys, hlen'.trans hlen, fun i => ?_⟩
    rw [hget', hget]
    have := mod_eq_ite (i := start + i) (n := xs.length)
    grind
  · refine ⟨us, rfl, hlen, fun i => ?_⟩
    rw [hget]
    have := mod_eq_ite (i := start + i) (n := xs.length)
    grind

/-- Both parts of a block that may run around the end of its array, filled with one value: the block
    counted from `start` is filled. -/
theorem fill_window (xs : List α) (start k n : Nat) (x : α) (hs : start < xs.length)
    (hn : k + n ≤ xs.length) :
    ∃ ys, ((fill xs ((start + k) % xs.length) (min n (xs.length - (start + k) % xs.length)) x).bind
      fun xs' =>
        if min n (xs.length - (start + k) % xs.length) < n then
          fill xs' 0 (n - min n (xs.length - (start + k) % xs.length)) x
        else some xs') = some ys ∧ ys.length = xs.length ∧
      ∀ i < xs.length, ys[(start + i) % xs.length]? =
        if k ≤ i ∧ i < k + n then some x else xs[(start + i) % xs.length]? := by
  have hpos := mod_eq_ite (i := start + k) (n := xs.length) (by omega)
  set pos := (start + k) % xs.length
  have hlt : pos < xs.length := by split at hpos <;> omega
  obtain ⟨us, hus⟩ := fill_isSome xs pos (min n (xs.length - pos)) x (by omega)
  have ⟨hlen, hget⟩ := fill_getElem? hus
  rw [hus, bind_some]
  split
  · obtain ⟨ys, hys⟩ := fill_isSome us 0 (n - min n (xs.length - pos)) x (by split at hpos <;> omega)
    have ⟨hlen', hget'⟩ := fill_getElem? hys
    refine ⟨ys, hys, hlen'.trans hlen, fun i hi => ?_⟩
    rw [hget', hget, mod_eq_ite (by omega)]
    grind
  · refine ⟨us, rfl, hlen, fun i hi => ?_⟩
    rw [hget, mod_eq_ite (by omega)]
    grind

open Function

/-- The place `c` is one of the two below `i`. -/
def IsChild (c i : Nat) : Prop := c = 2 * i + 1 ∨ c = 2 * i + 2

theorem IsChild.lt {c i : Nat} (h : IsChild c i) : i < c := by
  rw [IsChild] at h
  omega

/-- A place is below one other place only. -/
theorem IsChild.unique {c i j : Nat} (h : IsChild c i) (h' : IsChild c j) : i = j := by
  rw [IsChild] at h h'
  omega

variable {α : Type u} [Preorder α]

/-- Among the first `n` places those below a place from `lo` on are at most this place. -/
def HeapFrom (f : Nat → α) (lo n : Nat) : Prop := ∀ i c, lo ≤ i → IsChild c i → c < n → f c ≤ f i

/-- The same, but that `hole` may be less than its children. -/
structure HeapExcept (f : Nat → α) (lo n hole : Nat) : Prop where
  other : ∀ i c, lo ≤ i → i ≠ hole → IsChild c i → c < n → f c ≤ f i
  around : ∀ p c, lo ≤ p → IsChild hole p → IsChild c hole → c < n → f c ≤ f p

variable {f : Nat → α} {lo n hole : Nat}

/-- The places behind the first half have no children. -/
theorem heapFrom_of_half_le (h : n / 2 ≤ lo) : HeapFrom f lo n := by
  intro i c hi hc hn
  rw [IsChild] at hc
  omega

theorem HeapFrom.except (h : HeapFrom f (lo + 1) n) : HeapExcept f lo n lo := by
  refine ⟨fun i c hi hne => h i c (Nat.lt_of_le_of_ne hi (Ne.symm hne)), fun p c hp hchild => ?_⟩
  exact absurd hchild.lt (not_lt.mpr hp)

theorem HeapExcept.finish (h : HeapExcept f lo n hole) (hle : ∀ c, IsChild c hole → c < n → f c ≤ f hole) :
    HeapFrom f lo n := by
  intro i c hi hc hn
  by_cases heq : i = hole
  · subst heq
    exact hle c hc hn
  · exact h.other i c hi heq hc hn

/-- The hole is swapped with its greatest child, which was not less. -/
theorem HeapExcept.sift (h : HeapExcept f lo n hole) (hlo : lo ≤ hole) {c : Nat}
    (hc : IsChild c hole) (hn : c < n)
    (hgreatest : ∀ c', IsChild c' hole → c' < n → f c' ≤ f c) (hle : f hole ≤ f c) :
    HeapExcept (f ∘ Equiv.swap hole c) lo n c := by
  have hne : hole ≠ c := hc.lt.ne
  constructor
  · intro i d hi hic hd hdn
    simp only [comp_apply]
    by_cases hih : i = hole
    · -- the children of the hole are now below what was the greatest of them
      subst hih
      rw [Equiv.swap_apply_left]
      by_cases hdc : d = c
      · rw [hdc, Equiv.swap_apply_right]
        exact hle
      · rw [Equiv.swap_apply_of_ne_of_ne hd.lt.ne' hdc]
        exact hgreatest d hd hdn
    · rw [Equiv.swap_apply_of_ne_of_ne hih hic]
      by_cases hdh : d = hole
      · rw [hdh, Equiv.swap_apply_left]
        exact h.around i c hi (hdh ▸ hd) hc hn
      · have hdc : d ≠ c := fun heq => hih (hd.unique (heq ▸ hc))
        rw [Equiv.swap_apply_of_ne_of_ne hdh hdc]
        exact h.other i d hi hih hd hdn
  · intro p d hp hcp hd hdn
    obtain rfl : p = hole := hcp.unique hc
    have hdh : d ≠ p := (hc.lt.trans hd.lt).ne'
    rw [comp_apply, comp_apply, Equiv.swap_apply_left, Equiv.swap_apply_of_ne_of_ne hdh hd.lt.ne']
    exact h.other c d (hp.trans hc.lt.le) hne.symm hd hdn

/-- The order of the whole heap, but that `hole` may be greater than the place above it. -/
structure HeapBut (f : Nat → α) (n hole : Nat) : Prop where
  other : ∀ i c, c ≠ hole → IsChild c i → c < n → f c ≤ f i
  around : ∀ p c, IsChild hole p → IsChild c hole → c < n → f c ≤ f p

theorem HeapBut.finish (h : HeapBut f n hole) (hle : ∀ p, IsChild hole p → f hole ≤ f p) :
    HeapFrom f 0 n := by
  intro i c _ hc hn
  by_cases heq : c = hole
  · subst heq
    exact hle i hc
  · exact h.other i c heq hc hn

/-- The hole is swapped with the place above it, which was not greater. -/
theorem HeapBut.rise (h : HeapBut f n hole) {p : Nat} (hp : IsChild hole p) (hn : hole < n)
    (hle : f p ≤ f hole) : HeapBut (f ∘ Equiv.swap p hole) n p := by
  have hbelow : ∀ c, IsChild c p → c < n → f (Equiv.swap p hole c) ≤ f p := by
    intro c hc hcn
    by_cases heq : c = hole
    · rw [heq, Equiv.swap_apply_right]
    · rw [Equiv.swap_apply_of_ne_of_ne hc.lt.ne' heq]
      exact h.other p c heq hc hcn
  constructor
  · intro i c hcp hc hcn
    rw [comp_apply, comp_apply]
    by_cases hip : i = p
    · rw [hip, Equiv.swap_apply_left]
      exact (hbelow c (hip ▸ hc) hcn).trans hle
    · have hch : c ≠ hole := fun heq => hip (hc.unique (heq ▸ hp))
      rw [Equiv.swap_apply_of_ne_of_ne hcp hch]
      by_cases hih : i = hole
      · rw [hih, Equiv.swap_apply_right]
        exact h.around p c hp (hih ▸ hc) hcn
      · rw [Equiv.swap_apply_of_ne_of_ne hip hih]
        exact h.other i c hch hc hcn
  · intro q c hq hc hcn
    have hqh := (hq.lt.trans hp.lt).ne
    rw [comp_apply, comp_apply, Equiv.swap_apply_of_ne_of_ne hq.lt.ne hqh]
    exact (hbelow c hc hcn).trans (h.other q p hp.lt.ne hq (hp.lt.trans hn))

theorem HeapFrom.le_root (h : HeapFrom f 0 n) (i : Nat) : i < n → f i ≤ f 0 := by
  induction i using Nat.strong_induction_on with
  | _ i ih =>
    intro hi
    rcases Nat.eq_zero_or_pos i with rfl | hpos
    · exact le_rfl
    · have hchild : IsChild i ((i - 1) / 2) := by
        rw [IsChild]
        omega
      exact (h _ i (Nat.zero_le _) hchild hi).trans (ih _ hchild.lt (hchild.lt.trans hi))

/-- The root goes behind the heap, and the last place comes to the root. -/
theorem HeapFrom.swap_root (h : HeapFrom f 0 (n + 1)) : HeapExcept (f ∘ Equiv.swap 0 n) 0 n 0 := by
  constructor
  · intro i c _ hi hc hn
    have hc0 : c ≠ 0 := (Nat.zero_lt_of_lt hc.lt).ne'
    rw [comp_apply, comp_apply, Equiv.swap_apply_of_ne_of_ne hc0 hn.ne,
      Equiv.swap_apply_of_ne_of_ne hi (hc.lt.trans hn).ne]
    exact h i c (Nat.zero_le _) hc (Nat.lt_succ_of_lt hn)
  · intro p c _ hp
    exact absurd hp.lt (Nat.not_lt_zero p)

end NsuLabs.Lib
