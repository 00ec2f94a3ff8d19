/-
Module: NsuLabs.Lib.Positional
Purpose: Numbers in positional notation, the most significant digit first, also with digits behind a point:
  their value, the digits of an integer and of a fraction. The words over a finite alphabet by length and by
  the number whose digits are the positions of their letters, the least significant first. Text files as C++
  streams read and write them: unsigned decimal numbers and lines.
Trusted boundary: The "C" locale, in which numbers are not grouped.
Main exports: numberOf, pointed, integerDigits, wordOf, wordsUpTo, printSize, readSize
-/
import Mathlib

namespace NsuLabs.Lib

open List

/-- The number with the digits `ds`. -/
def numberOf (b : Nat) (ds : List Nat) : Nat := Nat.ofDigits b ds.reverse

/-- The number with the digits `I` in front of the point and `F` behind it. -/
def pointed (b : Nat) (I F : List Nat) : ℚ := numberOf b I + numberOf b F / b ^ F.length

/-- The digits of an integer; zero has one digit. -/
def integerDigits (b n : Nat) : List Nat := if n = 0 then [0] else (Nat.digits b n).reverse

/-- The digits of `num / den` behind the point, until nothing is left or there are `k` digits. -/
def fractionDigits (b den : Nat) : (k num : Nat) → List Nat
  | 0, _ => []
  | k + 1, num => if num = 0 then [] else num * b / den :: fractionDigits b den k (num * b % den)

/-- The digits `I` and `F` are those of `x`, rounded down to `k` digits behind the point. There are
    no more digits behind the point than `x` has, and none in front that could be left out. -/
structure IsExpansion (b k : Nat) (x : ℚ) (I F : List Nat) : Prop where
  nonempty : I ≠ []
  digits : ∀ d ∈ I ++ F, d < b
  integer : (numberOf b I : ℤ) = ⌊x⌋
  no_leading_zero : I.head? = some 0 → I = [0]
  value : pointed b I F = ⌊x * b ^ k⌋ / b ^ k
  length_le : F.length ≤ k
  complete : F.length = k ∨ ∃ z : ℤ, x * b ^ F.length = z
  needed : ∀ m < F.length, ¬ ∃ z : ℤ, x * b ^ m = z

/-! ### The value of digits -/

section

variable {b : Nat} {ds : List Nat}

theorem numberOf_nil (b : Nat) : numberOf b [] = 0 := rfl

theorem numberOf_cons (d : Nat) (ds : List Nat) :
    numberOf b (d :: ds) = d * b ^ ds.length + numberOf b ds := by
  rw [numberOf, reverse_cons, Nat.ofDigits_append, Nat.ofDigits_singleton, length_reverse, numberOf]
  ring

theorem numberOf_lt (hb : 1 < b) (h : ∀ d ∈ ds, d < b) : numberOf b ds < b ^ ds.length := by
  rw [numberOf, ← length_reverse]
  exact Nat.ofDigits_lt_base_pow_length hb fun d hd => h d (mem_reverse.mp hd)

/-! ### Integers -/

theorem numberOf_integerDigits (b n : Nat) : numberOf b (integerDigits b n) = n := by
  rw [integerDigits]
  split
  · subst n
    rfl
  · rw [numberOf, reverse_reverse, Nat.ofDigits_digits]

theorem integerDigits_ne_nil (b n : Nat) : integerDigits b n ≠ [] := by
  rw [integerDigits]
  split
  · exact cons_ne_nil 0 []
  · rw [Ne, reverse_eq_nil_iff]
    exact Nat.digits_ne_nil_iff_ne_zero.mpr ‹_›

theorem integerDigits_lt (hb : 1 < b) {n d : Nat} (hd : d ∈ integerDigits b n) : d < b := by
  rw [integerDigits] at hd
  split at hd
  · rw [mem_singleton.mp hd]
    omega
  · exact Nat.digits_lt_base hb (mem_reverse.mp hd)

theorem integerDigits_head {n : Nat} (h : (integerDigits b n).head? = some 0) : integerDigits b n = [0] := by
  rw [integerDigits] at h ⊢
  split at h
  · rw [if_pos ‹_›]
  · rename_i hn
    rw [head?_reverse, getLast?_eq_some_getLast (Nat.digits_ne_nil_iff_ne_zero.mpr hn)] at h
    exact absurd (Option.some.inj h) (Nat.getLast_digit_ne_zero b hn)

theorem length_integerDigits_le (hb : 1 < b) {n k : Nat} (hk : 0 < k) (hn : n < b ^ k) :
    (integerDigits b n).length ≤ k := by
  rw [integerDigits]
  split
  · exact hk
  · rw [length_reverse]
    exact (Nat.digits_length_le_iff hb n).mpr hn

/-- One digit more at the end: one division by the base. -/
theorem integerDigits_of_lt (hb : 1 < b) {n : Nat} (hn : n / b = 0) : integerDigits b n = [n % b] := by
  have hlt : n < b := (Nat.div_eq_zero_iff_lt (by omega)).mp hn
  rw [integerDigits, Nat.mod_eq_of_lt hlt]
  split
  · subst n
    rfl
  · rw [Nat.digits_of_lt b n ‹_› hlt, reverse_singleton]

theorem integerDigits_of_le (hb : 1 < b) {n : Nat} (hn : n / b ≠ 0) :
    integerDigits b n = integerDigits b (n / b) ++ [n % b] := by
  have hpos : n ≠ 0 := by
    rintro rfl
    exact hn (Nat.zero_div b)
  rw [integerDigits, if_neg hpos, integerDigits, if_neg hn, Nat.digits_def' hb (Nat.pos_of_ne_zero hpos),
    reverse_cons]

/-! ### Fractions -/

/-- What the long division keeps: the digits so far, and the rest that is left. -/
theorem fractionDigits_spec {den : Nat} (hb : 1 < b) (k : Nat) :
    ∀ num < den, ∃ rest < den,
      num * b ^ (fractionDigits b den k num).length = numberOf b (fractionDigits b den k num) * den + rest ∧
      ((fractionDigits b den k num).length = k ∨ rest = 0) ∧ (fractionDigits b den k num).length ≤ k ∧
      (∀ d ∈ fractionDigits b den k num, d < b) ∧
      ∀ m < (fractionDigits b den k num).length, ¬ den ∣ num * b ^ m := by
  induction k with
  | zero =>
    intro num hnum
    refine ⟨num, hnum, ?_, .inl rfl, le_rfl, fun d hd => absurd hd not_mem_nil, fun m hm => ?_⟩
    · simp [fractionDigits, numberOf_nil]
    · exact absurd hm (Nat.not_lt_zero m)
  | succ k ih =>
    intro num hnum
    by_cases hzero : num = 0
    · refine ⟨0, by omega, ?_⟩
      simp [fractionDigits, hzero, numberOf_nil]
    · have hden : 0 < den := by omega
      obtain ⟨rest, hrest, hvalue, hstop, hlength, hdigits, hneeded⟩ :=
        ih (num * b % den) (Nat.mod_lt _ hden)
      have hdivision : num * b = num * b / den * den + num * b % den := (Nat.div_add_mod' _ _).symm
      rw [fractionDigits, if_neg hzero]
      generalize hF : fractionDigits b den k (num * b % den) = F at hvalue hstop hlength hdigits hneeded ⊢
      refine ⟨rest, hrest, ?_, ?_, ?_, ?_, ?_⟩
      · rw [length_cons, pow_succ', ← mul_assoc, numberOf_cons]
        nth_rewrite 1 [hdivision]
        rw [add_mul, hvalue]
        ring
      · exact hstop.imp_left (congrArg Nat.succ)
      · exact Nat.succ_le_succ hlength
      · intro d hd
        rcases mem_cons.mp hd with rfl | hd
        · rw [Nat.div_lt_iff_lt_mul hden, mul_comm b]
          exact Nat.mul_lt_mul_of_pos_right hnum (by omega)
        · exact hdigits d hd
      · intro m hm
        rcases m with _ | m
        · rw [pow_zero, mul_one]
          exact Nat.not_dvd_of_pos_of_lt (Nat.pos_of_ne_zero hzero) hnum
        · -- a multiple of `den` more or less does not matter
          intro hdvd
          refine hneeded m (Nat.lt_of_succ_lt_succ hm) ?_
          rw [pow_succ', ← mul_assoc, hdivision, add_mul] at hdvd
          refine (Nat.dvd_add_right ?_).mp hdvd
          exact Dvd.dvd.mul_right (Dvd.intro_left _ rfl) _

/-! ### Both parts -/

variable {n num den : Nat}

/-- Whether `b ^ m` makes the number an integer. -/
theorem exists_int_iff_dvd (hden : 0 < den) (m : Nat) :
    (∃ z : ℤ, ((n : ℚ) + num / den) * b ^ m = z) ↔ den ∣ num * b ^ m := by
  have hden' : (den : ℚ) ≠ 0 := Nat.cast_ne_zero.mpr hden.ne'
  constructor
  · rintro ⟨z, hz⟩
    have hmul : (num * b ^ m : ℚ) = den * (z - n * b ^ m) := by
      rw [← hz]
      field_simp
      ring
    have hint : ((num * b ^ m : Nat) : ℤ) = den * (z - n * b ^ m) := by exact_mod_cast hmul
    exact Int.natCast_dvd_natCast.mp ⟨_, hint⟩
  · rintro ⟨q, hq⟩
    refine ⟨n * b ^ m + q, ?_⟩
    have hq' : (num * b ^ m : ℚ) = den * q := by exact_mod_cast hq
    push_cast
    rw [add_mul, div_mul_eq_mul_div, hq', mul_div_cancel_left₀ _ hden']

theorem floor_shifted (k : Nat) :
    ⌊((n : ℚ) + num / den) * b ^ k⌋ = ((n * b ^ k + num * b ^ k / den : Nat) : ℤ) := by
  have hsplit : ((n : ℚ) + num / den) * b ^ k =
      ((n * b ^ k : Nat) : ℚ) + (num * b ^ k : Nat) / (den : Nat) := by
    push_cast
    ring
  rw [hsplit, Int.floor_natCast_add, Rat.floor_natCast_div_natCast]
  push_cast
  rfl

theorem isExpansion_of_digits (hb : 1 < b) (k : Nat) (hlt : num < den) :
    IsExpansion b k ((n : ℚ) + num / den) (integerDigits b n) (fractionDigits b den k num) := by
  have hden : 0 < den := by omega
  obtain ⟨rest, hrest, hvalue, hstop, hlength, hdigits, hneeded⟩ := fractionDigits_spec hb k num hlt
  generalize fractionDigits b den k num = F at hvalue hstop hlength hdigits hneeded ⊢
  -- the digits are the quotient, up to the places that are left out
  have hquotient : num * b ^ k / den = numberOf b F * b ^ (k - F.length) := by
    rw [← Nat.add_sub_cancel' hlength, pow_add, ← mul_assoc, hvalue, Nat.add_sub_cancel_left]
    rcases hstop with hstop | rfl
    · rw [hstop, Nat.sub_self, pow_zero, mul_one, mul_one, mul_comm, Nat.mul_add_div hden,
        Nat.div_eq_of_lt hrest, Nat.add_zero]
    · rw [Nat.add_zero, mul_right_comm, Nat.mul_div_cancel _ hden]
  refine ⟨integerDigits_ne_nil b n, fun d hd => ?_, ?_, integerDigits_head, ?_, hlength, ?_, fun m hm => ?_⟩
  · rcases mem_append.mp hd with hd | hd
    · exact integerDigits_lt hb hd
    · exact hdigits d hd
  · have hfloor := @floor_shifted b n num den 0
    simp only [pow_zero, mul_one, Nat.div_eq_of_lt hlt, Nat.add_zero] at hfloor
    rw [hfloor, numberOf_integerDigits]
  · rw [pointed, numberOf_integerDigits, floor_shifted, hquotient]
    have hbase : (b : ℚ) ≠ 0 := Nat.cast_ne_zero.mpr (by omega)
    have hpow : (b : ℚ) ^ k = b ^ F.length * b ^ (k - F.length) := by
      rw [← pow_add, Nat.add_sub_cancel' hlength]
    push_cast
    rw [hpow]
    field_simp
  · refine hstop.imp_right ?_
    rintro rfl
    exact (exists_int_iff_dvd hden _).mpr ⟨numberOf b F, by rw [hvalue, Nat.add_zero, mul_comm]⟩
  · rw [exists_int_iff_dvd hden]
    exact hneeded m hm

end

universe u

variable {α : Type u} {a b n : Nat} {xs alphabet w : List α}

/-! ### Slices -/

/-- The elements at the places from `a` to `b`, `b` excluded. -/
def slice (a b : Nat) (xs : List α) : List α := (xs.take b).drop a

theorem slice_of_length_le (h : xs.length ≤ a) : slice a b xs = [] := by
  apply drop_eq_nil_of_le
  rw [length_take]
  omega

theorem slice_append (a b : Nat) (xs ys : List α) :
    slice a b (xs ++ ys) = slice a b xs ++ slice (a - xs.length) (b - xs.length) ys := by
  rw [slice, take_append, drop_append, slice, slice]
  congr 1
  rcases Nat.le_total b xs.length with hb | hb
  · have hzero : b - xs.length = 0 := by omega
    simp [hzero]
  · rw [length_take, Nat.min_eq_right hb]

theorem slice_append_slice {c : Nat} (hab : a ≤ b) (hbc : b ≤ c) (xs : List α) :
    slice a b xs ++ slice b c xs = slice a c xs := by
  have hsplit : xs.take c = xs.take b ++ (xs.take c).drop b := by
    conv_lhs => rw [← take_append_drop b (xs.take c), take_take, Nat.min_eq_left hbc]
  rw [slice, slice, slice]
  conv_rhs => rw [hsplit, drop_append]
  congr 1
  rcases Nat.le_total b xs.length with hb | hb
  · have hzero : a - (xs.take b).length = 0 := by
      rw [length_take]
      omega
    rw [hzero, drop_zero]
  · have hnil : (xs.take c).drop b = [] := by
      apply drop_eq_nil_of_le
      rw [length_take]
      omega
    rw [hnil, drop_nil]

theorem slice_succ {x : α} (hab : a ≤ b) (hx : xs[b]? = some x) :
    slice a (b + 1) xs = slice a b xs ++ [x] := by
  rw [slice, take_add_one, hx, Option.toList_some, drop_append, slice]
  obtain ⟨hb, -⟩ := List.getElem?_eq_some_iff.1 hx
  have hzero : a - (xs.take b).length = 0 := by
    rw [length_take]
    omega
  rw [hzero, drop_zero]

theorem slice_self (a : Nat) (xs : List α) : slice a a xs = [] := by
  apply drop_eq_nil_of_le
  rw [length_take]
  omega

theorem slice_length (xs : List α) : slice 0 xs.length xs = xs := by
  rw [slice, take_length, drop_zero]

theorem slice_of_le_length_left {ys : List α} (hb : b ≤ xs.length) :
    slice a b (xs ++ ys) = slice a b xs := by
  rw [slice_append, Nat.sub_eq_zero_of_le hb]
  simp [slice]

theorem slice_min_length (a b : Nat) (xs : List α) : slice a (min b xs.length) xs = slice a b xs := by
  rw [slice, slice, ← take_take, take_length]

/-- Consecutive slices, cut at increasing places. -/
theorem flatMap_slice (cut : Nat → Nat) (hcut : Monotone cut) (n : Nat) (xs : List α) :
    (List.range n).flatMap (fun p => slice (cut p) (cut (p + 1)) xs) = slice (cut 0) (cut n) xs := by
  induction n with
  | zero => rw [range_zero, flatMap_nil, slice_self]
  | succ n ih =>
    rw [range_succ, flatMap_append, ih, flatMap_singleton]
    exact slice_append_slice (hcut (Nat.zero_le n)) (hcut (Nat.le_succ n)) xs

/-! ### Words of one length -/

/-- The word of length `n` with a given index; empty over the empty alphabet. -/
def wordOf (alphabet : List α) : Nat → Nat → List α
  | 0, _ => []
  | n + 1, index =>
    (alphabet[index % alphabet.length]?).toList ++ wordOf alphabet n (index / alphabet.length)

/-- The words of length `n` in the order of their indices. -/
def blockWords (alphabet : List α) (n : Nat) : List (List α) :=
  (List.range (alphabet.length ^ n)).map (wordOf alphabet n)

theorem length_blockWords (alphabet : List α) (n : Nat) :
    (blockWords alphabet n).length = alphabet.length ^ n := by
  rw [blockWords, length_map, length_range]

theorem wordOf_succ (n index : Nat) (h : index % alphabet.length < alphabet.length) :
    wordOf alphabet (n + 1) index =
      alphabet[index % alphabet.length] :: wordOf alphabet n (index / alphabet.length) := by
  rw [wordOf, getElem?_eq_getElem h]
  rfl

/-- A word of length `n` over the alphabet is the word of one index below `k ^ n`. -/
theorem exists_index (w : List α) (hw : ∀ c ∈ w, c ∈ alphabet) :
    ∃ index < alphabet.length ^ w.length, wordOf alphabet w.length index = w := by
  induction w with
  | nil => exact ⟨0, by simp, rfl⟩
  | cons c w ih =>
    obtain ⟨index, hindex, hword⟩ := ih fun d hd => hw d (by simp [hd])
    obtain ⟨i, hi, rfl⟩ := mem_iff_getElem.1 (hw c (by simp))
    have hmod : (i + alphabet.length * index) % alphabet.length = i := by
      rw [Nat.add_mul_mod_self_left, Nat.mod_eq_of_lt hi]
    have hdiv : (i + alphabet.length * index) / alphabet.length = index := by
      rw [Nat.add_mul_div_left _ _ (by omega), Nat.div_eq_of_lt hi, Nat.zero_add]
    refine ⟨i + alphabet.length * index, ?_, ?_⟩
    · calc i + alphabet.length * index
          < alphabet.length + alphabet.length * index := by omega
        _ = alphabet.length * (index + 1) := by ring
        _ ≤ alphabet.length * alphabet.length ^ w.length := Nat.mul_le_mul_left _ hindex
        _ = alphabet.length ^ (alphabet[i] :: w).length := by rw [length_cons, pow_succ']
    · rw [length_cons, wordOf_succ _ _ (by rw [hmod]; exact hi), hdiv, hword]
      simp only [hmod]

theorem index_unique (hnodup : alphabet.Nodup) (n : Nat) :
    ∀ {i j : Nat}, i < alphabet.length ^ n → j < alphabet.length ^ n →
      wordOf alphabet n i = wordOf alphabet n j → i = j := by
  induction n with
  | zero =>
    intro i j hi hj _
    rw [pow_zero] at hi hj
    omega
  | succ n ih =>
    intro i j hi hj hword
    have hpos : 0 < alphabet.length := by
      rcases Nat.eq_zero_or_pos alphabet.length with hzero | hpos
      · simp [hzero] at hi
      · exact hpos
    rw [wordOf_succ _ _ (Nat.mod_lt i hpos), wordOf_succ _ _ (Nat.mod_lt j hpos), cons.injEq] at hword
    obtain ⟨hletter, hrest⟩ := hword
    have hmod : i % alphabet.length = j % alphabet.length := (hnodup.getElem_inj_iff).1 hletter
    rw [pow_succ] at hi hj
    have hdiv : i / alphabet.length = j / alphabet.length :=
      ih (Nat.div_lt_of_lt_mul (by rwa [mul_comm])) (Nat.div_lt_of_lt_mul (by rwa [mul_comm])) hrest
    rw [← Nat.div_add_mod i alphabet.length, ← Nat.div_add_mod j alphabet.length, hmod, hdiv]

theorem length_wordOf (hpos : 0 < alphabet.length) (n index : Nat) :
    (wordOf alphabet n index).length = n := by
  induction n generalizing index with
  | zero => rfl
  | succ n ih => rw [wordOf_succ _ _ (Nat.mod_lt index hpos), length_cons, ih]

theorem mem_of_mem_wordOf {index : Nat} {c : α} (hc : c ∈ wordOf alphabet n index) :
    c ∈ alphabet := by
  induction n generalizing index with
  | zero => simp [wordOf] at hc
  | succ n ih =>
    rw [wordOf, mem_append] at hc
    rcases hc with hc | hc
    · exact mem_of_getElem? (Option.mem_toList.1 hc)
    · exact ih hc

theorem mem_blockWords (hn : 0 < n) :
    w ∈ blockWords alphabet n ↔ w.length = n ∧ ∀ c ∈ w, c ∈ alphabet := by
  rw [blockWords, List.mem_map]
  constructor
  · rintro ⟨index, hindex, rfl⟩
    have hpos : 0 < alphabet.length := by
      rcases Nat.eq_zero_or_pos alphabet.length with hzero | hpos
      · rw [hzero, zero_pow (by omega)] at hindex
        simp at hindex
      · exact hpos
    exact ⟨length_wordOf hpos n index, fun c hc => mem_of_mem_wordOf hc⟩
  · rintro ⟨rfl, hw⟩
    obtain ⟨index, hindex, hword⟩ := exists_index w hw
    exact ⟨index, mem_range.2 hindex, hword⟩

theorem nodup_blockWords (hnodup : alphabet.Nodup) (n : Nat) :
    (blockWords alphabet n).Nodup := by
  apply Nodup.map_on _ nodup_range
  intro i hi j hj hword
  exact index_unique hnodup n (mem_range.1 hi) (mem_range.1 hj) hword

/-! ### Words up to a length -/

/-- The words of length `1` to `n`, shorter words first. -/
def wordsUpTo (alphabet : List α) : Nat → List (List α)
  | 0 => []
  | n + 1 => wordsUpTo alphabet n ++ blockWords alphabet (n + 1)

/-- The number of words of length `1` to `n` over an alphabet of size `k`. -/
def wordCount (k : Nat) : Nat → Nat
  | 0 => 0
  | n + 1 => wordCount k n + k ^ (n + 1)

theorem length_wordsUpTo (alphabet : List α) (n : Nat) :
    (wordsUpTo alphabet n).length = wordCount alphabet.length n := by
  induction n with
  | zero => rfl
  | succ n ih => rw [wordsUpTo, length_append, ih, length_blockWords, wordCount]

theorem wordCount_mono (k : Nat) : Monotone (wordCount k) :=
  monotone_nat_of_le_succ fun n => by rw [wordCount]; exact Nat.le_add_right _ _

theorem mem_wordsUpTo :
    w ∈ wordsUpTo alphabet n ↔ 1 ≤ w.length ∧ w.length ≤ n ∧ ∀ c ∈ w, c ∈ alphabet := by
  induction n with
  | zero =>
    simp only [wordsUpTo, not_mem_nil, false_iff]
    rintro ⟨h₁, h₂, -⟩
    omega
  | succ n ih =>
    rw [wordsUpTo, mem_append, ih, mem_blockWords (Nat.succ_pos n)]
    constructor
    · rintro (⟨h₁, h₂, hw⟩ | ⟨hlen, hw⟩)
      · exact ⟨h₁, by omega, hw⟩
      · exact ⟨by omega, by omega, hw⟩
    · rintro ⟨h₁, h₂, hw⟩
      rcases Nat.lt_or_ge n w.length with hlt | hle
      · exact .inr ⟨by omega, hw⟩
      · exact .inl ⟨h₁, hle, hw⟩

theorem nodup_wordsUpTo (hnodup : alphabet.Nodup) (n : Nat) :
    (wordsUpTo alphabet n).Nodup := by
  induction n with
  | zero => exact nodup_nil
  | succ n ih =>
    apply Nodup.append ih (nodup_blockWords hnodup (n + 1))
    -- words of different lengths differ
    intro w hw hw'
    have hshort := (mem_wordsUpTo.1 hw).2.1
    have hlong := ((mem_blockWords (Nat.succ_pos n)).1 hw').1
    omega

abbrev Text := List Char

/-- `std::isspace`. -/
def isSpace (c : Char) : Bool := c = ' ' ∨ 9 ≤ c.toNat ∧ c.toNat ≤ 13

/-- `output << n` for an unsigned number. -/
def printSize (n : Nat) : Text := Nat.toDigits 10 n

/-- `input >> n` for a `size_t`: white space is skipped, a sign may follow, then the digits. Without
    a digit, or with a number that is too large, the extraction fails; a negative number wraps
    around. -/
def readSize (input : Text) : Option (Nat × Text) :=
  let input := input.dropWhile isSpace
  let negative := input.head? = some '-'
  let input := if input.head? = some '-' ∨ input.head? = some '+' then input.tail else input
  let digits := input.takeWhile Char.isDigit
  let n := Nat.ofDigitChars 10 digits 0
  if digits = [] ∨ 2 ^ 64 ≤ n then none
  else some (if negative then (2 ^ 64 - n) % 2 ^ 64 else n, input.dropWhile Char.isDigit)

/-- The lines that repeated `std::getline` calls find. A newline at the end of the text does not
    start a line. -/
def getlines : Text → List Text
  | [] => []
  | c :: cs =>
    if c = '\n' then [] :: getlines cs
    else
      match getlines cs with
      | [] => [[c]]
      | line :: lines => (c :: line) :: lines

theorem getlines_append {line : Text} (h : '\n' ∉ line) (text : Text) :
    getlines (line ++ '\n' :: text) = line :: getlines text := by
  induction line with
  | nil => simp [getlines]
  | cons c cs ih =>
    have hc : c ≠ '\n' := fun hc => h (by simp [hc])
    rw [cons_append, getlines, if_neg hc, ih fun hcs => h (mem_cons_of_mem _ hcs)]

/-- Lines written one after the other are the lines that are read. -/
theorem getlines_flatMap {lines : List Text} (h : ∀ line ∈ lines, '\n' ∉ line) :
    getlines (lines.flatMap fun line => line ++ ['\n']) = lines := by
  induction lines with
  | nil => rfl
  | cons line lines ih =>
    rw [flatMap_cons, append_assoc, singleton_append, getlines_append (h line mem_cons_self),
      ih fun l hl => h l (mem_cons_of_mem _ hl)]

theorem isDigit_of_mem_printSize {n : Nat} {c : Char} (h : c ∈ printSize n) : c.isDigit = true :=
  Nat.isDigit_of_mem_toDigits (by omega) le_rfl h

/-- Digits are neither white space nor signs. -/
theorem of_isDigit {c : Char} (h : c.isDigit = true) : isSpace c = false ∧ c ≠ '-' ∧ c ≠ '+' ∧ c ≠ '\n' := by
  have hle : 48 ≤ c.toNat := by
    rw [Char.isDigit, Bool.and_eq_true, decide_eq_true_eq] at h
    exact h.1
  refine ⟨?_, ?_, ?_, ?_⟩
  · have hc : c ≠ ' ' := by
      rintro rfl
      exact absurd hle (by decide)
    simp only [isSpace, hc, false_or, decide_eq_false_iff_not]
    omega
  all_goals
    rintro rfl
    exact absurd hle (by decide)

theorem newline_notin_printSize (n : Nat) : '\n' ∉ printSize n :=
  fun h => (of_isDigit (isDigit_of_mem_printSize h)).2.2.2 rfl

/-- A printed number is read back, and the text after it is left. -/
theorem readSize_printSize {n : Nat} (hn : n < 2 ^ 64) {rest : Text}
    (hrest : ∀ c ∈ rest.head?, c.isDigit = false) :
    readSize (printSize n ++ rest) = some (n, rest) := by
  have hdigits : ∀ c ∈ printSize n, c.isDigit = true := fun c => isDigit_of_mem_printSize
  have htake : (printSize n ++ rest).takeWhile Char.isDigit = printSize n := by
    rw [takeWhile_append_of_pos hdigits, append_right_eq_self]
    cases rest with
    | nil => rfl
    | cons c rest => exact takeWhile_cons_of_neg (by simpa using hrest c rfl)
  have hdrop : (printSize n ++ rest).dropWhile Char.isDigit = rest := by
    rw [dropWhile_append_of_pos hdigits]
    cases rest with
    | nil => rfl
    | cons c rest => exact dropWhile_cons_of_neg (by simpa using hrest c rfl)
  have hne : printSize n ≠ [] := Nat.toDigits_ne_nil
  have hvalue : Nat.ofDigitChars 10 (printSize n) 0 = n := Nat.ofDigitChars_toDigits (by omega) le_rfl
  obtain ⟨d, ds, hcons⟩ := exists_cons_of_ne_nil hne
  obtain ⟨hspace, hminus, hplus, -⟩ := of_isDigit (hdigits d (by simp [hcons]))
  have hskip : (printSize n ++ rest).dropWhile isSpace = printSize n ++ rest := by
    rw [hcons]
    exact dropWhile_cons_of_neg (by simp [hspace])
  have hhead : (printSize n ++ rest).head? = some d := by simp [hcons]
  simp only [readSize, hskip, hhead, Option.some_inj, hminus, hplus, or_self, if_false, htake,
    hdrop, hvalue, hne, Nat.not_le.mpr hn]

/-- A space before a number is skipped. -/
theorem readSize_space (input : Text) : readSize (' ' :: input) = readSize input := by
  rw [readSize, dropWhile_cons_of_pos (by decide)]
  rfl

end NsuLabs.Lib
