/-
Module: NsuLabs.Lib.PatternSearch
Purpose: Searching a pattern in a text from left to right.
Trusted boundary: none
Main exports: OccursAt, commonPrefixLength, Agrees
-/
import Mathlib

namespace NsuLabs.Lib

open List

universe u

/-! ### Occurrences -/

section Occurrences

variable {α : Type u}

/-- The pattern stands in the text from this position on, counted from 0. -/
def OccursAt (pattern text : List α) (p : Nat) : Prop := pattern <+: text.drop p

instance [DecidableEq α] (pattern text : List α) (p : Nat) : Decidable (OccursAt pattern text p) :=
  inferInstanceAs (Decidable (pattern <+: text.drop p))

/-- The length of the longest common prefix of two lists. -/
def commonPrefixLength [DecidableEq α] : List α → List α → Nat
  | x :: xs, y :: ys => if x = y then commonPrefixLength xs ys + 1 else 0
  | _, _ => 0

/-- The first `k` symbols of the pattern stand in the text at `p`. -/
def Agrees (s t : Nat → α) (p k : Nat) : Prop := ∀ i < k, t (p + i) = s i

/-- Any value stands for the symbols behind the end of the lists. -/
theorem occursAt_iff {pattern text : List α} (hpattern : pattern ≠ []) (p : Nat) (d : α) :
    OccursAt pattern text p ↔
      p + pattern.length ≤ text.length ∧ Agrees (pattern.getD · d) (text.getD · d) p pattern.length := by
  have hpos : 0 < pattern.length := length_pos_iff.mpr hpattern
  have hget : ∀ {i}, i < pattern.length → p + pattern.length ≤ text.length →
      (text.getD (p + i) d = pattern.getD i d ↔ text[p + i]? = pattern[i]?) := by
    intro i hi hlength
    have hi' : p + i < text.length := by omega
    rw [getD_eq_getElem _ _ hi, getD_eq_getElem _ _ hi', getElem?_eq_getElem hi,
      getElem?_eq_getElem hi', Option.some.injEq]
  rw [OccursAt, prefix_iff_getElem?]
  constructor
  · intro h
    have hlast := h (pattern.length - 1) (by omega)
    rw [getElem?_drop] at hlast
    have hlength := (List.getElem?_eq_some_iff.mp hlast).1
    refine ⟨by omega, fun i hi => (hget hi (by omega)).mpr ?_⟩
    rw [← getElem?_drop, h i hi, getElem?_eq_getElem hi]
  · rintro ⟨hlength, hagrees⟩ i hi
    rw [getElem?_drop, (hget hi hlength).mp (hagrees i hi), getElem?_eq_getElem hi]

theorem commonPrefixLength_eq [DecidableEq α] {l : Nat} : ∀ {xs ys : List α}, l ≤ xs.length →
    (∀ i < l, ys[i]? = xs[i]?) → l = xs.length ∨ ys[l]? ≠ xs[l]? → commonPrefixLength xs ys = l := by
  induction l with
  | zero =>
    intro xs ys _ _ hstop
    cases xs with
    | nil => rw [commonPrefixLength]; simp
    | cons x xs =>
      cases ys with
      | nil => rw [commonPrefixLength]; simp
      | cons y ys =>
        rw [commonPrefixLength, if_neg]
        rintro rfl
        rcases hstop with hzero | hne
        · cases hzero
        · exact hne rfl
  | succ l ih =>
    intro xs ys hl hagrees hstop
    cases xs with
    | nil => cases hl
    | cons x xs =>
      have hfirst := hagrees 0 l.succ_pos
      cases ys with
      | nil => cases hfirst
      | cons y ys =>
        cases hfirst
        rw [commonPrefixLength, if_pos rfl, ih (Nat.le_of_succ_le_succ hl)]
        · exact fun i hi => hagrees (i + 1) (Nat.succ_lt_succ hi)
        · exact hstop.imp_left Nat.succ.inj

theorem commonPrefixLength_eq_length_iff [DecidableEq α] (xs ys : List α) :
    commonPrefixLength xs ys = xs.length ↔ xs <+: ys := by
  fun_induction commonPrefixLength xs ys with
  | case1 xs y ys ih => rw [length_cons, Nat.add_right_cancel_iff, ih, cons_prefix_cons, and_iff_right rfl]
  | case2 x xs y ys hne => simp [cons_prefix_cons, hne]
  | case3 xs ys h =>
    cases xs with
    | nil => simp
    | cons x xs =>
      cases ys with
      | nil => simp
      | cons y ys => exact absurd rfl (h x xs y ys rfl)

end Occurrences

/-! ### Borders -/

section Borders

variable {α : Type u} {s t : Nat → α} {q k j p l : Nat}

/-- The first `k` of the first `q` symbols are also the last `k` of them. -/
def Border (s : Nat → α) (q k : Nat) : Prop := k < q ∧ ∀ i < k, s (q - k + i) = s i

/-- `k` is the longest border. -/
structure LongestBorder (s : Nat → α) (q k : Nat) : Prop where
  border : Border s q k
  le : ∀ j, Border s q j → j ≤ k

theorem Border.zero (hq : 0 < q) : Border s q 0 := ⟨hq, fun _ hi => absurd hi (Nat.not_lt_zero _)⟩

theorem Border.trans (h : Border s q k) (h' : Border s k j) : Border s q j := by
  refine ⟨h'.1.trans h.1, fun i hi => ?_⟩
  have hindex : q - j + i = q - k + (k - j + i) := by
    have := h.1
    have := h'.1
    omega
  rw [hindex, h.2 _ (by have := h'.1; omega), h'.2 i hi]

/-- A shorter border of the same prefix is a border of the longer border. -/
theorem Border.of_lt (h : Border s q k) (h' : Border s q j) (hlt : j < k) : Border s k j := by
  refine ⟨hlt, fun i hi => ?_⟩
  have hindex : q - j + i = q - k + (k - j + i) := by
    have := h.1
    omega
  rw [← h'.2 i hi, hindex, h.2 _ (by omega)]

theorem border_succ_iff : Border s (q + 1) (k + 1) ↔ Border s q k ∧ s q = s k := by
  constructor
  · intro h
    have hlt : k < q := Nat.lt_of_succ_lt_succ h.1
    refine ⟨⟨hlt, fun i hi => ?_⟩, ?_⟩
    · rw [← h.2 i (hi.trans k.lt_succ_self), Nat.succ_sub_succ]
    · have hindex : q + 1 - (k + 1) + k = q := by omega
      rw [← h.2 k k.lt_succ_self, hindex]
  · rintro ⟨h, heq⟩
    refine ⟨Nat.succ_lt_succ h.1, fun i hi => ?_⟩
    rw [Nat.succ_sub_succ]
    rcases Nat.lt_succ_iff_lt_or_eq.mp hi with hi | rfl
    · exact h.2 i hi
    · rw [Nat.sub_add_cancel h.1.le, heq]

/-- What is left of the agreement after a shift to a border. -/
theorem Agrees.shift (h : Agrees s t p l) (hborder : Border s l k) : Agrees s t (p + (l - k)) k := by
  intro i hi
  rw [Nat.add_assoc, h _ (by have := hborder.1; omega), hborder.2 i hi]

/-- Two places that agree with the pattern and overlap give a border. -/
theorem Agrees.border (h : Agrees s t p l) {m : Nat} (hl : l ≤ m) {d : Nat} (hpos : 0 < d) (hd : d ≤ l)
    (h' : Agrees s t (p + d) m) : Border s l (l - d) := by
  refine ⟨by omega, fun i hi => ?_⟩
  have hindex : l - (l - d) + i = d + i := by omega
  rw [hindex, ← h (d + i) (by omega), ← h' i (by omega), Nat.add_assoc]

/-- No place that is skipped on the way to the longest border agrees with the pattern. -/
theorem LongestBorder.not_agrees (hborder : LongestBorder s l k) (h : Agrees s t p l) {m : Nat} (hl : l ≤ m)
    {d : Nat} (hpos : 0 < d) (hd : d < l - k) : ¬ Agrees s t (p + d) m := by
  intro h'
  have := hborder.le _ (h.border hl hpos (by omega) h')
  omega

end Borders

/-! ### The shift by one symbol -/

section BadCharacter

variable {α : Type u} [DecidableEq α] {pattern : List α}

/-- How far the last symbol of the window is from its last place in the pattern but for the end. -/
def badCharacterShift (pattern : List α) (c : α) : Nat := pattern.dropLast.reverse.findIdx (· = c) + 1

theorem badCharacterShift_pos (c : α) : 0 < badCharacterShift pattern c := Nat.succ_pos _

theorem badCharacterShift_le (hpattern : pattern ≠ []) (c : α) :
    badCharacterShift pattern c ≤ pattern.length := by
  have hpos : 0 < pattern.length := length_pos_iff.mpr hpattern
  have hle : pattern.dropLast.reverse.findIdx (· = c) ≤ pattern.dropLast.reverse.length := findIdx_le_length
  rw [length_reverse, length_dropLast] at hle
  rw [badCharacterShift]
  omega

/-- The symbol is nowhere in the part of the pattern that is skipped. -/
theorem getD_ne_of_lt_badCharacterShift (hpattern : pattern ≠ []) {c : α} {d : Nat} (hpos : 0 < d)
    (hd : d < badCharacterShift pattern c) (x : α) : pattern.getD (pattern.length - 1 - d) x ≠ c := by
  have hlength := badCharacterShift_le hpattern c
  have hbefore : d - 1 < pattern.dropLast.reverse.findIdx (· = c) := by
    rw [badCharacterShift] at hd
    omega
  have hnot := not_of_lt_findIdx hbefore
  rw [getElem_reverse, getElem_dropLast] at hnot
  intro heq
  rw [getD_eq_getElem _ _ (by omega)] at heq
  have hindex : pattern.dropLast.length - 1 - (d - 1) = pattern.length - 1 - d := by
    rw [length_dropLast]
    omega
  simp only [hindex, heq, decide_true] at hnot
  cases hnot

end BadCharacter

/-! ### Visits -/

section Visits

universe v

variable {ρ : Type v} {last : Nat} {Q : Nat → Nat → ρ → Prop}

/-- The positions up to the last one that a search looks at, if it skips so many after each. -/
def windows (skip : Nat → Nat) (last p : Nat) : List Nat :=
  if p ≤ last then p :: windows skip last (p + skip p + 1) else []
termination_by last + 1 - p

/-- What a search leaves behind, one record for each position that it visits; `Q p p' r` holds of
    the record of `p` when `p'` is next. -/
inductive Visits (last : Nat) (Q : Nat → Nat → ρ → Prop) : Nat → List ρ → Prop
  | done {p : Nat} (h : last < p) : Visits last Q p []
  | visit {p p' : Nat} {r : ρ} {rs : List ρ} (hp : p ≤ last) (hlt : p < p') (h : Q p p' r)
      (rest : Visits last Q p' rs) : Visits last Q p (r :: rs)

namespace Visits

variable {p : Nat} {rs : List ρ}

theorem exists_of_mem (h : Visits last Q p rs) : ∀ r ∈ rs, ∃ q q', p ≤ q ∧ q ≤ last ∧ q < q' ∧ Q q q' r := by
  induction h with
  | done => exact fun r hr => absurd hr not_mem_nil
  | @visit p p' r rs hp hlt h _ ih =>
    intro r' hr'
    rcases mem_cons.mp hr' with rfl | hr'
    · exact ⟨p, p', le_rfl, hp, hlt, h⟩
    · obtain ⟨q, q', hq, hrest⟩ := ih r' hr'
      exact ⟨q, q', hlt.le.trans hq, hrest⟩

/-- Positions that are never skipped are visited. -/
theorem exists_of_good (good : Nat → Prop) (h : Visits last Q p rs)
    (hskip : ∀ p p' r, Q p p' r → ∀ q, p < q → q < p' → ¬ good q) :
    ∀ q, p ≤ q → q ≤ last → good q → ∃ r ∈ rs, ∃ q', Q q q' r := by
  induction h with
  | done h => exact fun q hq hlast _ => absurd (hq.trans hlast) (not_le.mpr h)
  | @visit p p' r rs hp hlt h _ ih =>
    intro q hq hlast hgood
    rcases hq.eq_or_lt with rfl | hq
    · exact ⟨r, mem_cons_self, p', h⟩
    · by_cases hnext : q < p'
      · exact absurd hgood (hskip p p' r h q hq hnext)
      · obtain ⟨r', hr', hrest⟩ := ih q (not_lt.mp hnext) hlast hgood
        exact ⟨r', mem_cons_of_mem _ hr', hrest⟩

theorem pairwise {R : ρ → ρ → Prop} (h : Visits last Q p rs)
    (hR : ∀ p p' r q q' r', p < q → Q p p' r → Q q q' r' → R r r') : rs.Pairwise R := by
  induction h with
  | done => exact List.Pairwise.nil
  | @visit p p' r rs hp hlt h rest ih =>
    refine List.Pairwise.cons (fun r' hr' => ?_) ih
    obtain ⟨q, q', hq, -, -, hQ⟩ := rest.exists_of_mem r' hr'
    exact hR p p' r q q' r' (hlt.trans_le hq) h hQ

theorem eq_map_windows {skip : Nat → Nat} {record : Nat → ρ} (h : Visits last Q p rs)
    (hQ : ∀ p p' r, p ≤ last → Q p p' r → r = record p ∧ p' = p + skip p + 1) :
    rs = (windows skip last p).map record := by
  induction h with
  | done h => rw [windows, if_neg (not_le.mpr h), map_nil]
  | @visit p p' r rs hp _ h _ ih =>
    obtain ⟨rfl, rfl⟩ := hQ p p' r hp h
    rw [windows, if_pos hp, map_cons, ← ih]

end Visits

end Visits

end NsuLabs.Lib
