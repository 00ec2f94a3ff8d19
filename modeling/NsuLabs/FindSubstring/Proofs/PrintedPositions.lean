/-
Module: NsuLabs.FindSubstring.Proofs.PrintedPositions
Purpose: The Boyer-Moore and the Rabin-Karp program test the first window only for an empty text, so in a
  shorter text than the pattern they compare behind its end.
Trusted boundary: none
Main exports: printed_inside_iff
-/
import NsuLabs.FindSubstring.Proofs.BoyerMoore
import NsuLabs.FindSubstring.Proofs.RabinKarp

namespace NsuLabs.FindSubstring

open Lib List

variable {pattern text : List UInt8}

/-- The positions, counted from 1, are in the text. -/
def Inside (text : List UInt8) (printed : List Nat) : Prop := ∀ x ∈ printed, 1 ≤ x ∧ x ≤ text.length

/-- The Boyer-Moore program ends, and compares only in the text. -/
def BoyerMooreInside (memory : Buffer) (pattern text : List UInt8) : Prop :=
  ∃ visits, BoyerMoore.findSubstring memory pattern text = some visits ∧
    Inside text (visits.flatMap BoyerMoore.Visit.printed)

/-- The Rabin-Karp program ends, and compares only in the text. -/
def RabinKarpInside (memory : Buffer) (pattern text : List UInt8) : Prop :=
  ∃ patternHash visits, RabinKarp.findSubstring memory pattern text = some (patternHash, visits) ∧
    Inside text (visits.flatMap RabinKarp.Visit.printed)

theorem inside_flatMap {ρ : Type} {printed : ρ → List Nat} {visits : List ρ}
    (h : ∀ visit ∈ visits, Inside text (printed visit)) : Inside text (visits.flatMap printed) := by
  intro x hx
  obtain ⟨visit, hvisit, hx⟩ := mem_flatMap.mp hx
  exact h visit hvisit x hx

theorem boyerMooreInside_of_le (pattern : Pattern) (hlength : pattern.bytes.length ≤ text.length)
    (memory : Buffer) : BoyerMooreInside memory pattern.bytes text := by
  obtain ⟨visits, hrun, hvisits⟩ := BoyerMoore.findSubstring_visits pattern hlength memory
  refine ⟨visits, hrun, inside_flatMap fun visit hvisit => ?_⟩
  obtain ⟨p, p', -, -, -, hspec⟩ := hvisits.exists_of_mem visit hvisit
  exact hspec.1

theorem rabinKarpInside_of_le (pattern : Pattern) (hlength : pattern.bytes.length ≤ text.length)
    (memory : Buffer) : RabinKarpInside memory pattern.bytes text := by
  obtain ⟨visits, hrun, hvisits⟩ := RabinKarp.findSubstring_visits pattern hlength memory
  refine ⟨_, visits, hrun, inside_flatMap fun visit hvisit => ?_⟩
  obtain ⟨p, p', -, -, -, hspec⟩ := hvisits.exists_of_mem visit hvisit
  exact hspec.1

/-- The first position that is compared is that of the last character of the first window. -/
theorem BoyerMoore.length_mem_printed (hpattern : pattern ≠ []) (htext : text ≠ [])
    {memory : Buffer} {visits : List BoyerMoore.Visit}
    (h : BoyerMoore.findSubstring memory pattern text = some visits) :
    pattern.length ∈ visits.flatMap BoyerMoore.Visit.printed := by
  have hnonempty : (BoyerMoore.initSearchWindow memory text).isEmpty = false := by
    change (!decide ((text.take BoyerMoore.bufferSize).length > 0)) = false
    rw [length_take, Bool.not_eq_false', decide_eq_true_eq]
    exact lt_min (by decide) (length_pos_iff.mpr htext)
  rw [BoyerMoore.findSubstring] at h
  rw [searchLoop_succ hnonempty rfl, Option.map_eq_some_iff] at h
  obtain ⟨rest, -, rfl⟩ := h
  obtain ⟨k, hk⟩ := Nat.exists_eq_succ_of_ne_zero (length_pos_iff.mpr hpattern).ne'
  refine mem_flatMap.mpr ⟨_, mem_cons_self, List.mem_map.mpr ⟨k, ?_, ?_⟩⟩
  · change k ∈ (comparePositions _ (List.range pattern.length).reverse).1
    rw [hk, range_succ, reverse_append, reverse_singleton, singleton_append, comparePositions]
    split <;> exact mem_cons_self
  · change 0 + k + 1 = pattern.length
    rw [hk, Nat.zero_add]

/-- Both programs compare only in the text just if the text is empty or not shorter than the
    pattern. -/
theorem printed_inside_iff (pattern : Pattern) (text : List UInt8) (memory memory' : Buffer) :
    BoyerMooreInside memory pattern.bytes text ∧ RabinKarpInside memory' pattern.bytes text ↔
      text = [] ∨ pattern.bytes.length ≤ text.length := by
  constructor
  · rintro ⟨⟨visits, hrun, hinside⟩, -⟩
    refine or_iff_not_imp_left.mpr fun htext => ?_
    exact (hinside _ (BoyerMoore.length_mem_printed pattern.nonempty htext hrun)).2
  · rintro (rfl | hlength)
    -- the loops are not entered
    · exact ⟨⟨[], rfl, fun x hx => absurd hx not_mem_nil⟩, ⟨_, [], rfl, fun x hx => absurd hx not_mem_nil⟩⟩
    · exact ⟨boyerMooreInside_of_le pattern hlength memory, rabinKarpInside_of_le pattern hlength memory'⟩

/-- The second character of `ab` is compared with what is behind the end of the text `a`. If that is
    by chance a `b`, the Rabin-Karp program even finds the pattern. -/
theorem shortText_not_inside :
    BoyerMoore.findSubstring (fun _ => 0) [97, 98] [97] = some [⟨0, [2], false⟩] ∧
      RabinKarp.findSubstring (fun _ => 98) [97, 98] [97] = some (7, [⟨0, 7, [1, 2], true⟩]) ∧
      ¬ Inside [97] [2] := by
  refine ⟨by decide +kernel, by decide +kernel, fun h => ?_⟩
  exact absurd (h 2 (mem_singleton_self 2)).2 (by decide)

end NsuLabs.FindSubstring
