/-
Module: NsuLabs.FindSubstring.Proofs.BoyerMoore
Purpose: The Boyer-Moore program refines the search by the last character of the window on the text as a
  whole, which has no buffer, and finds all occurrences of a pattern in a text without NUL.
Trusted boundary: none
Main exports: findSubstring_refines
-/
import NsuLabs.FindSubstring.Proofs.SearchWindow

namespace NsuLabs.FindSubstring.BoyerMoore

open Lib List

variable {pattern text : List UInt8}

/-! ### The table of shifts -/

theorem setShift_apply (substring : List UInt8) (table : UInt8 → Nat) (pos : Nat) (c : UInt8) :
    setShift substring table pos c =
      if table c = substring.length ∧ cString substring pos = c then substring.length - pos - 1
      else table c := by
  rw [setShift]
  by_cases hc : cString substring pos = c
  · subst hc
    split
    case isTrue h => rw [Function.update_self, if_pos ⟨h, rfl⟩]
    case isFalse h => rw [if_neg fun hboth => h hboth.1]
  · have hright : ¬ (table c = substring.length ∧ cString substring pos = c) := fun hboth => hc hboth.2
    rw [if_neg hright]
    split
    · exact Function.update_of_ne (Ne.symm hc) ..
    · rfl

/-- The loop over the first `k` places of the substring, from right to left. -/
theorem foldl_setShift {substring : List UInt8} {k : Nat} (hk : k < substring.length) (c : UInt8) :
    ∀ table : UInt8 → Nat, (List.range k).reverse.foldl (setShift substring) table c =
      if table c = substring.length then substring.length - k + (substring.take k).reverse.findIdx (· = c)
      else table c := by
  induction k with
  | zero =>
    intro table
    change table c = _
    split
    case isTrue h => rw [h]; rfl
    case isFalse => rfl
  | succ k ih =>
    intro table
    have hk' : k < substring.length := k.lt_succ_self.trans hk
    have hchar : cString substring k = substring[k] := getD_eq_getElem _ _ hk'
    have hset := setShift_apply substring table k c
    rw [hchar] at hset
    rw [range_succ, reverse_append, reverse_singleton, singleton_append, foldl_cons, ih hk',
      take_succ_eq_append_getElem hk', reverse_append, reverse_singleton, singleton_append,
      findIdx_cons]
    by_cases htable : table c = substring.length
    · by_cases hc : substring[k] = c
      · rw [if_pos ⟨htable, hc⟩] at hset
        rw [if_neg (by omega), if_pos htable, hset, decide_eq_true hc, cond_true]
        omega
      · rw [if_neg fun hboth => hc hboth.2] at hset
        rw [hset, if_pos htable, if_pos htable, decide_eq_false hc, cond_false]
        omega
    · rw [if_neg fun hboth => htable hboth.1] at hset
      rw [hset, if_neg htable, if_neg htable]

theorem initShiftTable_eq {substring : List UInt8} (h : substring ≠ []) (c : UInt8) :
    initShiftTable substring c = badCharacterShift substring c := by
  have hpos : 0 < substring.length := length_pos_iff.mpr h
  rw [initShiftTable, foldl_setShift (by omega), if_pos rfl, badCharacterShift, dropLast_eq_take]
  omega

/-! ### The search without a buffer -/

/-- Comparing the pattern with the text at a position, from right to left. -/
def compareAt (pattern text : List UInt8) (p : Nat) : List Nat × Bool :=
  comparePositions (fun i => cString text (p + i) = cString pattern i) (List.range pattern.length).reverse

/-- The shift for the last character of the window. -/
def shiftAt (pattern text : List UInt8) (p : Nat) : Nat :=
  badCharacterShift pattern (cString text (p + pattern.length - 1))

/-- The positions that the bad-character search on the text as a whole compares, one after the
    other. -/
def unbufferedSearch (pattern text : List UInt8) : List Nat :=
  (windows (fun p => shiftAt pattern text p - 1) (text.length - pattern.length) 0).flatMap fun p =>
    (compareAt pattern text p).1.map (p + · + 1)

def visitAt (pattern text : List UInt8) (p : Nat) : Visit where
  globalIndex := p
  printed := (compareAt pattern text p).1.map (p + · + 1)
  isMatch := (compareAt pattern text p).2

theorem compareAt_snd (hpattern : pattern ≠ []) {p : Nat}
    (hp : p + pattern.length ≤ text.length) : (compareAt pattern text p).2 = true ↔
      OccursAt pattern text p := by
  rw [compareAt, comparePositions_snd, occursAt_iff hpattern p 0]
  simp only [mem_reverse, mem_range, decide_eq_true_eq]
  exact ⟨fun h => ⟨hp, h⟩, fun h => h.2⟩

/-- The shift skips no occurrence. -/
theorem not_occursAt_of_lt_shiftAt (hpattern : pattern ≠ []) {p q : Nat} (hpq : p < q)
    (hq : q < p + shiftAt pattern text p) : ¬ OccursAt pattern text q := by
  intro hoccurs
  rw [occursAt_iff hpattern q 0] at hoccurs
  have hle : shiftAt pattern text p ≤ pattern.length := badCharacterShift_le hpattern _
  apply getD_ne_of_lt_badCharacterShift hpattern (Nat.sub_pos_of_lt hpq)
    (Nat.sub_lt_left_of_lt_add hpq.le hq) 0
  have hindex : q + (pattern.length - 1 - (q - p)) = p + pattern.length - 1 := by omega
  have heq := hoccurs.2 (pattern.length - 1 - (q - p)) (by omega)
  rw [hindex] at heq
  exact heq.symm

/-! ### The program -/

/-- What is known of the window at a position. -/
structure At (pattern text : List UInt8) (p : Nat) (window : SearchWindow) : Prop extends
    ShowsAt text bufferSize pattern.length p window where
  holds : 0 ∉ text → Holds text window

/-- What a visit says: it prints positions of the text, and for a text without NUL, it is that of
    the search without a buffer. -/
def Spec (pattern text : List UInt8) (p p' : Nat) (visit : Visit) : Prop :=
  (∀ x ∈ visit.printed, 1 ≤ x ∧ x ≤ text.length) ∧
    (0 ∉ text → visit = visitAt pattern text p ∧ p' = p + shiftAt pattern text p)

section

variable {p : Nat} {window : SearchWindow}

theorem At.isMatch_eq (h : At pattern text p window) (hnul : 0 ∉ text) :
    isMatch window (initSearchState pattern) =
      ((compareAt pattern text p).1.map (p + · + 1), (compareAt pattern text p).2) := by
  have hequal : comparePositions
      (fun pos => decide (window.textBuffer (window.curIndex + pos) = cString pattern pos))
      (List.range pattern.length).reverse = compareAt pattern text p := by
    apply comparePositions_congr
    intro pos hpos
    rw [(h.holds hnul).textBuffer h.toShowsAt (mem_range.mp (mem_reverse.mp hpos))]
  rw [← hequal, ← h.globalIndex]
  rfl

theorem At.calculateShift_eq (h : At pattern text p window) (hpattern : pattern ≠ []) (hnul : 0 ∉ text) :
    calculateShift window (initSearchState pattern) = shiftAt pattern text p := by
  have hpos : 0 < pattern.length := length_pos_iff.mpr hpattern
  change initShiftTable pattern (window.textBuffer (window.curIndex + pattern.length - 1)) = _
  rw [initShiftTable_eq hpattern, shiftAt, Nat.add_sub_assoc hpos, Nat.add_sub_assoc hpos,
    (h.holds hnul).textBuffer h.toShowsAt]
  exact Nat.sub_lt hpos Nat.one_pos

theorem printed_isMatch {x : Nat} (h : x ∈ (isMatch window (initSearchState pattern)).1) :
    window.globalIndex + 1 ≤ x ∧ x ≤ window.globalIndex + pattern.length := by
  obtain ⟨pos, hpos, rfl⟩ := List.mem_map.mp h
  have hlt := mem_range.mp (mem_reverse.mp (comparePositions_subset _ hpos))
  change pos < pattern.length at hlt
  omega

theorem calculateShift_bounds (window : SearchWindow) (hpattern : pattern ≠ []) :
    0 < calculateShift window (initSearchState pattern) ∧
      calculateShift window (initSearchState pattern) ≤ pattern.length := by
  change 0 < initShiftTable pattern _ ∧ initShiftTable pattern _ ≤ pattern.length
  rw [initShiftTable_eq hpattern]
  exact ⟨badCharacterShift_pos _, badCharacterShift_le hpattern _⟩

/-- One iteration, from a position to the next. -/
theorem At.iteration (h : At pattern text p window) (hpattern : pattern ≠ [])
    (hfits : pattern.length ≤ substringMaxSize) :
    Advances (·.isEmpty) (iteration (initSearchState pattern)) (text.length - pattern.length)
      (Spec pattern text) (At pattern text) p window := by
  obtain ⟨hpos, hshift⟩ := calculateShift_bounds window hpattern
  have hin := h.add_le
  refine ⟨Nat.le_sub_of_add_le hin, h.isEmpty, p + calculateShift window (initSearchState pattern),
    ⟨window.globalIndex, (isMatch window (initSearchState pattern)).1,
      (isMatch window (initSearchState pattern)).2⟩,
    moveForward window (initSearchState pattern), Nat.lt_add_of_pos_right hpos, rfl, ⟨?_, ?_⟩, ?_⟩
  · intro x hx
    have hx := printed_isMatch hx
    rw [h.globalIndex] at hx
    omega
  · intro hnul
    rw [h.calculateShift_eq hpattern hnul]
    refine ⟨?_, rfl⟩
    rw [h.isMatch_eq hnul, h.globalIndex]
    rfl
  · have hsize : 0 + pattern.length ≤ bufferSize := by
      rw [Nat.zero_add]
      exact hfits.trans (by decide)
    refine (h.moveForward (strcpy bufferSize) hshift (Nat.zero_le _) hsize).imp_right ?_
    rintro ⟨hshows, -, hholds⟩
    exact ⟨hshows, fun hnul => hholds (h.holds hnul) fun hfull i =>
      strcpy_eq hnul h.fits (h.holds hnul) hfull⟩

end

theorem at_init (hpattern : pattern ≠ []) (hfits : pattern.length ≤ substringMaxSize)
    (hlength : pattern.length ≤ text.length) (memory : Buffer) :
    At pattern text 0 (initSearchWindow memory text) := by
  refine ⟨showsAt_init memory (hfits.trans (by decide)) hlength fun textLen hle => ?_,
    fun _ => holds_init _ memory⟩
  rw [Bool.not_eq_false', decide_eq_true_eq]
  exact (length_pos_iff.mpr hpattern).trans_le hle

/-- The whole run on a text that is not shorter than the pattern. -/
theorem findSubstring_visits (pattern : Pattern) (hlength : pattern.bytes.length ≤ text.length)
    (memory : Buffer) :
    ∃ visits, findSubstring memory pattern.bytes text = some visits ∧
      Visits (text.length - pattern.bytes.length) (Spec pattern.bytes text) 0 visits := by
  apply searchLoop_visits
  · exact fun p window (h : At pattern.bytes text p window) => h.iteration pattern.nonempty pattern.length_le
  · exact at_init pattern.nonempty pattern.length_le hlength memory
  · omega

/-- The program prints what the search without a buffer compares, and finds all occurrences. -/
theorem findSubstring_refines (pattern : Pattern) {text : List UInt8} (hnul : 0 ∉ text)
    (hlength : pattern.bytes.length ≤ text.length) (memory : Buffer) :
    ∃ visits, findSubstring memory pattern.bytes text = some visits ∧
      visits.flatMap Visit.printed = unbufferedSearch pattern.bytes text ∧
      (∀ visit ∈ visits, visit.isMatch = true ↔ OccursAt pattern.bytes text visit.globalIndex) ∧
      ∀ p, OccursAt pattern.bytes text p → ∃ visit ∈ visits, visit.globalIndex = p := by
  obtain ⟨visits, hrun, hvisits⟩ := findSubstring_visits pattern hlength memory
  refine ⟨visits, hrun, ?_, ?_, ?_⟩
  · have hmap : visits = (windows (fun p => shiftAt pattern.bytes text p - 1)
        (text.length - pattern.bytes.length) 0).map (visitAt pattern.bytes text) := by
      apply hvisits.eq_map_windows
      intro p p' visit _ hspec
      obtain ⟨rfl, rfl⟩ := hspec.2 hnul
      have hpos : 0 < shiftAt pattern.bytes text p := badCharacterShift_pos _
      exact ⟨rfl, by omega⟩
    rw [hmap, flatMap_map]
    rfl
  · intro visit hvisit
    obtain ⟨p, p', -, hlast, -, hspec⟩ := hvisits.exists_of_mem visit hvisit
    obtain ⟨rfl, -⟩ := hspec.2 hnul
    exact compareAt_snd pattern.nonempty (by omega)
  · intro p hoccurs
    have hin := ((occursAt_iff pattern.nonempty p 0).mp hoccurs).1
    obtain ⟨visit, hvisit, p', hspec⟩ := hvisits.exists_of_good (OccursAt pattern.bytes text)
      (fun q q' visit hspec r hqr hr => by
        obtain ⟨-, rfl⟩ := hspec.2 hnul
        exact not_occursAt_of_lt_shiftAt pattern.nonempty hqr hr) p (Nat.zero_le p) (by omega) hoccurs
    refine ⟨visit, hvisit, ?_⟩
    rw [(hspec.2 hnul).1]
    rfl

/-- The pattern `aba`. -/
def aba : Pattern where
  bytes := [97, 98, 97]
  nonempty := by decide
  length_le := by decide
  noNul := by decide

/-- It overlaps itself in the text `ababa`. -/
theorem findSubstring_refines_aba :
    0 ∉ ([97, 98, 97, 98, 97] : List UInt8) ∧ aba.bytes.length ≤ 5 ∧
      ∃ visits, findSubstring (fun _ => 0) aba.bytes [97, 98, 97, 98, 97] = some visits ∧
        visits.flatMap Visit.printed = unbufferedSearch aba.bytes [97, 98, 97, 98, 97] ∧
        (∀ visit ∈ visits, visit.isMatch = true ↔
          OccursAt aba.bytes [97, 98, 97, 98, 97] visit.globalIndex) ∧
        ∀ p, OccursAt aba.bytes [97, 98, 97, 98, 97] p → ∃ visit ∈ visits, visit.globalIndex = p :=
  ⟨by decide, by decide, findSubstring_refines aba (by decide) (by decide) _⟩

end NsuLabs.FindSubstring.BoyerMoore
