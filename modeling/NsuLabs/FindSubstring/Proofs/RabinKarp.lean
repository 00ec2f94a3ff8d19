/-
Module: NsuLabs.FindSubstring.Proofs.RabinKarp
Purpose: The hash that the Rabin-Karp program updates is that of the window, also when the buffer has been
  filled up in between; it finds all occurrences of a pattern in a text without NUL.
Trusted boundary: none
Main exports: findSubstring_hashes
-/
import NsuLabs.FindSubstring.Proofs.SearchWindow

namespace NsuLabs.FindSubstring.RabinKarp

open Lib List

/-! ### The hash -/

theorem digit_bounds (c : UInt8) : 0 ≤ digit c ∧ digit c ≤ 2 := by
  rw [digit]
  omega

theorem hash_succ (str : Nat → UInt8) (sz : Nat) :
    hash str (sz + 1) = hash str sz + digit (str sz) * 3 ^ sz := by
  rw [hash, range_succ, foldl_append, foldl_cons, foldl_nil, ← hash]

/-- The first character has the lowest digit. -/
theorem hash_succ' (str : Nat → UInt8) (sz : Nat) :
    hash str (sz + 1) = digit (str 0) + 3 * hash (fun i => str (i + 1)) sz := by
  induction sz with
  | zero =>
    rw [hash_succ, pow_zero, mul_one]
    exact Int.add_comm ..
  | succ sz ih =>
    rw [hash_succ, ih, hash_succ (fun i => str (i + 1)), pow_succ]
    ring

theorem hash_bounds (str : Nat → UInt8) (sz : Nat) : 0 ≤ hash str sz ∧ hash str sz ≤ 3 ^ sz - 1 := by
  induction sz with
  | zero => exact ⟨le_rfl, le_rfl⟩
  | succ sz ih =>
    obtain ⟨hdigit, hdigit'⟩ := digit_bounds (str sz)
    have hpow : (0 : Int) < 3 ^ sz := pow_pos (by decide) sz
    rw [hash_succ, pow_succ]
    constructor
    · exact Int.add_nonneg ih.1 (Int.mul_nonneg hdigit hpow.le)
    · have := Int.mul_le_mul_of_nonneg_right hdigit' hpow.le
      linarith [ih.2]

theorem hash_congr {str str' : Nat → UInt8} {sz : Nat} (h : ∀ i < sz, str i = str' i) :
    hash str sz = hash str' sz := by
  induction sz with
  | zero => rfl
  | succ sz ih =>
    rw [hash_succ, hash_succ, ih fun i hi => h i (hi.trans sz.lt_succ_self), h sz sz.lt_succ_self]

/-- The update of the hash when the window moves by one. -/
theorem hash_roll (str : Nat → UInt8) {m : Nat} (hm : 0 < m) :
    (hash str m - digit (str 0)).tdiv 3 + digit (str m) * 3 ^ (m - 1) = hash (fun i => str (i + 1)) m := by
  obtain ⟨sz, rfl⟩ := Nat.exists_eq_succ_of_ne_zero hm.ne'
  rw [Nat.succ_eq_add_one, hash_succ' str, add_sub_cancel_left, Int.mul_tdiv_cancel_left _ (by decide),
    Nat.add_sub_cancel, hash_succ (fun i => str (i + 1))]

/-! ### The program -/

/-- What is known of the window at a position. -/
structure At (pattern text : List UInt8) (p : Nat) (window : Window) : Prop extends
    ShowsAt text bufferSize pattern.length p window.toSearchWindow where
  holds : 0 ∉ text → Holds text window.toSearchWindow
  curHash : 0 ∉ text → window.curHash = hash (fun i => cString text (p + i)) pattern.length

/-- What a visit says: it prints positions of the text, and for a text without NUL, it has the hash
    of the window and knows whether the pattern occurs there. The next position is visited next. -/
def Spec (pattern text : List UInt8) (p p' : Nat) (visit : Visit) : Prop :=
  (∀ x ∈ visit.printed, 1 ≤ x ∧ x ≤ text.length) ∧ visit.globalIndex = p ∧ p' = p + 1 ∧
    (0 ∉ text → visit.curHash = hash (fun i => cString text (p + i)) pattern.length ∧
      (visit.isMatch = true ↔ OccursAt pattern text p))

section

variable {pattern text : List UInt8} {p : Nat} {window : Window}

theorem printed_isMatch {x : Nat} (h : x ∈ (isMatch window (initSearchState pattern)).1) :
    window.globalIndex + 1 ≤ x ∧ x ≤ window.globalIndex + pattern.length := by
  rw [isMatch] at h
  split at h
  · cases h
  · obtain ⟨pos, hpos, rfl⟩ := List.mem_map.mp h
    have hlt := mem_range.mp (comparePositions_subset _ hpos)
    change pos < pattern.length at hlt
    omega

theorem At.isMatch_iff (h : At pattern text p window) (hpattern : pattern ≠ []) (hnul : 0 ∉ text) :
    (isMatch window (initSearchState pattern)).2 = true ↔ OccursAt pattern text p := by
  have hcompare : (comparePositions
    (fun i => decide (cString pattern i = window.textBuffer (window.curIndex + i)))
      (List.range pattern.length)).2 = true ↔ OccursAt pattern text p := by
    rw [comparePositions_snd, occursAt_iff hpattern p 0]
    simp only [mem_range, decide_eq_true_eq]
    constructor
    · intro hequal
      refine ⟨h.add_le, fun i hi => ?_⟩
      exact ((h.holds hnul).textBuffer h.toShowsAt hi).symm.trans (hequal i hi).symm
    · rintro ⟨-, hagrees⟩ i hi
      rw [(h.holds hnul).textBuffer h.toShowsAt hi]
      exact (hagrees i hi).symm
  rw [isMatch]
  split
  case isTrue hdiffer =>
    refine iff_of_false Bool.false_ne_true fun hoccurs => hdiffer ?_
    rw [h.curHash hnul]
    exact hash_congr ((occursAt_iff hpattern p 0).mp hoccurs).2
  case isFalse => exact hcompare

/-- The hash after the window has moved by one, when the character before it is still in the buffer. -/
theorem curHash_updateHash {moved : SearchWindow} (hpattern : pattern ≠ [])
    (hshows : ShowsAt text bufferSize pattern.length (p + 1) moved) (hbehind : 1 ≤ moved.curIndex)
    (hholds : Holds text moved) :
    (updateHash ⟨moved, hash (fun i => cString text (p + i)) pattern.length⟩
      (initSearchState pattern)).curHash = hash (fun i => cString text (p + 1 + i)) pattern.length := by
  have hpos : 0 < pattern.length := length_pos_iff.mpr hpattern
  have hfirst : moved.textBuffer (moved.curIndex - 1) = cString text (p + 0) := by
    have hinside := hshows.inside
    have hle := hshows.fits.curIndex_le
    have hglobal := hshows.globalIndex
    rw [hholds _ (by omega), SearchWindow.base]
    congr 1
    omega
  have hlast : moved.textBuffer (moved.curIndex + pattern.length - 1) =
      cString text (p + pattern.length) := by
    rw [Nat.add_sub_assoc hpos, hholds.textBuffer hshows (Nat.sub_lt hpos Nat.one_pos)]
    congr 1
    omega
  change (hash (fun i => cString text (p + i)) pattern.length -
    digit (moved.textBuffer (moved.curIndex - 1))).tdiv 3 +
    digit (moved.textBuffer (moved.curIndex + pattern.length - 1)) * 3 ^ (pattern.length - 1) = _
  rw [hfirst, hlast, hash_roll (fun i => cString text (p + i)) hpos]
  exact hash_congr fun i _ => by rw [Nat.add_assoc, Nat.add_comm 1 i]

/-- One iteration, from a position to the next. -/
theorem At.iteration (h : At pattern text p window) (hpattern : pattern ≠ [])
    (hfits : pattern.length ≤ substringMaxSize) :
    Advances (·.isEmpty) (iteration (initSearchState pattern)) (text.length - pattern.length)
      (Spec pattern text) (At pattern text) p window := by
  have hpos : 0 < pattern.length := length_pos_iff.mpr hpattern
  have hin := h.add_le
  refine ⟨Nat.le_sub_of_add_le hin, h.isEmpty, p + 1,
    ⟨window.globalIndex, window.curHash, (isMatch window (initSearchState pattern)).1,
    (isMatch window (initSearchState pattern)).2⟩, moveForward window (initSearchState pattern),
      p.lt_succ_self, rfl,
    ⟨?_, h.globalIndex, rfl, fun hnul => ⟨h.curHash hnul, h.isMatch_iff hpattern hnul⟩⟩, ?_⟩
  · intro x hx
    have hx := printed_isMatch hx
    rw [h.globalIndex] at hx
    omega
  · have hsize : 1 + pattern.length ≤ bufferSize := (Nat.add_le_add_left hfits 1).trans (by decide)
    refine (h.moveForward (strcpy bufferSize) hpos (Nat.le_add_left 1 _) hsize).imp_right ?_
    rintro ⟨hshows, hbehind, hholds⟩
    have hmoved := fun hnul => hholds (h.holds hnul) fun hfull i =>
      strcpy_eq hnul h.fits (h.holds hnul) hfull
    refine ⟨hshows, hmoved, fun hnul => ?_⟩
    have hupdate := curHash_updateHash hpattern hshows hbehind (hmoved hnul)
    rw [← h.curHash hnul] at hupdate
    exact hupdate

end

theorem at_init {pattern text : List UInt8} (hpattern : pattern ≠ [])
    (hfits : pattern.length ≤ substringMaxSize)
    (hlength : pattern.length ≤ text.length) (memory : Buffer) :
    At pattern text 0 (initSearchWindow memory text (initSearchState pattern)) := by
  have hshows : ShowsAt text bufferSize pattern.length 0
      (SearchWindow.init bufferSize (fun textLen => !decide (textLen > 0)) memory text) := by
    refine showsAt_init memory (hfits.trans (by decide)) hlength fun textLen hle => ?_
    rw [Bool.not_eq_false', decide_eq_true_eq]
    exact (length_pos_iff.mpr hpattern).trans_le hle
  refine ⟨hshows, fun _ => holds_init _ memory, fun _ => hash_congr fun i hi => ?_⟩
  have hbyte := (holds_init _ memory).textBuffer hshows hi
  change SearchWindow.textBuffer _ (0 + i) = _ at hbyte
  rw [Nat.zero_add i] at hbyte
  rwa [Nat.zero_add i]

/-- The whole run on a text that is not shorter than the pattern. -/
theorem findSubstring_visits (pattern : Pattern) {text : List UInt8}
    (hlength : pattern.bytes.length ≤ text.length) (memory : Buffer) :
    ∃ visits,
      findSubstring memory pattern.bytes text =
        some (hash (cString pattern.bytes) pattern.bytes.length, visits) ∧
      Visits (text.length - pattern.bytes.length) (Spec pattern.bytes text) 0 visits := by
  obtain ⟨visits, hrun, hvisits⟩ := searchLoop_visits
    (fun p window (h : At pattern.bytes text p window) => h.iteration pattern.nonempty pattern.length_le)
      (text.length + 1)
    (at_init pattern.nonempty pattern.length_le hlength memory) (by omega)
  refine ⟨visits, ?_, hvisits⟩
  rw [findSubstring, hrun]
  rfl

/-- The hash is that of the window in every iteration, and the program finds all occurrences. -/
theorem findSubstring_hashes (pattern : Pattern) {text : List UInt8} (hnul : 0 ∉ text)
    (hlength : pattern.bytes.length ≤ text.length) (memory : Buffer) :
    ∃ patternHash visits, findSubstring memory pattern.bytes text = some (patternHash, visits) ∧
      (∀ visit ∈ visits, visit.globalIndex + pattern.bytes.length ≤ text.length ∧
        visit.curHash = hash (fun i => cString text (visit.globalIndex + i)) pattern.bytes.length ∧
        0 ≤ visit.curHash ∧ visit.curHash ≤ 3 ^ pattern.bytes.length - 1 ∧
        (visit.isMatch = true ↔ OccursAt pattern.bytes text visit.globalIndex)) ∧
      ∀ p, OccursAt pattern.bytes text p → ∃ visit ∈ visits, visit.globalIndex = p := by
  obtain ⟨visits, hrun, hvisits⟩ := findSubstring_visits pattern hlength memory
  refine ⟨_, visits, hrun, ?_, ?_⟩
  · intro visit hvisit
    obtain ⟨p, p', -, hlast, -, -, rfl, -, hspec⟩ := hvisits.exists_of_mem visit hvisit
    obtain ⟨hhash, hmatch⟩ := hspec hnul
    have hbounds := hash_bounds (fun i => cString text (visit.globalIndex + i)) pattern.bytes.length
    rw [← hhash] at hbounds
    exact ⟨by omega, hhash, hbounds.1, hbounds.2, hmatch⟩
  · intro p hoccurs
    have hin := ((occursAt_iff pattern.nonempty p 0).mp hoccurs).1
    obtain ⟨visit, hvisit, p', -, hglobal, -⟩ := hvisits.exists_of_good (OccursAt pattern.bytes text)
      (fun q q' visit hspec r hqr hr => by
        obtain ⟨-, -, rfl, -⟩ := hspec
        omega) p (Nat.zero_le p) (by omega) hoccurs
    exact ⟨visit, hvisit, hglobal⟩

/-- The pattern `ab`. -/
def ab : Pattern where
  bytes := [97, 98]
  nonempty := by decide
  length_le := by decide
  noNul := by decide

/-- It is at the end of the text `aab`. -/
theorem findSubstring_hashes_ab :
    0 ∉ ([97, 97, 98] : List UInt8) ∧ ab.bytes.length ≤ 3 ∧
      ∃ patternHash visits, findSubstring (fun _ => 0) ab.bytes [97, 97, 98] = some (patternHash, visits) ∧
        (∀ visit ∈ visits, visit.globalIndex + ab.bytes.length ≤ 3 ∧
          visit.curHash = hash (fun i => cString [97, 97, 98] (visit.globalIndex + i)) ab.bytes.length ∧
          0 ≤ visit.curHash ∧ visit.curHash ≤ 3 ^ ab.bytes.length - 1 ∧
          (visit.isMatch = true ↔ OccursAt ab.bytes [97, 97, 98] visit.globalIndex)) ∧
        ∀ p, OccursAt ab.bytes [97, 97, 98] p → ∃ visit ∈ visits, visit.globalIndex = p :=
  ⟨by decide, by decide, findSubstring_hashes ab (by decide) (by decide) _⟩

end NsuLabs.FindSubstring.RabinKarp
