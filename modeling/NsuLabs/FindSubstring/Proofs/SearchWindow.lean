/-
Module: NsuLabs.FindSubstring.Proofs.SearchWindow
Purpose: The window shows a part of the text, however the text falls across the buffer, and the loop that
  moves it visits positions in increasing order.
Trusted boundary: none
Main exports: ShowsAt, searchLoop_visits
-/
import NsuLabs.FindSubstring.FindSubstring
import NsuLabs.Lib.PatternSearch

namespace NsuLabs.FindSubstring

open Lib List

/-! ### What the window shows -/

/-- The position in the text of the first byte of the buffer. -/
def SearchWindow.base (window : SearchWindow) : Nat := window.globalIndex - window.curIndex

/-- The buffer covers a part of the text, and the stream is what comes after it. -/
structure Fits (text : List UInt8) (size : Nat) (window : SearchWindow) : Prop where
  curIndex_le : window.curIndex ≤ window.globalIndex
  textLen_le : window.textLen ≤ size
  stream : window.inputStream = text.drop (window.base + window.textLen)
  inText : window.base + window.textLen ≤ text.length
  full : window.textLen = size ∨ window.base + window.textLen = text.length

/-- The bytes in the buffer are those of the text. -/
def Holds (text : List UInt8) (window : SearchWindow) : Prop :=
  ∀ i < window.textLen, window.textBuffer i = cString text (window.base + i)

theorem cString_drop (text : List UInt8) (k i : Nat) : cString (text.drop k) i = cString text (k + i) := by
  rw [cString, cString, getD_eq_getElem?_getD, getD_eq_getElem?_getD, getElem?_drop]

theorem cString_take (text : List UInt8) {k i : Nat} (hi : i < k) :
    cString (text.take k) i = cString text i := by
  rw [cString, cString, getD_eq_getElem?_getD, getD_eq_getElem?_getD, getElem?_take_of_lt hi]

theorem cString_ne_zero {text : List UInt8} (hnul : 0 ∉ text) {i : Nat} (hi : i < text.length) :
    cString text i ≠ 0 := by
  rw [cString, getD_eq_getElem _ _ hi]
  exact fun hzero => hnul (hzero ▸ getElem_mem hi)

section

variable {text : List UInt8} {size behind m p shift : Nat} {window : SearchWindow}
  {copy : Buffer → (source : Nat) → Buffer}

theorem fits_init (testEmpty : Nat → Bool) (memory : Buffer) :
    Fits text size (SearchWindow.init size testEmpty memory text) where
  curIndex_le := le_rfl
  textLen_le := length_take_le _ _
  stream := by
    change text.drop size = text.drop (0 - 0 + (text.take size).length)
    rcases le_total size text.length with hle | hle
    · rw [length_take_of_le hle, Nat.zero_add]
    · rw [take_of_length_le hle, drop_of_length_le hle, Nat.zero_add, drop_length]
  inText := by
    change 0 - 0 + (text.take size).length ≤ text.length
    rw [length_take]
    omega
  full := by
    change (text.take size).length = size ∨ 0 - 0 + (text.take size).length = text.length
    rw [length_take]
    omega

theorem holds_init (testEmpty : Nat → Bool) (memory : Buffer) :
    Holds text (SearchWindow.init size testEmpty memory text) := by
  intro i hi
  change i < (text.take size).length at hi
  change Buffer.write memory 0 (text.take size) i = cString text (0 - 0 + i)
  rw [Buffer.write, if_pos ⟨Nat.zero_le i, by omega⟩, Nat.sub_zero, Nat.zero_add]
  exact cString_take text (hi.trans_le (length_take_le _ _))

/-- The window is moved within the buffer. -/
def SearchWindow.shifted (window : SearchWindow) (shift : Nat) : SearchWindow :=
  { window with curIndex := window.curIndex + shift, globalIndex := window.globalIndex + shift }

theorem base_shifted : (window.shifted shift).base = window.base := by
  rw [SearchWindow.base, SearchWindow.base]
  exact Nat.add_sub_add_right ..

theorem Fits.shifted (h : Fits text size window) (shift : Nat) : Fits text size (window.shifted shift) where
  curIndex_le := Nat.add_le_add_right h.curIndex_le shift
  textLen_le := h.textLen_le
  stream := by
    rw [base_shifted]
    exact h.stream
  inText := by
    rw [base_shifted]
    exact h.inText
  full := by
    rw [base_shifted]
    exact h.full

theorem Holds.shifted (h : Holds text window) (shift : Nat) : Holds text (window.shifted shift) := by
  intro i hi
  rw [base_shifted]
  exact h i hi

/-- The number of bytes that are read to fill the buffer up. -/
theorem Fits.length_read (h : Fits text size window) (count : Nat) :
    (window.inputStream.take count).length = min count (text.length - (window.base + window.textLen)) := by
  rw [h.stream, length_take, length_drop]

theorem Fits.base_refill (h : Fits text size window) (hbehind : behind ≤ window.curIndex) :
    (window.refill size behind copy).base = window.base + (window.curIndex - behind) := by
  have hle := h.curIndex_le
  change window.globalIndex - behind = window.globalIndex - window.curIndex + (window.curIndex - behind)
  omega

/-- A full buffer is filled up from the text behind it. -/
theorem Fits.refill (h : Fits text size window) (hfull : window.textLen = size)
    (hcur : window.curIndex ≤ size)
    (hbehind : behind ≤ window.curIndex) : Fits text size (window.refill size behind copy) := by
  have hbase : (window.refill size behind copy).base = window.base + (window.curIndex - behind) :=
    h.base_refill hbehind
  have hread := h.length_read (size - (size - window.curIndex + behind))
  have hin := h.inText
  have hlen : (window.refill size behind copy).textLen = size - window.curIndex + behind +
      (window.inputStream.take (size - (size - window.curIndex + behind))).length := rfl
  rw [hfull] at hread hin
  constructor
  case curIndex_le => exact hbehind.trans h.curIndex_le
  case textLen_le =>
    rw [hlen, hread]
    omega
  case stream =>
    change window.inputStream.drop (size - (size - window.curIndex + behind)) = _
    rw [h.stream, drop_drop, hbase, hlen, hread, hfull]
    rcases le_total (size - (size - window.curIndex + behind))
      (text.length - (window.base + size)) with hle | hle
    · rw [min_eq_left hle]
      congr 1
      omega
    · rw [min_eq_right hle, drop_of_length_le (by omega), drop_of_length_le (by omega)]
  case inText =>
    rw [hlen, hbase, hread]
    omega
  case full =>
    rw [hlen, hbase, hread]
    omega

/-- If there is nothing left to read, the rest of the buffer is taken for the rest of the text. -/
theorem Fits.textLen_refill (h : Fits text size window)
    (hlast : window.base + window.textLen = text.length) :
    (window.refill size behind copy).textLen = size - window.curIndex + behind := by
  have hread := h.length_read (size - (size - window.curIndex + behind))
  rw [hlast, Nat.sub_self, Nat.min_zero] at hread
  change size - window.curIndex + behind +
    (List.take (size - (size - window.curIndex + behind)) window.inputStream).length = _
  rw [hread, Nat.add_zero]

theorem Holds.refill (h : Holds text window) (hfits : Fits text size window) (hfull : window.textLen = size)
    (hcur : window.curIndex ≤ size) (hbehind : behind ≤ window.curIndex)
    (hcopy : ∀ i, window.curIndex - behind + i < size →
      copy window.textBuffer (window.curIndex - behind) i =
        window.textBuffer (window.curIndex - behind + i)) :
    Holds text (window.refill size behind copy) := by
  intro i hi
  rw [hfits.base_refill hbehind]
  change i < size - window.curIndex + behind +
    (window.inputStream.take (size - (size - window.curIndex + behind))).length at hi
  change Buffer.write (copy window.textBuffer (window.curIndex - behind)) (size - window.curIndex + behind)
    (window.inputStream.take (size - (size - window.curIndex + behind))) i = _
  rw [Buffer.write]
  by_cases hold : i < size - window.curIndex + behind
  -- a byte that was in the buffer before
  · rw [if_neg fun hnew => absurd hnew.1 (not_le.mpr hold), hcopy i (by omega), h _ (by omega),
      Nat.add_assoc]
  -- a byte that was read
  · have hcount := length_take_le (size - (size - window.curIndex + behind)) window.inputStream
    rw [if_pos ⟨not_lt.mp hold, hi⟩, ← cString, cString_take _ (by omega), hfits.stream, cString_drop, hfull]
    congr 1
    omega

/-! ### Moving the window -/

theorem moveForward_eq : window.moveForward size behind copy m shift =
    let moved := if window.curIndex + shift + m > size then (window.shifted shift).refill size behind copy
      else window.shifted shift
    if moved.curIndex + m > moved.textLen then { moved with isEmpty := true } else moved := rfl

/-- The window is at a position of the text, and not empty. -/
structure ShowsAt (text : List UInt8) (size m p : Nat) (window : SearchWindow) : Prop where
  isEmpty : window.isEmpty = false
  globalIndex : window.globalIndex = p
  inside : window.curIndex + m ≤ window.textLen
  fits : Fits text size window

theorem ShowsAt.add_le (h : ShowsAt text size m p window) : p + m ≤ text.length := by
  have hin := h.fits.inText
  have hinside := h.inside
  have hle := h.fits.curIndex_le
  rw [SearchWindow.base] at hin
  rw [← h.globalIndex]
  omega

theorem Holds.textBuffer (hholds : Holds text window) (h : ShowsAt text size m p window) {i : Nat}
    (hi : i < m) : window.textBuffer (window.curIndex + i) = cString text (p + i) := by
  have hinside := h.inside
  have hle := h.fits.curIndex_le
  rw [hholds _ (by omega), ← h.globalIndex, SearchWindow.base]
  congr 1
  omega

/-- The first window, if it was not tested for too much. -/
theorem showsAt_init {testEmpty : Nat → Bool} (memory : Buffer) (hsize : m ≤ size)
    (hlength : m ≤ text.length) (htest : ∀ textLen, m ≤ textLen → testEmpty textLen = false) :
    ShowsAt text size m 0 (SearchWindow.init size testEmpty memory text) := by
  have hlen : m ≤ (text.take size).length := by
    rw [length_take]
    exact le_min hsize hlength
  exact ⟨htest _ hlen, rfl, (Nat.zero_add m).trans_le hlen, fits_init testEmpty memory⟩

/-- The test of a moved window that covers a part of the text. -/
theorem Fits.test (h : Fits text size window) (hempty : window.isEmpty = false)
    (hsize : window.curIndex + m ≤ size) (hm : m ≤ text.length) :
    let tested := if window.curIndex + m > window.textLen then { window with isEmpty := true } else window
    tested.isEmpty = true ∧ text.length - m < window.globalIndex ∨
      tested = window ∧ ShowsAt text size m window.globalIndex window := by
  dsimp only
  split
  case isTrue hend =>
    have hlast := h.full.resolve_left (by omega)
    have hle := h.curIndex_le
    rw [SearchWindow.base] at hlast
    exact .inl ⟨rfl, by omega⟩
  case isFalse hin => exact .inr ⟨rfl, hempty, rfl, not_lt.mp hin, h⟩

/-- Either the window is behind the end of the text, or it shows the text at its new position. -/
theorem ShowsAt.moveForward (copy : Buffer → (source : Nat) → Buffer) (hat : ShowsAt text size m p window)
    (hshift : shift ≤ m) (hbehind : behind ≤ window.curIndex + shift) (hsize : behind + m ≤ size) :
    (window.moveForward size behind copy m shift).isEmpty = true ∧ text.length - m < p + shift ∨
      ShowsAt text size m (p + shift) (window.moveForward size behind copy m shift) ∧
        behind ≤ (window.moveForward size behind copy m shift).curIndex ∧
        (Holds text window →
          (window.textLen = size → ∀ i, window.curIndex + shift - behind + i < size →
            copy window.textBuffer (window.curIndex + shift - behind) i =
              window.textBuffer (window.curIndex + shift - behind + i)) →
          Holds text (window.moveForward size behind copy m shift)) := by
  have hm := (Nat.le_add_left m p).trans hat.add_le
  obtain ⟨hnonempty, rfl, hin, h⟩ := hat
  have hle := h.textLen_le
  have hcur := h.curIndex_le
  have hbase : window.base = window.globalIndex - window.curIndex := rfl
  have hnear : (window.shifted shift).curIndex ≤ size := by
    change window.curIndex + shift ≤ size
    omega
  rw [moveForward_eq]
  by_cases hend : window.curIndex + shift + m > size
  · simp only [if_pos hend]
    rcases h.full with hfull | hlast
    -- the buffer is filled up from the text
    · have hfits : Fits text size ((window.shifted shift).refill size behind copy) :=
        (h.shifted shift).refill hfull hnear hbehind
      refine (hfits.test hnonempty hsize hm).imp_right ?_
      rintro ⟨htested, hshows⟩
      rw [htested]
      refine ⟨hshows, le_rfl, fun hholds hcopy => ?_⟩
      exact (hholds.shifted shift).refill (h.shifted shift) hfull hnear hbehind (hcopy hfull)
    -- there is nothing left to read, and what is taken for the rest of the text is too short for the window
    · refine .inl ?_
      have hlen : ((window.shifted shift).refill size behind copy).textLen =
          size - (window.curIndex + shift) + behind :=
        (h.shifted shift).textLen_refill (by rw [base_shifted]; exact hlast)
      have hempty : ((window.shifted shift).refill size behind copy).curIndex + m >
          ((window.shifted shift).refill size behind copy).textLen := by
        rw [hlen]
        change behind + m > _
        omega
      simp only [if_pos hempty]
      exact ⟨trivial, by omega⟩
  · simp only [if_neg hend]
    refine ((h.shifted shift).test hnonempty (not_lt.mp hend) hm).imp_right ?_
    rintro ⟨htested, hshows⟩
    rw [htested]
    exact ⟨hshows, hbehind, fun hholds _ => hholds.shifted shift⟩

end

/-! ### Copies -/

theorem memmove_eq (buffer : Buffer) {size source i : Nat} (hi : source + i < size) :
    memmove buffer source (size - source) i = buffer (source + i) := by
  rw [memmove, if_pos (Nat.lt_sub_iff_add_lt'.mpr hi)]

/-- `strcpy` moves the whole rest of a full buffer, as there is no NUL in it. -/
theorem strcpy_eq {text : List UInt8} (hnul : 0 ∉ text) {size : Nat} {window : SearchWindow}
    (hfits : Fits text size window) (hholds : Holds text window) (hfull : window.textLen = size)
    {source i : Nat} (hi : source + i < size) :
    strcpy size window.textBuffer source i = window.textBuffer (source + i) := by
  rw [strcpy, if_pos]
  refine ⟨hi.le, fun j hj => ?_⟩
  have hj' : source + j < window.textLen := by omega
  rw [hholds _ hj']
  exact cString_ne_zero hnul (by have := hfits.inText; omega)

/-! ### Comparing -/

variable {equal : Nat → Bool}

theorem comparePositions_snd (positions : List Nat) :
    (comparePositions equal positions).2 = true ↔ ∀ pos ∈ positions, equal pos = true := by
  induction positions with
  | nil => simp [comparePositions]
  | cons pos rest ih =>
    rw [comparePositions, forall_mem_cons]
    cases hequal : equal pos with
    | true => simpa using ih
    | false => simp

theorem comparePositions_subset (positions : List Nat) :
    (comparePositions equal positions).1 ⊆ positions := by
  induction positions with
  | nil => exact Subset.refl _
  | cons pos rest ih =>
    rw [comparePositions]
    cases hequal : equal pos with
    | true => exact cons_subset_cons pos ih
    | false => exact cons_subset_cons pos (nil_subset rest)

theorem comparePositions_congr {equal' : Nat → Bool} {positions : List Nat}
    (h : ∀ pos ∈ positions, equal pos = equal' pos) :
    comparePositions equal positions = comparePositions equal' positions := by
  induction positions with
  | nil => rfl
  | cons pos rest ih =>
    obtain ⟨hpos, hrest⟩ := forall_mem_cons.mp h
    rw [comparePositions, comparePositions, hpos, ih hrest]

/-! ### The loop -/

variable {σ ρ : Type} {isEmpty : σ → Bool} {iteration : σ → Option (ρ × σ)}

theorem searchLoop_of_isEmpty {s : σ} (h : isEmpty s = true) (fuel : Nat) :
    searchLoop isEmpty iteration fuel s = some [] := by
  cases fuel with
  | zero | succ fuel => rw [searchLoop, if_pos h]

theorem searchLoop_succ {s s' : σ} {r : ρ} (hs : isEmpty s = false) (h : iteration s = some (r, s'))
    (fuel : Nat) :
    searchLoop isEmpty iteration (fuel + 1) s = (searchLoop isEmpty iteration fuel s').map (r :: ·) := by
  rw [searchLoop, if_neg (Bool.eq_false_iff.mp hs), h]
  dsimp only [Option.bind_eq_bind, Option.bind_some]
  cases searchLoop isEmpty iteration fuel s' with
  | none => rfl
  | some rs => rfl

/-- An iteration gets from a position to a later one, and leaves nothing behind the last one. -/
def Advances (isEmpty : σ → Bool) (iteration : σ → Option (ρ × σ)) (last : Nat) (Q : Nat → Nat → ρ → Prop)
    (inv : Nat → σ → Prop) (p : Nat) (s : σ) : Prop :=
  p ≤ last ∧ isEmpty s = false ∧ ∃ p' r s', p < p' ∧ iteration s = some (r, s') ∧ Q p p' r ∧
    (isEmpty s' = true ∧ last < p' ∨ inv p' s')

/-- A loop of such iterations is a sequence of visits. -/
theorem searchLoop_visits {last : Nat} {Q : Nat → Nat → ρ → Prop} {inv : Nat → σ → Prop}
    (hstep : ∀ p s, inv p s → Advances isEmpty iteration last Q inv p s) :
    ∀ (fuel : Nat) {p : Nat} {s : σ}, inv p s → last < p + fuel →
      ∃ rs, searchLoop isEmpty iteration fuel s = some rs ∧ Visits last Q p rs := by
  intro fuel
  induction fuel with
  | zero =>
    intro p s hinv hfuel
    exact absurd (hstep p s hinv).1 (not_le.mpr hfuel)
  | succ fuel ih =>
    intro p s hinv hfuel
    obtain ⟨hp, hs, p', r, s', hlt, hiteration, hQ, hnext⟩ := hstep p s hinv
    rw [searchLoop_succ hs hiteration]
    rcases hnext with ⟨hempty, hlast⟩ | hinv'
    · rw [searchLoop_of_isEmpty hempty]
      exact ⟨[r], rfl, .visit hp hlt hQ (.done hlast)⟩
    · obtain ⟨rs, hrs, hvisits⟩ := ih hinv' (by omega)
      rw [hrs]
      exact ⟨r :: rs, rfl, .visit hp hlt hQ hvisits⟩

end NsuLabs.FindSubstring
