/-
Module: NsuLabs.FindSubstring.Proofs.KnuthMorrisPratt
Purpose: The table of prefixes has the longest borders of the pattern, and the characters that a shift leaves
  matched are those of a border.
Trusted boundary: none
Main exports: tableRight_iff, findSubstring_prefixes
-/
import NsuLabs.Lib.Runs
import NsuLabs.FindSubstring.Proofs.SearchWindow

namespace NsuLabs.FindSubstring.KnuthMorrisPratt

open Lib List Option

/-! ### The table of prefixes -/

/-- The first `i` entries have been written. -/
structure IsPrefixTable (substring : List UInt8) (i : Nat) (table : List Int32) : Prop where
  length : table.length = i
  border : ∀ q < i, ∃ k < 2 ^ 31, table[q]? = some (.ofNat k) ∧ LongestBorder (cString substring) (q + 1) k

section

variable {substring : List UInt8} {table : List Int32} {i : Nat}

/-- A number that fits into an `int` is read as it was stored. -/
theorem toSize_ofNat {k : Nat} (hk : k < 2 ^ 31) : toSize (.ofNat k) = k := by
  rw [toSize, Int32.toInt_ofNat_of_lt hk]
  omega

theorem IsPrefixTable.get (h : IsPrefixTable substring i table) {q : Nat} (hpos : 0 < q) (hq : q ≤ i) :
    ∃ entry, table[q - 1]? = some entry ∧ LongestBorder (cString substring) q (toSize entry) := by
  obtain ⟨q, rfl⟩ := Nat.exists_eq_succ_of_ne_zero hpos.ne'
  obtain ⟨k, hk, hget, hborder⟩ := h.border q hq
  refine ⟨.ofNat k, hget, ?_⟩
  rwa [toSize_ofNat hk]

/-- The longest border that the next character may extend. -/
structure Extensible (s : Nat → UInt8) (i k : Nat) : Prop where
  border : Border s i k
  le : ∀ j, Border s i j → s i = s j → j ≤ k

theorem Extensible.fallBack {s : Nat → UInt8} {k k' : Nat} (h : Extensible s i k) (hne : s i ≠ s k)
    (hborder : LongestBorder s k k') : Extensible s i k' := by
  refine ⟨h.border.trans hborder.border, fun j hj heq => ?_⟩
  have hlt : j < k := lt_of_le_of_ne (h.le j hj heq) fun hjk => hne (hjk ▸ heq)
  exact hborder.le j (h.border.of_lt hj hlt)

theorem fallBack_spec (h : IsPrefixTable substring i table) (hi : i ≤ substring.length) (fuel : Nat) :
    ∀ {k : Nat}, k < fuel → Extensible (cString substring) i k →
      ∃ k', fallBack substring table i fuel k = some k' ∧ Extensible (cString substring) i k' ∧
        (k' = 0 ∨ cString substring i = cString substring k') := by
  induction fuel with
  | zero => exact fun hk => absurd hk (Nat.not_lt_zero _)
  | succ fuel ih =>
    intro k hk hextensible
    rw [fallBack, if_neg (not_lt.mpr (hextensible.border.1.le.trans hi))]
    split
    case isTrue hcond =>
      obtain ⟨entry, hget, hborder⟩ := h.get hcond.1 hextensible.border.1.le
      rw [hget]
      exact ih (hborder.border.1.trans_le (Nat.le_of_lt_succ hk)) (hextensible.fallBack hcond.2 hborder)
    case isFalse hcond =>
      refine ⟨k, rfl, hextensible, ?_⟩
      rcases k.eq_zero_or_pos with hzero | hpos
      · exact .inl hzero
      · exact .inr (not_not.mp fun hne => hcond ⟨hpos, hne⟩)

/-- The border that is found is extended by the next character, or there is none. -/
theorem Extensible.longestBorder {s : Nat → UInt8} {k : Nat} (h : Extensible s i k)
    (hstop : k = 0 ∨ s i = s k) : LongestBorder s (i + 1) (if s i = s k then k + 1 else k) := by
  have hall : ∀ j, Border s (i + 1) (j + 1) → j ≤ k ∧ s i = s j := by
    intro j hj
    obtain ⟨hborder, heq⟩ := border_succ_iff.mp hj
    exact ⟨h.le j hborder heq, heq⟩
  split
  case isTrue heq =>
    refine ⟨border_succ_iff.mpr ⟨h.border, heq⟩, fun j hj => ?_⟩
    cases j with
    | zero => exact Nat.zero_le _
    | succ j => exact Nat.succ_le_succ (hall j hj).1
  case isFalse hne =>
    obtain rfl := hstop.resolve_right hne
    refine ⟨Border.zero i.succ_pos, fun j hj => ?_⟩
    cases j with
    | zero => exact le_rfl
    | succ j =>
      obtain ⟨hle, heq⟩ := hall j hj
      rw [Nat.le_zero.mp hle] at heq
      exact absurd heq hne

theorem nextPrefix_spec (h : IsPrefixTable substring i table) (hi : 0 < i) (hlen : i ≤ substring.length)
    (hfits : ∀ k, Border (cString substring) (i + 1) k → k < 2 ^ 31) :
    ∃ table', nextPrefix substring table i = some table' ∧ IsPrefixTable substring (i + 1) table' := by
  obtain ⟨entry, hget, hborder⟩ := h.get hi le_rfl
  obtain ⟨k', hfall, hextensible, hstop⟩ := fallBack_spec h hlen i hborder.border.1
    ⟨hborder.border, fun j hj _ => hborder.le j hj⟩
  have hlongest := hextensible.longestBorder hstop
  refine ⟨table ++ [.ofNat (if cString substring i = cString substring k' then k' + 1 else k')], ?_, ?_,
    fun q hq => ?_⟩
  · rw [nextPrefix, hget]
    dsimp only [bind_eq_bind, bind_some]
    rw [hfall]
    rfl
  · rw [length_append, length_singleton, h.length]
  · rcases Nat.lt_succ_iff_lt_or_eq.mp hq with hq | rfl
    · rw [getElem?_append_left (hq.trans_eq h.length.symm)]
      exact h.border q hq
    · rw [← h.length, getElem?_concat_length, h.length]
      exact ⟨_, hfits _ hlongest.border, rfl, hlongest⟩

end

theorem initPrefixTable_spec {substring : List UInt8} (h : substring ≠ [])
    (hfits : ∀ i < substring.length, ∀ k, Border (cString substring) (i + 1) k → k < 2 ^ 31) :
    ∃ table, initPrefixTable substring = some table ∧ IsPrefixTable substring substring.length table := by
  have hfirst : IsPrefixTable substring 1 [0] := by
    refine ⟨rfl, fun q hq => ?_⟩
    obtain rfl := Nat.lt_one_iff.mp hq
    exact ⟨0, by decide, rfl, Border.zero Nat.one_pos, fun j hj => Nat.le_of_lt_succ hj.1⟩
  obtain ⟨table, htable, hspec⟩ := foldlM_range'_rule (IsPrefixTable substring) (substring.length - 1) hfirst
    fun i hi hlt table htable => nextPrefix_spec htable hi (by omega) (hfits i (by omega))
  rw [Nat.add_sub_cancel' (length_pos_iff.mpr h)] at hspec
  exact ⟨table, htable, hspec⟩

theorem border_cString_iff {s : List UInt8} {i k : Nat} (hi : i < s.length) :
    Border (cString s) (i + 1) k ↔ k ≤ i ∧ s.take k = (s.take (i + 1)).drop (i + 1 - k) := by
  rw [Border, Nat.lt_succ_iff, ext_getElem_iff]
  refine and_congr_right fun hk => ⟨fun h => ⟨by grind, fun j hj hj' => ?_⟩, fun h j hj => ?_⟩
  · have := h j (by grind)
    grind [cString]
  · have := h.2 j (by grind) (by grind)
    grind [cString]

/-- The lengths of the proper borders of `s[0..i]`. -/
def borders (s : List UInt8) (i : Nat) : Set Nat :=
  {k | k ≤ i ∧ s.take k = (s.take (i + 1)).drop (i + 1 - k)}

/-- The fallback ends for every entry, and the entries are the lengths of the longest proper
    borders. -/
def TableRight (s : List UInt8) : Prop :=
  ∃ table, initPrefixTable s = some table ∧ table.length = s.length ∧
    ∀ i < s.length, ∃ entry k, table[i]? = some entry ∧ entry.toInt = (k : Nat) ∧ IsGreatest (borders s i) k

/-- The table is right exactly if no border is too long for an `int`. -/
theorem tableRight_iff {s : List UInt8} (h : s ≠ []) :
    TableRight s ↔ ∀ i < s.length, ∀ k ∈ borders s i, k < 2 ^ 31 := by
  constructor
  · rintro ⟨table, -, -, hentries⟩ i hi k hk
    obtain ⟨entry, longest, -, hentry, hgreatest⟩ := hentries i hi
    have hle := hgreatest.2 hk
    have := entry.toInt_lt
    omega
  · intro hfits
    obtain ⟨table, htable, hspec⟩ :=
      initPrefixTable_spec h fun i hi k hk => hfits i hi k ((border_cString_iff hi).mp hk)
    refine ⟨table, htable, hspec.length, fun i hi => ?_⟩
    obtain ⟨k, hk, hget, hborder⟩ := hspec.border i hi
    refine ⟨_, k, hget, Int32.toInt_ofNat_of_lt hk, (border_cString_iff hi).mp hborder.border,
      fun j hj => ?_⟩
    exact hborder.le j ((border_cString_iff hi).mpr hj)

theorem tableRight_iff_abab :
    initPrefixTable [97, 98, 97, 98] = some [0, 0, 1, 2] ∧ TableRight [97, 98, 97, 98] := by
  refine ⟨rfl, (tableRight_iff (by decide)).mpr fun i hi k hk => ?_⟩
  have := hk.1
  have : i < 4 := hi
  omega

/-- The last entry for 2 ^ 31 + 1 equal characters had to be 2 ^ 31; `INT_MIN` is stored. -/
theorem tableRight_equal_characters : ¬ TableRight (List.replicate (2 ^ 31 + 1) 97) := by
  rintro ⟨table, -, -, hentries⟩
  rw [length_replicate] at hentries
  obtain ⟨entry, longest, -, hentry, hgreatest⟩ := hentries (2 ^ 31) (Nat.lt_succ_self _)
  have hle : 2 ^ 31 ≤ longest := by
    apply hgreatest.2
    refine ⟨le_rfl, ?_⟩
    rw [take_replicate, take_replicate, drop_replicate]
    congr 1
  have := entry.toInt_lt
  omega

/-! ### The program -/

/-- What is known of the window and the state at a position. -/
structure At (pattern text : List UInt8) (p : Nat) (s : SearchWindow × SearchState) : Prop extends
    ShowsAt text bufferSize pattern.length p s.1 where
  holds : Holds text s.1
  substring : s.2.substring = pattern
  table : IsPrefixTable pattern pattern.length s.2.table
  matchCount_le : s.2.matchCount ≤ pattern.length
  agrees : Agrees (cString pattern) (cString text) p s.2.matchCount

/-- How many characters at a position match. -/
def matchAt (pattern text : List UInt8) (p : Nat) : Nat := commonPrefixLength pattern (text.drop p)

/-- What an iteration prints, and that it skips no occurrence. -/
def Spec (pattern text : List UInt8) (p p' : Nat) (printed : List (Nat × Nat)) : Prop :=
  printed = (if matchAt pattern text p ≠ 0 then [(p + 1, matchAt pattern text p)] else []) ∧
    ∀ q, p < q → q < p' → ¬ OccursAt pattern text q

section

variable {pattern text : List UInt8} {p l : Nat}

theorem matchAt_eq (hp : p + pattern.length ≤ text.length) (hl : l ≤ pattern.length)
    (hagrees : Agrees (cString pattern) (cString text) p l)
    (hstop : l = pattern.length ∨ cString text (p + l) ≠ cString pattern l) :
      matchAt pattern text p = l := by
  have hget : ∀ i < pattern.length, cString text (p + i) = cString pattern i ↔
      (text.drop p)[i]? = pattern[i]? := by
    intro i hi
    have hi' : p + i < text.length := by omega
    rw [cString, cString, getD_eq_getElem _ _ hi, getD_eq_getElem _ _ hi', getElem?_drop,
      getElem?_eq_getElem hi, getElem?_eq_getElem hi', some.injEq]
  apply commonPrefixLength_eq hl
  · exact fun i hi => (hget i (hi.trans_le hl)).mp (hagrees i hi)
  · rcases hl.eq_or_lt with heq | hlt
    · exact .inl heq
    · exact hstop.imp_right fun hne heq => hne ((hget l hlt).mpr heq)

theorem occursAt_iff_matchAt : OccursAt pattern text p ↔ matchAt pattern text p = pattern.length :=
  (commonPrefixLength_eq_length_iff pattern (text.drop p)).symm

variable {window : SearchWindow} {state : SearchState}

/-- The comparison goes on from the characters that are known to match. -/
theorem At.isMatch_spec (h : At pattern text p (window, state)) :
    (isMatch window state).2 = { state with matchCount := matchAt pattern text p } ∧
      matchAt pattern text p ≤ pattern.length ∧
      Agrees (cString pattern) (cString text) p (matchAt pattern text p) := by
  have hsubstring : state.substring = pattern := h.substring
  have hle : state.matchCount ≤ pattern.length := h.matchCount_le
  have hbyte : ∀ {i}, i < pattern.length → window.textBuffer (window.curIndex + i) = cString text (p + i) :=
    fun hi => h.holds.textBuffer h.toShowsAt hi
  -- the characters up to `l` match if none of those that were compared differs
  have hall : ∀ {l}, l ≤ pattern.length → (∀ i, state.matchCount ≤ i → i < l →
      window.textBuffer (window.curIndex + i) = cString pattern i) →
        Agrees (cString pattern) (cString text) p l := by
    intro l hl hequal i hi
    by_cases hknown : i < state.matchCount
    · exact h.agrees i hknown
    · rw [← hbyte (hi.trans_le hl)]
      exact hequal i (not_lt.mp hknown) hi
  rw [isMatch, hsubstring]
  cases hfind : (List.range' state.matchCount (pattern.length - state.matchCount)).find? fun pos =>
      window.textBuffer (window.curIndex + pos) ≠ cString pattern pos with
  | none =>
    rw [find?_range'_eq_none] at hfind
    have hagrees := hall le_rfl fun i hi hi' => by simpa using hfind i hi (by omega)
    rw [matchAt_eq h.add_le le_rfl hagrees (.inl rfl)]
    exact ⟨rfl, le_rfl, hagrees⟩
  | some pos =>
    rw [find?_range'_eq_some] at hfind
    obtain ⟨hdiffer, hmem, hbefore⟩ := hfind
    have hpos : pos < pattern.length := by
      have := mem_range'_1.mp hmem
      omega
    have hagrees := hall hpos.le fun i hi hi' => by simpa using hbefore i hi hi'
    have hne : cString text (p + pos) ≠ cString pattern pos := by
      rw [← hbyte hpos]
      simpa using hdiffer
    rw [matchAt_eq h.add_le hpos.le hagrees (.inr hne)]
    exact ⟨rfl, hpos.le, hagrees⟩

/-- The shift keeps the characters of the longest border, and skips no occurrence. -/
theorem calculateShift_spec (state : SearchState) (hpattern : pattern ≠ [])
    (hfits : pattern.length ≤ substringMaxSize)
    (htable : IsPrefixTable pattern pattern.length state.table) (hle : state.matchCount ≤ pattern.length)
    (hagrees : Agrees (cString pattern) (cString text) p state.matchCount) :
    ∃ shift k, calculateShift state = some (shift, { state with matchCount := k }) ∧
      0 < shift ∧ shift ≤ pattern.length ∧ k ≤ pattern.length ∧
      Agrees (cString pattern) (cString text) (p + shift) k ∧
      ∀ q, p < q → q < p + shift → ¬ OccursAt pattern text q := by
  rw [calculateShift]
  by_cases hzero : state.matchCount = 0
  · rw [if_pos hzero]
    refine ⟨1, 0, by rw [← hzero], Nat.one_pos, length_pos_iff.mpr hpattern, Nat.zero_le _, ?_, ?_⟩
    · exact fun i hi => absurd hi (Nat.not_lt_zero i)
    · intro q hq hq'
      omega
  · obtain ⟨entry, hget, hborder⟩ := htable.get (Nat.pos_of_ne_zero hzero) hle
    have hlt := hborder.border.1
    have hshift : (state.matchCount + (2 ^ 64 - toSize entry)) % 2 ^ 64 =
        state.matchCount - toSize entry := by
      rw [substringMaxSize] at hfits
      omega
    rw [if_neg hzero, hget]
    refine ⟨state.matchCount - toSize entry, toSize entry, congrArg (fun shift => some (shift, _)) hshift,
      Nat.sub_pos_of_lt hlt, (Nat.sub_le _ _).trans hle, hlt.le.trans hle,
      hagrees.shift hborder.border, fun q hq hq' hoccurs => ?_⟩
    have hindex : p + (q - p) = q := Nat.add_sub_cancel' hq.le
    apply hborder.not_agrees hagrees hle (Nat.sub_pos_of_lt hq) (Nat.sub_lt_left_of_lt_add hq.le hq')
    rw [hindex]
    exact ((occursAt_iff hpattern q 0).mp hoccurs).2

/-- One iteration, from a position to the next. -/
theorem At.iteration {s : SearchWindow × SearchState} (h : At pattern text p s) (hpattern : pattern ≠ [])
    (hfits : pattern.length ≤ substringMaxSize) :
    Advances (·.1.isEmpty) iteration (text.length - pattern.length) (Spec pattern text)
      (At pattern text) p s := by
  obtain ⟨window, state⟩ := s
  obtain ⟨hmatch, hle, hagrees⟩ := h.isMatch_spec
  obtain ⟨shift, k, hcalculate, hpos, hshift, hk, hagrees', hskip⟩ :=
    calculateShift_spec { state with matchCount := matchAt pattern text p } hpattern hfits h.table
      hle hagrees
  have hsubstring : state.substring = pattern := h.substring
  have hsize : 0 + pattern.length ≤ bufferSize := by
    rw [Nat.zero_add]
    exact hfits.trans (by decide)
  refine ⟨Nat.le_sub_of_add_le h.add_le, h.isEmpty, p + shift, _, (window.moveForward bufferSize 0
    (fun buffer source => memmove buffer source (bufferSize - source)) pattern.length shift,
    { state with matchCount := k }), Nat.lt_add_of_pos_right hpos, ?_, ⟨rfl, hskip⟩, ?_⟩
  · rw [KnuthMorrisPratt.iteration]
    dsimp only
    rw [hmatch, moveForward, hcalculate]
    dsimp only [bind_eq_bind, bind_some]
    rw [hsubstring, ← h.globalIndex]
  · refine (h.moveForward _ hshift (Nat.zero_le _) hsize).imp_right ?_
    rintro ⟨hshows, -, hholds⟩
    exact ⟨hshows, hholds h.holds fun _ i hi => memmove_eq _ hi, hsubstring, h.table, hk, hagrees'⟩

theorem Spec.eq_of_mem {p' : Nat} {printed : List (Nat × Nat)} (h : Spec pattern text p p' printed)
    {a : Nat × Nat} (ha : a ∈ printed) : a = (p + 1, matchAt pattern text p) := by
  rw [h.1] at ha
  split at ha
  · exact mem_singleton.mp ha
  · cases ha

end

/-- The table, and what the loop prints. -/
theorem findSubstring_eq (pattern : Pattern) (text : List UInt8) (memory : Buffer) :
    ∃ table, IsPrefixTable pattern.bytes pattern.bytes.length table ∧
      findSubstring memory pattern.bytes text =
        (searchLoop (fun s : SearchWindow × SearchState => s.1.isEmpty) iteration (text.length + 1)
          (initSearchWindow memory text pattern.bytes.length, ⟨pattern.bytes, table, 0⟩)).map
            fun printed => (table, printed.flatten) := by
  have hfits : ∀ i < pattern.bytes.length, ∀ k, Border (cString pattern.bytes) (i + 1) k → k < 2 ^ 31 := by
    intro i hi k hk
    have hmax : pattern.bytes.length ≤ 16 := pattern.length_le
    have := hk.1
    omega
  obtain ⟨table, htable, hspec⟩ := initPrefixTable_spec pattern.nonempty hfits
  refine ⟨table, hspec, ?_⟩
  rw [findSubstring, initSearchState, htable]
  dsimp only [bind_eq_bind, bind_some]
  cases searchLoop (fun s : SearchWindow × SearchState => s.1.isEmpty) iteration (text.length + 1)
      (initSearchWindow memory text pattern.bytes.length, ⟨pattern.bytes, table, 0⟩) with
  | none => rfl
  | some printed => rfl

theorem at_init {pattern text : List UInt8} {table : List Int32} (hfits : pattern.length ≤ substringMaxSize)
    (hlength : pattern.length ≤ text.length) (htable : IsPrefixTable pattern pattern.length table)
    (memory : Buffer) :
    At pattern text 0 (initSearchWindow memory text pattern.length, ⟨pattern, table, 0⟩) := by
  have hsize : pattern.length ≤ bufferSize := hfits.trans (by decide)
  have hshows : ShowsAt text bufferSize pattern.length 0 (initSearchWindow memory text pattern.length) :=
    showsAt_init memory hsize hlength fun textLen hle => decide_eq_false (not_lt.mpr hle)
  exact ⟨hshows, holds_init _ memory, rfl, htable, Nat.zero_le _, fun i hi => absurd hi (Nat.not_lt_zero i)⟩

/-- A text that is shorter than the pattern gives an empty window. -/
theorem findSubstring_of_lt (pattern : Pattern) {text : List UInt8}
    (hlength : text.length < pattern.bytes.length)
    (memory : Buffer) : ∃ table, findSubstring memory pattern.bytes text = some (table, []) := by
  obtain ⟨table, -, heq⟩ := findSubstring_eq pattern text memory
  have hempty : (initSearchWindow memory text pattern.bytes.length).isEmpty = true := by
    change decide ((text.take bufferSize).length < pattern.bytes.length) = true
    rw [length_take, decide_eq_true_eq]
    exact (Nat.min_le_right _ _).trans_lt hlength
  refine ⟨table, ?_⟩
  rw [heq, searchLoop, if_pos hempty]
  rfl

/-- The whole run on a text that is not shorter than the pattern. -/
theorem findSubstring_visits (pattern : Pattern) {text : List UInt8}
    (hlength : pattern.bytes.length ≤ text.length) (memory : Buffer) :
    ∃ table printed, findSubstring memory pattern.bytes text = some (table, printed.flatten) ∧
      Visits (text.length - pattern.bytes.length) (Spec pattern.bytes text) 0 printed := by
  obtain ⟨table, htable, heq⟩ := findSubstring_eq pattern text memory
  obtain ⟨printed, hloop, hvisits⟩ := searchLoop_visits
    (fun p s (h : At pattern.bytes text p s) => h.iteration pattern.nonempty pattern.length_le)
      (text.length + 1)
    (at_init pattern.length_le hlength htable memory) (by omega)
  refine ⟨table, printed, ?_, hvisits⟩
  rw [heq, hloop]
  rfl

/-- What is printed are positions in increasing order with the lengths of the common prefixes there,
    and all occurrences are among them. -/
theorem findSubstring_prefixes (pattern : Pattern) (text : List UInt8) (memory : Buffer) :
    ∃ table printed, findSubstring memory pattern.bytes text = some (table, printed) ∧
      printed.Pairwise (fun a b => a.1 < b.1) ∧
      (∀ a ∈ printed, 1 ≤ a.1 ∧ a.2 = commonPrefixLength pattern.bytes (text.drop (a.1 - 1))) ∧
      ∀ p, (p + 1, pattern.bytes.length) ∈ printed ↔ OccursAt pattern.bytes text p := by
  rcases lt_or_ge text.length pattern.bytes.length with hlength | hlength
  -- the pattern is too long to occur
  · obtain ⟨table, hrun⟩ := findSubstring_of_lt pattern hlength memory
    refine ⟨table, [], hrun, List.Pairwise.nil, fun a ha => absurd ha not_mem_nil,
      fun p => iff_of_false not_mem_nil fun hoccurs => ?_⟩
    have := ((occursAt_iff pattern.nonempty p 0).mp hoccurs).1
    omega
  · obtain ⟨table, printed, hrun, hvisits⟩ := findSubstring_visits pattern hlength memory
    have hmem : ∀ a ∈ printed.flatten, ∃ p, a = (p + 1, matchAt pattern.bytes text p) := by
      intro a ha
      obtain ⟨r, hr, har⟩ := mem_flatten.mp ha
      obtain ⟨p, p', -, -, -, hspec⟩ := hvisits.exists_of_mem r hr
      exact ⟨p, hspec.eq_of_mem har⟩
    refine ⟨table, printed.flatten, hrun, pairwise_flatten.mpr ⟨?_, ?_⟩, ?_, fun p => ⟨?_, ?_⟩⟩
    · intro r hr
      obtain ⟨p, p', -, -, -, hspec⟩ := hvisits.exists_of_mem r hr
      rw [hspec.1]
      split
      · exact pairwise_singleton _ _
      · exact List.Pairwise.nil
    · apply hvisits.pairwise
      intro p p' r q q' r' hpq hr hr' a ha b hb
      rw [hr.eq_of_mem ha, hr'.eq_of_mem hb]
      exact Nat.succ_lt_succ hpq
    · intro a ha
      obtain ⟨p, rfl⟩ := hmem a ha
      exact ⟨Nat.succ_pos p, rfl⟩
    · intro ha
      obtain ⟨q, heq⟩ := hmem _ ha
      obtain ⟨hq, hlen⟩ := Prod.mk.inj heq
      rw [Nat.succ.inj hq]
      exact occursAt_iff_matchAt.mpr hlen.symm
    · intro hoccurs
      have hin := ((occursAt_iff pattern.nonempty p 0).mp hoccurs).1
      obtain ⟨r, hr, p', hspec⟩ := hvisits.exists_of_good (OccursAt pattern.bytes text)
        (fun q q' r hspec => hspec.2) p (Nat.zero_le p) (by omega) hoccurs
      refine mem_flatten.mpr ⟨r, hr, ?_⟩
      rw [hspec.1, occursAt_iff_matchAt.mp hoccurs, if_pos (length_pos_iff.mpr pattern.nonempty).ne']
      exact mem_singleton_self _

end NsuLabs.FindSubstring.KnuthMorrisPratt
