/-
Module: NsuLabs.CrackHash.Worker
Purpose: The worker of `RIS/CrackHash`: `util.go`, `word_generator.go`, `hash_cracker.go` and `ProcessTask`
  of `task_processor.go`. The integers of Go wrap around; loops that need not end take fuel. A panic carries
  its message. The channel between `GenWords` and `CrackHash` is the list of the words sent; MD5 is a
  parameter, and log lines are left out.
Trusted boundary: the definitions
Main exports: parts_enumerate_words, words_all_generated_iff
-/
import NsuLabs.Lib.Positional
import NsuLabs.CrackHash.Manager

namespace NsuLabs.CrackHash

open Lib

/-- The worker's computations end, panic with a message, or are out of fuel. -/
abbrev Go := Outcome String

/-! ### util.go -/

/-- `for i := first; i <= last; i++` over `uint64`. -/
def forUpTo {σ : Type} (fuel : Nat) (first last : UInt64) (body : UInt64 → σ → Go (Flow σ)) (state : σ) :
    Go σ :=
  forLoop (fun i => decide (i ≤ last)) (· + 1) body fuel first state

def uInt64Pow (fuel : Nat) (n m : UInt64) : Go UInt64 :=
  if m = 0 then .done 1
  else if m = 1 then .done n
  else forUpTo fuel 2 m (fun _ result => .done (.next (result * n))) n

def totalWordCount (fuel : Nat) (maxWordLength alphabetLength : UInt64) : Go UInt64 :=
  forUpTo fuel 1 maxWordLength
    (fun l wordCount => do
      let power ← uInt64Pow fuel alphabetLength l
      .done (.next (wordCount + power)))
    0

/-! ### word_generator.go -/

/-- The inner loop of `genWordsInBlock`: the runes of one word, the least significant digit first. -/
def fillWord (alphabet : List Char) : Nat → UInt64 → Go (List Char)
  | 0, _ => .done []
  | n + 1, temp =>
    let alphabetSize := UInt64.ofNat alphabet.length
    if alphabetSize = 0 then .panic "integer divide by zero"
    else
      match alphabet[(temp % alphabetSize).toNat]? with
      | none => .panic "index out of range"
      | some rune => do
          let rest ← fillWord alphabet n (temp / alphabetSize)
          .done (rune :: rest)

/-- The words are sent to `out`. -/
def genWordsInBlock (fuel : Nat) (localStart localStop : UInt64) (alphabet : List Char) (blockSize : UInt64)
    (wordLength : Int64) (out : List String) : Go (List String) :=
  if localStart ≥ blockSize ∨ localStop > blockSize then .panic "index range does not fit into block"
  else
    forLoop (fun index => decide (index < localStop)) (· + 1)
      (fun index out => do
        let word ← fillWord alphabet wordLength.toInt.toNat index
        .done (.next (out ++ [String.ofList word])))
      fuel localStart out

/-- One pass of the loop over the word lengths in `GenWords`. The state is `globalOffset` and the
    words sent so far. -/
def genWordsPass (fuel : Nat) (startIndex stopIndex : UInt64) (alphabet : List Char) (wordLength : Int64)
    (state : UInt64 × List String) : Go (Flow (UInt64 × List String)) := do
  let (globalOffset, out) := state
  let blockSize ← uInt64Pow fuel (UInt64.ofNat alphabet.length) wordLength.toUInt64
  let blockStart := globalOffset
  let blockStop := globalOffset + blockSize
  -- not yet reached index range
  if startIndex ≥ blockStop then .done (.next (globalOffset + blockSize, out))
  -- passed the end of index range
  else if stopIndex ≤ blockStart then .done (.leave (globalOffset, out))
  else do
    let localStart := max startIndex blockStart - blockStart
    let localStop := min stopIndex blockStop - blockStart
    let out ← genWordsInBlock fuel localStart localStop alphabet blockSize wordLength out
    .done (.next (globalOffset + blockSize, out))

def genWords (fuel : Nat) (startIndex stopIndex : UInt64) (alphabet : List Char) (maxLength : Int64) :
    Go (List String) := do
  let (_, out) ← forLoop (fun wordLength => decide (wordLength ≤ maxLength)) (· + 1)
    (genWordsPass fuel startIndex stopIndex alphabet) fuel 1 (0, [])
  .done out

/-! ### hash_cracker.go and task_processor.go -/

def crackHash (computeHash : String → String) (targetHash : String) (words : List String) : List String :=
  words.filter fun word => computeHash word == targetHash

/-- `CrackTask` without the request id, which is only logged. -/
structure CrackTask where
  hash : String
  maxLength : UInt64
  alphabet : String
  partNumber : UInt32
  partCount : UInt32
deriving DecidableEq

/-- The words that `ProcessTask` hands to `CrackHash`. `len` of a string counts bytes. -/
def generatedWords (fuel : Nat) (task : CrackTask) : Go (List String) := do
  let totalWords ← totalWordCount fuel task.maxLength (UInt64.ofNat task.alphabet.utf8ByteSize)
  if task.partCount = 0 then .panic "integer divide by zero"
  else
    let chunkSize := totalWords / task.partCount.toUInt64
    let startIndex := chunkSize * task.partNumber.toUInt64
    -- the last part takes the remainder
    let stopIndex := if task.partNumber = task.partCount - 1 then totalWords else startIndex + chunkSize
    genWords fuel startIndex stopIndex task.alphabet.toList task.maxLength.toInt64

def processTask (fuel : Nat) (computeHash : String → String) (task : CrackTask) : Go (List String) := do
  let words ← generatedWords fuel task
  .done (crackHash computeHash task.hash words)

open List

/-! ### Powers and counts modulo 2^64 -/

theorem toNat_ofNat (n : Nat) (hn : n < 2 ^ 64) : (UInt64.ofNat n).toNat = n := UInt64.toNat_ofNat_of_lt' hn

theorem ofNat_le_iff {j : Nat} {m : UInt64} (hj : j < 2 ^ 64) : UInt64.ofNat j ≤ m ↔ j ≤ m.toNat := by
  rw [UInt64.le_iff_toNat_le, toNat_ofNat j hj]

variable {fuel : Nat}

/-- A loop from `first` to `last`, where `last` is not the largest `uint64`, computes `value` in as
    many passes. -/
theorem forUpTo_eq {σ : Type} (first : Nat) {last : UInt64} {body : UInt64 → σ → Go (Flow σ)}
    (value : Nat → σ) (hfirst : first ≤ last.toNat + 1) (hlast : last.toNat < 2 ^ 64 - 1)
    (hfuel : 2 ^ 64 ≤ fuel) (hbody : ∀ j, first + j ≤ last.toNat →
      body (UInt64.ofNat (first + j)) (value j) = .done (.next (value (j + 1)))) :
    forUpTo fuel (UInt64.ofNat first) last body (value 0) = .done (value (last.toNat + 1 - first)) := by
  apply forLoop_eq_done (fun j => UInt64.ofNat (first + j)) value
  · intro j _
    rw [← Nat.add_assoc, UInt64.ofNat_add (first + j) 1]
    rfl
  · intro j hj
    rw [decide_eq_true_iff, ofNat_le_iff (by omega)]
    omega
  · rw [decide_eq_false_iff_not, ofNat_le_iff (by omega)]
    omega
  · intro j hj
    exact hbody j (by omega)
  · omega

theorem uInt64Pow_eq (hfuel : 2 ^ 64 ≤ fuel) (n : UInt64) {m : UInt64}
    (hm : m.toNat < 2 ^ 64 - 1) : uInt64Pow fuel n m = .done (UInt64.ofNat (n.toNat ^ m.toNat)) := by
  rw [uInt64Pow]
  split_ifs with hzero hone
  · rw [hzero]
    rfl
  · rw [hone]
    simp
  · have hne : m.toNat ≠ 0 ∧ m.toNat ≠ 1 := by
      rw [← UInt64.toNat_inj] at hzero hone
      exact ⟨hzero, hone⟩
    have hrun : forUpTo fuel (UInt64.ofNat 2) m (fun _ result => .done (.next (result * n)))
        (UInt64.ofNat (n.toNat ^ (0 + 1))) = .done (UInt64.ofNat (n.toNat ^ (m.toNat + 1 - 2 + 1))) := by
      apply forUpTo_eq 2 (fun j => UInt64.ofNat (n.toNat ^ (j + 1))) (by omega) hm hfuel
      intro j _
      rw [pow_succ n.toNat (j + 1), UInt64.ofNat_mul, UInt64.ofNat_toNat]
    have hexp : m.toNat + 1 - 2 + 1 = m.toNat := by omega
    rw [hexp, Nat.zero_add, pow_one, UInt64.ofNat_toNat] at hrun
    exact hrun

theorem totalWordCount_eq (hfuel : 2 ^ 64 ≤ fuel) {maxWordLength : UInt64}
    (hmax : maxWordLength.toNat < 2 ^ 64 - 1) (alphabetLength : UInt64) :
    totalWordCount fuel maxWordLength alphabetLength =
      .done (UInt64.ofNat (wordCount alphabetLength.toNat maxWordLength.toNat)) := by
  apply forUpTo_eq 1 (fun j => UInt64.ofNat (wordCount alphabetLength.toNat j)) (by omega) hmax hfuel
  intro j hj
  have hl := toNat_ofNat (1 + j) (by omega)
  rw [uInt64Pow_eq hfuel _ (by omega), hl, Outcome.done_bind, ← UInt64.ofNat_add, Nat.add_comm 1 j]
  rfl

/-! ### One block of words -/

theorem fillWord_eq {alphabet : List Char} (hne : alphabet ≠ []) (hsize : alphabet.length < 2 ^ 64) (n : Nat)
    (temp : UInt64) : fillWord alphabet n temp = .done (wordOf alphabet n temp.toNat) := by
  have hlen := toNat_ofNat alphabet.length hsize
  have hpos : 0 < alphabet.length := length_pos_iff.2 hne
  induction n generalizing temp with
  | zero => rfl
  | succ n ih =>
    have hsome : UInt64.ofNat alphabet.length ≠ 0 := by
      intro hzero
      rw [hzero] at hlen
      exact absurd hlen (by simpa using hpos.ne)
    have hmod : (temp % UInt64.ofNat alphabet.length).toNat = temp.toNat % alphabet.length := by
      rw [UInt64.toNat_mod, hlen]
    have hdiv : (temp / UInt64.ofNat alphabet.length).toNat = temp.toNat / alphabet.length := by
      rw [UInt64.toNat_div, hlen]
    have hletter := Nat.mod_lt temp.toNat hpos
    simp only [fillWord, if_neg hsome, hmod, getElem?_eq_getElem hletter]
    rw [ih, hdiv, Outcome.done_bind, wordOf_succ n _ hletter]

/-- Within a block that fits in 64 bits the words between the two indices are sent. -/
theorem genWordsInBlock_eq (hfuel : 2 ^ 64 ≤ fuel) {alphabet : List Char} (hne : alphabet ≠ [])
    (hsize : alphabet.length < 2 ^ 64) {wordLength : Nat} (hlength : wordLength < 2 ^ 63)
    {blockSize localStart localStop : UInt64} (hblock : blockSize.toNat = alphabet.length ^ wordLength)
    (hstart : localStart.toNat < blockSize.toNat) (hstop : localStop.toNat ≤ blockSize.toNat)
    (hle : localStart.toNat ≤ localStop.toNat) (out : List String) :
    genWordsInBlock fuel localStart localStop alphabet blockSize (Int64.ofNat wordLength) out =
      .done (out ++ (slice localStart.toNat localStop.toNat (blockWords alphabet wordLength)).map
        String.ofList) := by
  have hguard : ¬ (localStart ≥ blockSize ∨ localStop > blockSize) := by
    rw [ge_iff_le, gt_iff_lt, UInt64.le_iff_toNat_le, UInt64.lt_iff_toNat_lt]
    omega
  have hcount : (Int64.ofNat wordLength).toInt.toNat = wordLength := by
    rw [Int64.toInt_ofNat_of_lt hlength]
    rfl
  have hbound : localStop.toNat < 2 ^ 64 := localStop.toNat_lt
  rw [genWordsInBlock, if_neg hguard, hcount]
  have hrun : forLoop (fun index => decide (index < localStop)) (· + 1)
      (fun index out => do
        let word ← fillWord alphabet wordLength index
        .done (.next (out ++ [String.ofList word])))
      fuel (UInt64.ofNat (localStart.toNat + 0))
      (out ++ (slice localStart.toNat (localStart.toNat + 0) (blockWords alphabet wordLength)).map
        String.ofList) =
      .done (out ++ (slice localStart.toNat (localStart.toNat + (localStop.toNat - localStart.toNat))
        (blockWords alphabet wordLength)).map String.ofList) := by
    apply forLoop_eq_done (fun j => UInt64.ofNat (localStart.toNat + j))
      (fun j => out ++ (slice localStart.toNat (localStart.toNat + j)
        (blockWords alphabet wordLength)).map String.ofList)
    · intro j _
      rw [← Nat.add_assoc, UInt64.ofNat_add (localStart.toNat + j) 1]
      rfl
    · intro j hj
      rw [decide_eq_true_iff, UInt64.lt_iff_toNat_lt,
        toNat_ofNat (localStart.toNat + j) (by omega)]
      omega
    · rw [decide_eq_false_iff_not, UInt64.lt_iff_toNat_lt,
        toNat_ofNat (localStart.toNat + (localStop.toNat - localStart.toNat)) (by omega)]
      omega
    · intro j hj
      have hindex := toNat_ofNat (localStart.toNat + j) (by omega)
      have hword : (blockWords alphabet wordLength)[localStart.toNat + j]? =
          some (wordOf alphabet wordLength (localStart.toNat + j)) := by
        rw [blockWords, getElem?_map, getElem?_range (by omega)]
        rfl
      rw [fillWord_eq hne hsize, hindex, Outcome.done_bind, ← Nat.add_assoc, slice_succ (by omega) hword,
        map_append, append_assoc]
      rfl
    · omega
  rw [Nat.add_sub_cancel' hle, Nat.add_zero, slice_self, UInt64.ofNat_toNat] at hrun
  simpa using hrun

/-! ### The loop over the word lengths -/

theorem toNat_max_sub (a b : UInt64) : (max a b - b).toNat = a.toNat - b.toNat := by
  have hmax : (max a b).toNat = max a.toNat b.toNat := by
    change (if a ≤ b then b else a).toNat = _
    split_ifs with h <;> rw [UInt64.le_iff_toNat_le] at h <;> omega
  have hle : b ≤ max a b := by
    rw [UInt64.le_iff_toNat_le]
    omega
  rw [UInt64.toNat_sub_of_le _ _ hle, hmax]
  omega

theorem toNat_min_sub {a b c : UInt64} (hc : c.toNat ≤ min a.toNat b.toNat) :
    (min a b - c).toNat = min (a.toNat - c.toNat) (b.toNat - c.toNat) := by
  have hmin : (min a b).toNat = min a.toNat b.toNat := by
    change (if a ≤ b then a else b).toNat = _
    split_ifs with h <;> rw [UInt64.le_iff_toNat_le] at h <;> omega
  have hle : c ≤ min a b := by
    rw [UInt64.le_iff_toNat_le]
    omega
  rw [UInt64.toNat_sub_of_le _ _ hle, hmin]
  omega

/-- The shorter words are the first ones. -/
theorem exists_wordsUpTo_append (alphabet : List Char) {j n : Nat} (hj : j ≤ n) :
    ∃ rest, wordsUpTo alphabet n = wordsUpTo alphabet j ++ rest := by
  induction n, hj using Nat.le_induction with
  | base => exact ⟨[], by rw [append_nil]⟩
  | succ n hj ih =>
    obtain ⟨rest, hrest⟩ := ih
    exact ⟨rest ++ blockWords alphabet (n + 1), by rw [wordsUpTo, hrest, append_assoc]⟩

theorem wordCount_zero (n : Nat) : wordCount 0 n = 0 := by
  induction n with
  | zero => rfl
  | succ n ih => rw [wordCount, ih, zero_pow (Nat.succ_ne_zero n), Nat.add_zero]

theorem wordCount_one (n : Nat) : wordCount 1 n = n := by
  induction n with
  | zero => rfl
  | succ n ih => rw [wordCount, ih, one_pow]

/-- Only an alphabet of at most one letter has so few words of great length. -/
theorem alphabetSize_le_one {k n : Nat} (hn : 64 ≤ n) (hcount : wordCount k n < 2 ^ 64) : k ≤ 1 := by
  by_contra hk
  obtain ⟨n, rfl⟩ : ∃ m, n = m + 1 := ⟨n - 1, by omega⟩
  have hpow : 2 ^ 64 ≤ k ^ (n + 1) :=
    calc 2 ^ 64 ≤ 2 ^ (n + 1) := Nat.pow_le_pow_right (by omega) hn
      _ ≤ k ^ (n + 1) := Nat.pow_le_pow_left (by omega) (n + 1)
  rw [wordCount] at hcount
  omega

/-- The state before the pass for the length `j + 1`. -/
def stateBefore (startIndex stopIndex : UInt64) (alphabet : List Char) (j : Nat) : UInt64 × List String :=
  (UInt64.ofNat (wordCount alphabet.length j),
    (slice startIndex.toNat stopIndex.toNat (wordsUpTo alphabet j)).map String.ofList)

section Passes

variable {fuel : Nat} (hfuel : 2 ^ 64 ≤ fuel) {alphabet : List Char} (hsize : alphabet.length < 2 ^ 64)
  {startIndex stopIndex : UInt64}

include hfuel hsize

theorem uInt64Pow_wordLength {j : Nat} (hj : j < 2 ^ 63) :
    uInt64Pow fuel (UInt64.ofNat alphabet.length) (Int64.ofNat (j + 1)).toUInt64 =
      .done (UInt64.ofNat (alphabet.length ^ (j + 1))) := by
  have hlen : (Int64.ofNat (j + 1)).toUInt64.toNat = j + 1 := by
    rw [Int64.toUInt64_ofNat']
    exact toNat_ofNat (j + 1) (by omega)
  rw [uInt64Pow_eq hfuel _ (by omega), hlen, toNat_ofNat _ hsize]

/-- A pass within the word lengths goes on to the next one, or leaves because every index is passed. -/
theorem genWordsPass_step (j : Nat) (hj : j + 1 < 2 ^ 63)
    (hcount : wordCount alphabet.length (j + 1) < 2 ^ 64) (hle : startIndex.toNat ≤ stopIndex.toNat) :
    (genWordsPass fuel startIndex stopIndex alphabet (Int64.ofNat (j + 1))
        (stateBefore startIndex stopIndex alphabet j) =
      .done (.next (stateBefore startIndex stopIndex alphabet (j + 1)))) ∨
    (stopIndex.toNat ≤ wordCount alphabet.length j ∧
      genWordsPass fuel startIndex stopIndex alphabet (Int64.ofNat (j + 1))
        (stateBefore startIndex stopIndex alphabet j) =
      .done (.leave (stateBefore startIndex stopIndex alphabet j))) := by
  have hsucc : wordCount alphabet.length (j + 1) = wordCount alphabet.length j + alphabet.length ^ (j + 1) :=
    rfl
  have hlen := length_wordsUpTo alphabet j
  have hblockStart := toNat_ofNat (wordCount alphabet.length j) (by omega)
  have hblockSize := toNat_ofNat (alphabet.length ^ (j + 1)) (by omega)
  have hsum : UInt64.ofNat (wordCount alphabet.length j) + UInt64.ofNat (alphabet.length ^ (j + 1)) =
      UInt64.ofNat (wordCount alphabet.length (j + 1)) := by
    rw [hsucc, UInt64.ofNat_add]
  have hblockStop := toNat_ofNat (wordCount alphabet.length (j + 1)) hcount
  simp only [genWordsPass, stateBefore, uInt64Pow_wordLength hfuel hsize (show j < 2 ^ 63 by omega),
    Outcome.done_bind, hsum, ge_iff_le, UInt64.le_iff_toNat_le, hblockStart, hblockStop]
  split_ifs with hbefore hafter
  · -- both slices are empty
    left
    rw [slice_of_length_le (by omega), slice_of_length_le (by rw [length_wordsUpTo]; omega)]
  · exact .inr ⟨hafter, rfl⟩
  · left
    have hne : alphabet ≠ [] := by
      rintro rfl
      rw [length_nil, wordCount_zero] at hbefore
      omega
    have hstart := toNat_max_sub startIndex (UInt64.ofNat (wordCount alphabet.length j))
    have hstop : (min stopIndex (UInt64.ofNat (wordCount alphabet.length (j + 1))) -
        UInt64.ofNat (wordCount alphabet.length j)).toNat =
        min (stopIndex.toNat - wordCount alphabet.length j) (alphabet.length ^ (j + 1)) := by
      rw [toNat_min_sub (by omega), hblockStart, hblockStop]
      omega
    rw [hblockStart] at hstart
    have hpos : 0 < alphabet.length ^ (j + 1) := Nat.pow_pos (length_pos_iff.2 hne)
    have hfits : startIndex.toNat - wordCount alphabet.length j < alphabet.length ^ (j + 1) := by omega
    have hordered : startIndex.toNat - wordCount alphabet.length j ≤
        min (stopIndex.toNat - wordCount alphabet.length j) (alphabet.length ^ (j + 1)) :=
      Nat.le_min.2 ⟨by omega, hfits.le⟩
    rw [genWordsInBlock_eq hfuel hne hsize hj hblockSize (by rw [hstart, hblockSize]; exact hfits)
      (by rw [hstop, hblockSize]; exact Nat.min_le_right _ _) (by rw [hstart, hstop]; exact hordered),
      Outcome.done_bind]
    rw [wordsUpTo, slice_append, map_append, hstart, hstop, hlen, ← length_blockWords, slice_min_length]

/-- With the largest `int` as the maximal length the counter wraps around after the last length; the
    pass then made leaves. -/
theorem genWordsPass_wrapped {maxLength : Nat} (hmax : maxLength = 2 ^ 63 - 1) (hne : alphabet ≠ [])
    (hcount : wordCount alphabet.length maxLength < 2 ^ 64) (hle : startIndex.toNat ≤ stopIndex.toNat)
    (hstop : stopIndex.toNat ≤ wordCount alphabet.length maxLength) :
    genWordsPass fuel startIndex stopIndex alphabet (Int64.ofNat (maxLength + 1))
        (stateBefore startIndex stopIndex alphabet maxLength) =
      .done (.leave (stateBefore startIndex stopIndex alphabet maxLength)) := by
  have hone : alphabet.length = 1 := by
    have hpos := length_pos_iff.2 hne
    have hsmall := alphabetSize_le_one (by omega) hcount
    omega
  rw [hone, wordCount_one] at hcount hstop
  simp only [genWordsPass, stateBefore, uInt64Pow_wordLength hfuel hsize (show maxLength < 2 ^ 63 by omega),
    Outcome.done_bind]
  simp only [hone, one_pow, wordCount_one]
  have hsum : UInt64.ofNat maxLength + UInt64.ofNat 1 = UInt64.ofNat (maxLength + 1) := by
    rw [UInt64.ofNat_add]
  have hblockStop := toNat_ofNat (maxLength + 1) (by omega)
  have hblockStart := toNat_ofNat maxLength hcount
  rw [hsum, if_neg (by rw [ge_iff_le, UInt64.le_iff_toNat_le]; omega),
    if_pos (by rw [UInt64.le_iff_toNat_le]; omega)]

/-- As long as the word count fits in 64 bits, the words between the two indices are sent. The empty
    alphabet needs a bound of its own: its loop over the lengths does not leave before the counter
    wraps. -/
theorem genWords_eq (startIndex stopIndex : UInt64) {maxLength : Nat} (hmax : maxLength < 2 ^ 63)
    (hempty : alphabet = [] → maxLength < 2 ^ 63 - 1) (hcount : wordCount alphabet.length maxLength < 2 ^ 64)
    (hle : startIndex.toNat ≤ stopIndex.toNat)
    (hstop : stopIndex.toNat ≤ wordCount alphabet.length maxLength) :
    genWords fuel startIndex stopIndex alphabet (Int64.ofNat maxLength) =
      .done ((slice startIndex.toNat stopIndex.toNat (wordsUpTo alphabet maxLength)).map String.ofList) := by
  have hint : ∀ j ≤ maxLength, (Int64.ofNat j).toInt = j := fun j hj =>
    Int64.toInt_ofNat_of_lt (by omega)
  have hloop : ∃ state, forLoop (fun wordLength => decide (wordLength ≤ Int64.ofNat maxLength)) (· + 1)
      (genWordsPass fuel startIndex stopIndex alphabet) fuel (Int64.ofNat (0 + 1))
      (stateBefore startIndex stopIndex alphabet 0) = .done state ∧
      state.2 = (stateBefore startIndex stopIndex alphabet maxLength).2 := by
    apply forLoop_rule (fun j s => s = stateBefore startIndex stopIndex alphabet j)
      (fun s => s.2 = (stateBefore startIndex stopIndex alphabet maxLength).2)
      (fun j => Int64.ofNat (j + 1)) maxLength
    · intro j _
      rw [Int64.ofNat_add (j + 1) 1]
      rfl
    · rintro j hj s rfl
      have hmono := wordCount_mono alphabet.length (show j + 1 ≤ maxLength by omega)
      refine ⟨?_, ?_⟩
      · rw [decide_eq_true_iff, Int64.le_iff_toInt_le, hint _ (by omega), hint _ le_rfl]
        omega
      · rcases genWordsPass_step hfuel hsize j (by omega) (by omega) hle with hnext | ⟨hpassed, hleave⟩
        · exact .inl ⟨_, hnext, rfl⟩
        · refine .inr ⟨_, hleave, ?_⟩
          -- the remaining words lie behind the last index
          obtain ⟨rest, hrest⟩ := exists_wordsUpTo_append alphabet hj.le
          rw [stateBefore, stateBefore, hrest,
            slice_of_le_length_left (by rw [length_wordsUpTo]; exact hpassed)]
    · rintro s rfl
      rcases Nat.lt_or_ge (maxLength + 1) (2 ^ 63) with hlt | hge
      · refine .inl ⟨?_, rfl⟩
        rw [decide_eq_false_iff_not, Int64.le_iff_toInt_le, hint _ le_rfl, Int64.toInt_ofNat_of_lt hlt]
        omega
      · have hlargest : maxLength = 2 ^ 63 - 1 := by omega
        refine .inr ⟨?_, _, genWordsPass_wrapped hfuel hsize hlargest (fun h => by have := hempty h; omega)
          hcount hle hstop, rfl⟩
        rw [hlargest]
        decide
    · omega
    · rfl
  obtain ⟨state, hrun, hstate⟩ := hloop
  have hzero : stateBefore startIndex stopIndex alphabet 0 = (0, []) := by
    simp [stateBefore, wordCount, wordsUpTo, slice]
  have hinit : forLoop (fun wordLength => decide (wordLength ≤ Int64.ofNat maxLength)) (· + 1)
      (genWordsPass fuel startIndex stopIndex alphabet) fuel 1 (0, []) = .done state := by
    rw [← hzero]
    exact hrun
  rw [genWords, hinit, Outcome.done_bind]
  exact congrArg Outcome.done hstate

end Passes

/-! ### The parts of a task -/

/-- Where the index range of part `p` begins; the last part ends at the word count. -/
def cut (total partCount p : Nat) : Nat := if p < partCount then total / partCount * p else total

theorem cut_monotone (total partCount : Nat) : Monotone (cut total partCount) := by
  apply monotone_nat_of_le_succ
  intro p
  simp only [cut]
  split_ifs with hp hp'
  · exact Nat.mul_le_mul_left _ (Nat.le_succ p)
  · calc total / partCount * p ≤ total / partCount * partCount := Nat.mul_le_mul_left _ hp.le
      _ ≤ total := Nat.div_mul_le_self total partCount
  · omega
  · exact le_rfl

/-- The bytes of an ASCII string are its characters. -/
theorem utf8ByteSize_of_ascii {s : String} (hascii : ∀ c ∈ s.toList, c.toNat < 128) :
    s.utf8ByteSize = s.toList.length := by
  have hlist : ∀ cs : List Char, (∀ c ∈ cs, c.toNat < 128) →
      (String.ofList cs).utf8ByteSize = cs.length := by
    intro cs
    induction cs with
    | nil => intro _; rfl
    | cons c cs ih =>
      intro hcs
      have hone : c.utf8Size = 1 := Char.utf8Size_eq_one_iff.2 (by
        rw [UInt32.le_iff_toNat_le]
        have := hcs c (by simp)
        exact Nat.le_of_lt_succ this)
      rw [String.ofList_cons, String.utf8ByteSize_append, String.utf8ByteSize_singleton, hone,
        ih fun d hd => hcs d (by simp [hd]), length_cons, Nat.add_comm]
  rw [← hlist s.toList hascii, String.ofList_toList]

/-- There are 128 ASCII characters. -/
theorem length_le_of_ascii {cs : List Char} (hnodup : cs.Nodup) (hascii : ∀ c ∈ cs, c.toNat < 128) :
    cs.length ≤ 128 := by
  have hmap : (cs.map Char.toNat).Nodup := hnodup.map fun _ _ h => Char.toNat_inj.1 h
  have hsub : cs.map Char.toNat ⊆ List.range 128 := by
    intro n hn
    obtain ⟨c, hc, rfl⟩ := List.mem_map.1 hn
    exact mem_range.2 (hascii c hc)
  have hlen := (hmap.subperm hsub).length_le
  rwa [length_map, length_range] at hlen

theorem cut_last (total partCount : Nat) : cut total partCount partCount = total := if_neg (lt_irrefl _)

variable {partCount : Nat}

theorem cut_le_total (total : Nat) {p : Nat} (hp : p ≤ partCount) : cut total partCount p ≤ total :=
  calc cut total partCount p ≤ cut total partCount partCount := cut_monotone total partCount hp
    _ = total := cut_last total partCount

/-- The words of part `p`: those between its two cuts in the list of all words. -/
def partWords (alphabet : List Char) (maxLength partCount p : Nat) : List String :=
  (slice (cut (wordCount alphabet.length maxLength) partCount p)
    (cut (wordCount alphabet.length maxLength) partCount (p + 1)) (wordsUpTo alphabet maxLength)).map
      String.ofList

/-- The parts make up the whole list. -/
theorem flatMap_partWords (alphabet : List Char) (maxLength : Nat) (hparts : 1 ≤ partCount) :
    (List.range partCount).flatMap (partWords alphabet maxLength partCount) =
      (wordsUpTo alphabet maxLength).map String.ofList := by
  have hfirst : cut (wordCount alphabet.length maxLength) partCount 0 = 0 := by
    rw [cut, if_pos (by omega), Nat.mul_zero]
  have hlast : cut (wordCount alphabet.length maxLength) partCount partCount =
      (wordsUpTo alphabet maxLength).length := by
    rw [cut_last, length_wordsUpTo]
  have hslices := flatMap_slice (cut (wordCount alphabet.length maxLength) partCount)
    (cut_monotone _ _) partCount (wordsUpTo alphabet maxLength)
  rw [hfirst, hlast, slice_length] at hslices
  conv_rhs => rw [← hslices, map_flatMap]
  rfl

section Indices

variable {total : Nat} (hcount : total < 2 ^ 64) {partNumber partCount : UInt32}
  (hpart : partNumber.toNat < partCount.toNat)

include hcount hpart

/-- The start index that `ProcessTask` computes does not wrap. -/
theorem startIndex_toNat :
    (UInt64.ofNat total / partCount.toUInt64 * partNumber.toUInt64).toNat =
      cut total partCount.toNat partNumber.toNat := by
  have hle := cut_le_total total hpart.le
  rw [cut, if_pos hpart] at hle ⊢
  rw [UInt64.toNat_mul, UInt64.toNat_div, toNat_ofNat _ hcount, UInt32.toNat_toUInt64,
    UInt32.toNat_toUInt64]
  exact Nat.mod_eq_of_lt (lt_of_le_of_lt hle hcount)

/-- So does not the stop index; the last part ends at the word count. -/
theorem stopIndex_toNat :
    (if partNumber = partCount - 1 then UInt64.ofNat total else
      UInt64.ofNat total / partCount.toUInt64 * partNumber.toUInt64 +
        UInt64.ofNat total / partCount.toUInt64).toNat =
      cut total partCount.toNat (partNumber.toNat + 1) := by
  have hle := cut_le_total total (show partNumber.toNat + 1 ≤ partCount.toNat by omega)
  have hpred : (partCount - 1).toNat = partCount.toNat - 1 :=
    UInt32.toNat_sub_of_le _ _ (by rw [UInt32.le_iff_toNat_le]; exact Nat.one_le_of_lt hpart)
  split_ifs with heq
  · rw [heq, hpred] at hpart ⊢
    rw [cut, if_neg (by omega)]
    exact toNat_ofNat _ hcount
  · have hne : partNumber.toNat ≠ partCount.toNat - 1 := by
      rw [← hpred]
      exact fun h => heq (UInt32.toNat_inj.1 h)
    have hnext : cut total partCount.toNat (partNumber.toNat + 1) =
        cut total partCount.toNat partNumber.toNat + total / partCount.toNat := by
      rw [cut, if_pos (by omega), cut, if_pos hpart, Nat.mul_succ]
    rw [UInt64.toNat_add, startIndex_toNat hcount hpart, UInt64.toNat_div, toNat_ofNat _ hcount,
      UInt32.toNat_toUInt64, ← hnext]
    exact Nat.mod_eq_of_lt (lt_of_le_of_lt hle hcount)

end Indices

variable {task : CrackTask}

/-- The words of one part are the slice between its two cuts. -/
theorem generatedWords_eq (hfuel : 2 ^ 64 ≤ fuel)
    (hascii : ∀ c ∈ task.alphabet.toList, c.toNat < 128) (hsize : task.alphabet.toList.length < 2 ^ 64)
    (hmax : task.maxLength.toNat < 2 ^ 63) (hempty : task.alphabet = "" → task.maxLength.toNat < 2 ^ 63 - 1)
    (hcount : wordCount task.alphabet.toList.length task.maxLength.toNat < 2 ^ 64)
    (hpart : task.partNumber.toNat < task.partCount.toNat) :
    generatedWords fuel task =
      .done (partWords task.alphabet.toList task.maxLength.toNat task.partCount.toNat
        task.partNumber.toNat) := by
  have hk : (UInt64.ofNat task.alphabet.utf8ByteSize).toNat = task.alphabet.toList.length := by
    rw [utf8ByteSize_of_ascii hascii]
    exact toNat_ofNat _ hsize
  have hsome : task.partCount ≠ 0 := by
    intro hzero
    rw [hzero] at hpart
    exact absurd hpart (Nat.not_lt_zero _)
  have hint : task.maxLength.toInt64 = Int64.ofNat task.maxLength.toNat := by
    rw [← UInt64.toInt64_ofNat', UInt64.ofNat_toNat]
  have hnil : task.alphabet.toList = [] → task.maxLength.toNat < 2 ^ 63 - 1 :=
    fun h => hempty (String.toList_eq_nil_iff.1 h)
  rw [generatedWords, totalWordCount_eq hfuel (by omega), hk, Outcome.done_bind, if_neg hsome, hint]
  -- the two indices the code computes are the two cuts
  have hstart := startIndex_toNat hcount hpart
  have hstop := stopIndex_toNat hcount hpart
  rw [partWords, ← hstart, ← hstop]
  apply genWords_eq hfuel hsize _ _ hmax hnil hcount
  · rw [hstart, hstop]
    exact cut_monotone _ _ (Nat.le_succ _)
  · rw [hstop]
    exact cut_le_total _ hpart

/-- The words of part `p` of a task. -/
theorem generatedWords_part (hfuel : 2 ^ 64 ≤ fuel) (hash : String) {alphabet : String}
    (hdistinct : alphabet.toList.Nodup) (hascii : ∀ c ∈ alphabet.toList, c.toNat < 128) {maxLength : UInt64}
    (hmax : maxLength.toNat < 2 ^ 63) (hempty : alphabet = "" → maxLength.toNat < 2 ^ 63 - 1)
    (hcount : wordCount alphabet.toList.length maxLength.toNat ≤ 2 ^ 64 - 1) {partCount : UInt32} {p : Nat}
    (hp : p < partCount.toNat) :
    generatedWords fuel ⟨hash, maxLength, alphabet, UInt32.ofNat p, partCount⟩ =
      .done (partWords alphabet.toList maxLength.toNat partCount.toNat p) := by
  have hsize : alphabet.toList.length < 2 ^ 64 :=
    lt_of_le_of_lt (length_le_of_ascii hdistinct hascii) (by norm_num)
  have hfits : wordCount alphabet.toList.length maxLength.toNat < 2 ^ 64 := by omega
  have hnumber : (UInt32.ofNat p).toNat = p := UInt32.toNat_ofNat_of_lt' (lt_trans hp partCount.toNat_lt)
  have hpart : generatedWords fuel ⟨hash, maxLength, alphabet, UInt32.ofNat p, partCount⟩ = _ :=
    generatedWords_eq hfuel hascii hsize hmax hempty hfits (by rw [hnumber]; exact hp)
  rw [hpart, hnumber]

theorem mem_flatMap_partWords (alphabet : List Char) (maxLength : Nat) (hparts : 1 ≤ partCount)
    (word : String) :
    word ∈ (List.range partCount).flatMap (partWords alphabet maxLength partCount) ↔
      1 ≤ word.toList.length ∧ word.toList.length ≤ maxLength ∧ ∀ c ∈ word.toList, c ∈ alphabet := by
  rw [flatMap_partWords alphabet maxLength hparts, List.mem_map]
  constructor
  · rintro ⟨w, hw, rfl⟩
    rw [String.toList_ofList]
    exact mem_wordsUpTo.1 hw
  · intro hword
    exact ⟨word.toList, mem_wordsUpTo.2 hword, String.ofList_toList⟩

/-- The parts of a task, in their order, send every word of length 1 to `maxLength` exactly once and
    nothing else, and none of them panics or runs forever. The maximal length fits in an `int`; over
    the empty alphabet it is not the largest one. -/
theorem parts_enumerate_words {fuel : Nat} (hfuel : 2 ^ 64 ≤ fuel) (hash alphabet : String)
    (hdistinct : alphabet.toList.Nodup) (hascii : ∀ c ∈ alphabet.toList, c.toNat < 128)
    (maxLength : UInt64) (hmax : maxLength.toNat < 2 ^ 63)
    (hempty : alphabet = "" → maxLength.toNat < 2 ^ 63 - 1)
    (hcount : wordCount alphabet.toList.length maxLength.toNat ≤ 2 ^ 64 - 1)
    (partCount : UInt32) (hparts : 1 ≤ partCount.toNat) :
    ∃ parts : Nat → List String,
      (∀ p < partCount.toNat,
        generatedWords fuel ⟨hash, maxLength, alphabet, UInt32.ofNat p, partCount⟩ = .done (parts p)) ∧
      ((List.range partCount.toNat).flatMap parts).Nodup ∧
      ∀ word, word ∈ (List.range partCount.toNat).flatMap parts ↔
        1 ≤ word.toList.length ∧ word.toList.length ≤ maxLength.toNat ∧ ∀ c ∈ word.toList,
          c ∈ alphabet.toList := by
  refine ⟨partWords alphabet.toList maxLength.toNat partCount.toNat, ?_, ?_, ?_⟩
  · intro p hp
    exact generatedWords_part hfuel hash hdistinct hascii hmax hempty hcount hp
  · rw [flatMap_partWords alphabet.toList maxLength.toNat hparts]
    exact (nodup_wordsUpTo hdistinct _).map fun _ _ h => String.ofList_injective h
  · exact mem_flatMap_partWords alphabet.toList maxLength.toNat hparts

/-- The two parts of the words of length up to 2 over `ab`. -/
theorem parts_enumerate_words_ab :
    ∃ parts : Nat → List String,
      (∀ p < (2 : UInt32).toNat, generatedWords (2 ^ 64) ⟨"", 2, "ab", UInt32.ofNat p, 2⟩ =
      .done (parts p)) ∧ ((List.range (2 : UInt32).toNat).flatMap parts).Nodup ∧
      ∀ word, word ∈ (List.range (2 : UInt32).toNat).flatMap parts ↔
        1 ≤ word.toList.length ∧ word.toList.length ≤ (2 : UInt64).toNat ∧ ∀ c ∈ word.toList,
          c ∈ "ab".toList :=
  parts_enumerate_words le_rfl "" "ab" (by decide) (by simp) 2 (by decide +kernel) (by decide +kernel)
    (by decide +kernel) 2 (by decide)

/-- A maximal length that is negative as an `int` lets the loop over the lengths end at once. -/
theorem genWords_of_lt_one (hfuel : 0 < fuel) (startIndex stopIndex : UInt64) (alphabet : List Char)
    {maxLength : Int64} (hneg : ¬ 1 ≤ maxLength) :
    genWords fuel startIndex stopIndex alphabet maxLength = .done [] := by
  obtain ⟨fuel, rfl⟩ : ∃ m, fuel = m + 1 := ⟨fuel - 1, by omega⟩
  simp [genWords, forLoop, hneg]

/-- The maximal length 2^63 does not fit in an `int`: the number of words over `a` does fit in 64
    bits, but the only part sends no word at all. -/
theorem parts_miss_words :
    wordCount "a".toList.length (2 ^ 63 : UInt64).toNat ≤ 2 ^ 64 - 1 ∧
      generatedWords (2 ^ 64) ⟨"", 2 ^ 63, "a", 0, 1⟩ = .done [] ∧
      1 ≤ "a".toList.length ∧ "a".toList.length ≤ (2 ^ 63 : UInt64).toNat ∧
        ∀ c ∈ "a".toList, c ∈ "a".toList := by
  refine ⟨?_, ?_, by decide, by decide +kernel, fun c hc => hc⟩
  · rw [show "a".toList.length = 1 from rfl, wordCount_one]
    decide +kernel
  · rw [generatedWords, totalWordCount_eq le_rfl (by decide +kernel), Outcome.done_bind, if_neg (by decide)]
    exact genWords_of_lt_one (by decide) _ _ _ (by decide +kernel)

/-- Every word is the word of a 64-bit index. -/
def Indexed (alphabet : List Char) (words : List String) : Prop :=
  ∀ word ∈ words, ∃ (n : Nat) (index : UInt64), fillWord alphabet n index = .done word.toList

theorem genWordsInBlock_indexed {localStart localStop blockSize : UInt64} {alphabet : List Char}
    {wordLength : Int64} {out out' : List String} (hout : Indexed alphabet out)
    (h : genWordsInBlock fuel localStart localStop alphabet blockSize wordLength out = .done out') :
    Indexed alphabet out' := by
  rw [genWordsInBlock] at h
  split at h
  · cases h
  · refine forLoop_invariant (Indexed alphabet) ?_ hout h
    intro index out flow hout hbody
    obtain ⟨word, hword, hflow⟩ := Outcome.bind_eq_done hbody
    cases hflow
    intro sent hsent
    rcases mem_append.mp hsent with hsent | hsent
    · exact hout sent hsent
    · rw [mem_singleton.mp hsent, String.toList_ofList]
      exact ⟨_, index, hword⟩

theorem genWords_indexed {startIndex stopIndex : UInt64} {alphabet : List Char} {maxLength : Int64}
    {out : List String} (h : genWords fuel startIndex stopIndex alphabet maxLength = .done out) :
    Indexed alphabet out := by
  obtain ⟨state, hloop, hstate⟩ := Outcome.bind_eq_done h
  cases hstate
  have hempty : Indexed alphabet ((0 : UInt64), ([] : List String)).2 := fun word hword => by cases hword
  refine forLoop_invariant (fun state : UInt64 × List String => Indexed alphabet state.2) ?_ hempty hloop
  rintro wordLength ⟨globalOffset, out⟩ flow hout hpass
  obtain ⟨blockSize, -, hpass⟩ := Outcome.bind_eq_done hpass
  dsimp only at hpass
  split at hpass
  · cases hpass
    exact hout
  · split at hpass
    · cases hpass
      exact hout
    · obtain ⟨out', hblock, hflow⟩ := Outcome.bind_eq_done hpass
      cases hflow
      exact genWordsInBlock_indexed hout hblock

theorem generatedWords_indexed {words : List String}
    (h : generatedWords fuel task = .done words) : Indexed task.alphabet.toList words := by
  obtain ⟨totalWords, -, h⟩ := Outcome.bind_eq_done h
  split at h
  · cases h
  · exact genWords_indexed h

theorem length_alphabet : alphabet.toList.length = 36 := rfl

theorem nodup_alphabet : alphabet.toList.Nodup := by decide

theorem ascii_alphabet : ∀ c ∈ alphabet.toList, c.toNat < 128 := by simp [alphabet]

/-- The last word of length 13 has an index beyond 64 bits. -/
def lastWord : String := String.ofList (wordOf alphabet.toList 13 (36 ^ 13 - 1))

theorem lastWord_not_generated (htask : task.alphabet = alphabet)
    {words : List String} (h : generatedWords fuel task = .done words) : lastWord ∉ words := by
  intro hmem
  obtain ⟨n, index, hword⟩ := generatedWords_indexed h lastWord hmem
  have hne : alphabet.toList ≠ [] := by decide
  have hpos : 0 < alphabet.toList.length := by decide
  rw [htask, fillWord_eq hne (by rw [length_alphabet]; norm_num), lastWord, String.toList_ofList] at hword
  have heq := Outcome.done.inj hword
  have hn : n = 13 := by
    have hlength := congrArg List.length heq
    rwa [length_wordOf hpos, length_wordOf hpos] at hlength
  subst hn
  have hsmall : index.toNat < 36 ^ 13 := lt_trans index.toNat_lt (by norm_num)
  have hindex := index_unique nodup_alphabet 13 hsmall (by rw [length_alphabet]; norm_num) heq
  have hlt := index.toNat_lt
  rw [hindex] at hlt
  norm_num at hlt

theorem lastWord_spec : lastWord.toList.length = 13 ∧ ∀ c ∈ lastWord.toList, c ∈ alphabet.toList := by
  rw [lastWord, String.toList_ofList]
  exact ⟨length_wordOf (by decide) 13 _, fun c hc => mem_of_mem_wordOf hc⟩

/-- For the requests that the API admits, all words are generated exactly up to maximal length 12. -/
theorem words_all_generated_iff {fuel : Nat} (hfuel : 2 ^ 64 ≤ fuel) (hash : String) (maxLength : UInt64)
    (hmin : 1 ≤ maxLength.toNat) (hmax : maxLength.toNat ≤ 32) (partCount : UInt32)
    (hparts : 1 ≤ partCount.toNat) :
    (∀ word : String, 1 ≤ word.toList.length → word.toList.length ≤ maxLength.toNat →
      (∀ c ∈ word.toList, c ∈ alphabet.toList) →
      ∃ p < partCount.toNat, ∃ words,
        generatedWords fuel ⟨hash, maxLength, alphabet, UInt32.ofNat p, partCount⟩ = .done words ∧
          word ∈ words) ↔
      maxLength.toNat ≤ 12 := by
  constructor
  · intro hall
    by_contra hlong
    obtain ⟨hlength, hletters⟩ := lastWord_spec
    obtain ⟨p, -, words, hwords, hmem⟩ := hall lastWord (by omega) (by omega) hletters
    exact lastWord_not_generated rfl hwords hmem
  · intro hshort word hone hle hletters
    have hcount : wordCount alphabet.toList.length maxLength.toNat ≤ 2 ^ 64 - 1 :=
      le_trans (wordCount_mono 36 hshort) (by decide)
    have hmem := (mem_flatMap_partWords alphabet.toList maxLength.toNat hparts word).mpr
      ⟨hone, hle, hletters⟩
    obtain ⟨p, hp, hword⟩ := mem_flatMap.mp hmem
    have hp' := mem_range.mp hp
    refine ⟨p, hp', _, generatedWords_part hfuel hash nodup_alphabet ascii_alphabet (by omega) ?_ hcount hp',
      hword⟩
    intro hempty
    exact absurd hempty (by decide)

theorem words_all_generated_iff_five_parts :
    ∃ p < 5, ∃ words,
      generatedWords (2 ^ 64) ⟨"", 4, alphabet, UInt32.ofNat p, 5⟩ = .done words ∧ "z9ab" ∈ words := by
  have hall := (words_all_generated_iff le_rfl "" 4 (by decide) (by decide) 5 (by decide)).mpr (by decide)
  exact hall "z9ab" (by decide) (by decide) (by simp [alphabet])

/-- With maximal length 13 a word of the last letter, thirteen times, is sent by no part. -/
theorem lastWord_lost :
    lastWord = "9999999999999" ∧
      ∀ (fuel : Nat) (partCount partNumber : UInt32) (words : List String),
        generatedWords fuel ⟨"", 13, alphabet, partNumber, partCount⟩ = .done words → lastWord ∉ words :=
  ⟨by decide +kernel, fun _ _ _ _ h => lastWord_not_generated rfl h⟩

end NsuLabs.CrackHash
