/-
Module: NsuLabs.NumericalSystemConverter.Converter
Purpose: `C-Labs/Numerical_system_converter/src/main.c`: the parser of a number in one base and its
  conversion to another one. A string is the list of its bytes without the final zero; the output is the
  array of 60 bytes that `main` declares. A fault is the exit in `BadInput` or undefined behaviour: an
  overflow of an `int64_t`, an access outside the output, or a string without its zero.
Trusted boundary: `isdigit`, `isalpha` and `tolower` are those of the C locale
Main exports: parseString, convertInput_expands
-/
import NsuLabs.Lib.Arrays
import NsuLabs.Lib.Positional

namespace NsuLabs.NumericalSystemConverter

open Lib

inductive Fault where
  | badInput
  | undefined
deriving DecidableEq

/-- An integer and a fraction. -/
structure Number where
  intPart : Int
  numerator : Int
  denominator : Int
deriving DecidableEq

/-- The result of an operation on `int64_t`. -/
def int64 (x : Int) : Except Fault Int := if -2 ^ 63 ≤ x ∧ x < 2 ^ 63 then .ok x else .error .undefined

/-- The conversion of an `int64_t` to `int`. -/
def toInt (x : Int) : Int := x.bmod (2 ^ 32)

/-- The result of an access to an array. -/
def access {α : Type} : Option α → Except Fault α
  | some x => .ok x
  | none => .error .undefined

def validateBase (n : Int) : Except Fault Unit := if n < 2 ∨ n > 16 then .error .badInput else .ok ()

def validateDigit (digit base : Int) : Except Fault Unit := if digit ≥ base then .error .badInput else .ok ()

def strlen (str : List UInt8) : Except Fault Nat :=
  if 0 ∈ str then .ok (str.takeWhile (· ≠ 0)).length else .error .undefined

def reverseString (str : List UInt8) : Except Fault (List UInt8) := do
  let len ← strlen str
  access ((List.range (len / 2)).foldlM (fun (str : List UInt8) (i : Nat) => swapAt str i (len - i - 1)) str)

def isdigit (chr : UInt8) : Bool := 48 ≤ chr && chr ≤ 57

def isalpha (chr : UInt8) : Bool := (65 ≤ chr && chr ≤ 90) || (97 ≤ chr && chr ≤ 122)

def tolower (chr : UInt8) : UInt8 := if 65 ≤ chr && chr ≤ 90 then chr + 32 else chr

def charToDigit (chr : UInt8) : Except Fault Int :=
  if isdigit chr then .ok (chr.toNat - 48)
  else if isalpha chr then .ok (10 + (tolower chr).toNat - 97)
  else .error .badInput

def digitToChar (digit : Int) : Except Fault UInt8 :=
  if 0 ≤ digit ∧ digit ≤ 9 then .ok (.ofInt (48 + digit))
  else if digit ≥ 10 then .ok (.ofInt (97 + digit - 10))
  else .error .badInput

/-- The first loop of `ParseString`: the integer part, and the rest of the string with the dot. -/
def parseInteger (originalBase : Int) : (ptr : List UInt8) → (intPart : Int) →
    Except Fault (Int × List UInt8)
  | [], intPart => .ok (intPart, [])
  | chr :: ptr, intPart =>
    if chr = 46 then .ok (intPart, chr :: ptr)
    else do
      let digit ← charToDigit chr
      validateDigit digit originalBase
      let product ← int64 (intPart * originalBase)
      let intPart ← int64 (product + digit)
      parseInteger originalBase ptr intPart

/-- The second loop of `ParseString`: the numerator and the denominator. -/
def parseFraction (originalBase : Int) :
    (ptr : List UInt8) → (numerator denominator : Int) → Except Fault (Int × Int)
  | [], numerator, denominator => .ok (numerator, denominator)
  | chr :: ptr, numerator, denominator => do
      let digit ← charToDigit chr
      validateDigit digit originalBase
      let product ← int64 (numerator * originalBase)
      let numerator ← int64 (product + digit)
      let denominator ← int64 (denominator * originalBase)
      parseFraction originalBase ptr numerator denominator

def parseString (str : List UInt8) (originalBase : Int) : Except Fault Number :=
  if str.head? = some 46 then .error .badInput
  else do
    let (intPart, ptr) ← parseInteger originalBase str 0
    match ptr with
    | [] => .ok ⟨intPart, 0, 1⟩
    | _ :: [] => .error .badInput
    | _ :: ptr => do
        let (numerator, denominator) ← parseFraction originalBase ptr 0 1
        .ok ⟨intPart, numerator, denominator⟩

/-- The `do` loop of `Convert`: the position behind the digits, and the output. An `int64_t` has
    fewer than 64 digits. -/
def convertInteger (targetBase : Int) :
    (fuel : Nat) → (intPart : Int) → (ptr : Nat) → (output : List UInt8) → Except Fault (Nat × List UInt8)
  | 0, _, _, _ => .error .undefined
  | fuel + 1, intPart, ptr, output => do
      let chr ← digitToChar (toInt (intPart.tmod targetBase))
      let output ← access (store output ptr chr)
      if intPart.tdiv targetBase > 0 then
        convertInteger targetBase fuel (intPart.tdiv targetBase) (ptr + 1) output
      else .ok (ptr + 1, output)

/-- The `while` loop of `Convert`, with the number of digits that may still be written. -/
def convertFraction (targetBase denominator : Int) :
    (digits : Nat) → (numerator : Int) → (ptr : Nat) → (output : List UInt8) → Except Fault (List UInt8)
  | 0, _, _, output => .ok output
  | digits + 1, numerator, ptr, output =>
    if numerator > 0 then do
      let numerator ← int64 (numerator * targetBase)
      let chr ← digitToChar (toInt (numerator.tdiv denominator))
      let output ← access (store output (ptr + 1) chr)
      convertFraction targetBase denominator digits (numerator.tmod denominator) (ptr + 1) output
    else .ok output

def convert (num : Number) (targetBase : Int) (output : List UInt8) : Except Fault (List UInt8) := do
  let (ptr, output) ← convertInteger targetBase 64 num.intPart 0 output
  let output ← reverseString output
  if num.numerator > 0 then do
    let output ← access (store output ptr 46)
    convertFraction targetBase num.denominator 12 num.numerator ptr output
  else .ok output

/-- `main` after the reading of its input: the array that is printed. -/
def convertInput (originalBase targetBase : Int) (input : List UInt8) : Except Fault (List UInt8) := do
  validateBase originalBase
  validateBase targetBase
  let num ← parseString input originalBase
  convert num targetBase (List.replicate 60 0)

-- `1a.8` from base 16 to base 2 is `11010.1`
example : (convertInput 16 2 [49, 97, 46, 56]).map (·.take 8) = .ok [49, 49, 48, 49, 48, 46, 49, 0] := by
  decide +kernel

variable {ds : List Nat} {cs : List UInt8}

section

open List

/-- The characters `0123456789abcdef`. -/
def lowerDigits : List UInt8 := [48, 49, 50, 51, 52, 53, 54, 55, 56, 57, 97, 98, 99, 100, 101, 102]

/-- The characters `0123456789ABCDEF`. -/
def upperDigits : List UInt8 := [48, 49, 50, 51, 52, 53, 54, 55, 56, 57, 65, 66, 67, 68, 69, 70]

/-- The character is the digit `d` of base `b`. -/
def Denotes (b : Nat) (chr : UInt8) (d : Nat) : Prop :=
  d < b ∧ (lowerDigits[d]? = some chr ∨ upperDigits[d]? = some chr)

/-- The string has the digits `I`, and where there are digits `F`, then a dot and these. -/
structure IsNumeral (b : Nat) (str : List UInt8) (I F : List Nat) : Prop where
  nonempty : I ≠ []
  text : ∃ cs fs, List.Forall₂ (Denotes b) cs I ∧ List.Forall₂ (Denotes b) fs F ∧
    (str = cs ∧ F = [] ∨ str = cs ++ 46 :: fs ∧ F ≠ [])

theorem ok_bind {α β : Type} (x : α) (f : α → Except Fault β) : (Except.ok x >>= f) = f x := rfl

/-! ### Digits -/

/-- The digit of base `b` that the character is. -/
def digit? (b : Nat) (chr : UInt8) : Option Nat :=
  match charToDigit chr with
  | .ok d => if d < b then some d.toNat else none
  | .error _ => none

theorem charToDigit_ofNat : ∀ n < 256,
    charToDigit (.ofNat n) = .error .badInput ∨
      ∃ d < 36, charToDigit (.ofNat n) = .ok ((d : Nat) : Int) := by
  decide +kernel

theorem charToDigit_ofNat_iff : ∀ n < 256, ∀ d < 16, charToDigit (.ofNat n) = .ok ((d : Nat) : Int) ↔
    lowerDigits[d]? = some (.ofNat n) ∨ upperDigits[d]? = some (.ofNat n) := by
  decide +kernel

variable {b : Nat} (hb : 2 ≤ b ∧ b ≤ 16)
include hb

omit hb in
theorem charToDigit_cases (chr : UInt8) :
    charToDigit chr = .error .badInput ∨ ∃ d : Nat, charToDigit chr = .ok (d : Int) := by
  have hcases := charToDigit_ofNat chr.toNat chr.toNat_lt
  rw [UInt8.ofNat_toNat] at hcases
  exact hcases.imp_right fun ⟨d, _, hd⟩ => ⟨d, hd⟩

theorem denotes_iff (chr : UInt8) (d : Nat) : Denotes b chr d ↔ digit? b chr = some d := by
  have hiff : Denotes b chr d ↔ d < b ∧ charToDigit chr = .ok (d : Int) := by
    refine and_congr_right fun hd => ?_
    have hiff := charToDigit_ofNat_iff chr.toNat chr.toNat_lt d (by omega)
    rw [UInt8.ofNat_toNat] at hiff
    exact hiff.symm
  rw [hiff, digit?]
  obtain hbad | ⟨d', hd'⟩ := charToDigit_cases chr
  · simp [hbad]
  · simp only [hd', Except.ok.injEq, Int.toNat_natCast]
    split_ifs <;> grind

omit hb in
/-- The two calls that read a digit. -/
theorem readDigit_bind {β : Type} (chr : UInt8) (f : Int → Except Fault β) :
    (charToDigit chr >>= fun digit => validateDigit digit b >>= fun _ => f digit) =
      (digit? b chr).elim (.error .badInput) fun d => f d := by
  rw [digit?]
  obtain hbad | ⟨d, hd⟩ := charToDigit_cases chr
  · rw [hbad]
    rfl
  · simp only [hd, ok_bind, validateDigit, Int.toNat_natCast]
    by_cases hlt : (d : Int) < b
    · rw [if_neg hlt.not_ge, if_pos hlt]
      rfl
    · rw [if_pos (not_lt.mp hlt), if_neg hlt]
      rfl

theorem forall₂_denotes_iff : List.Forall₂ (Denotes b) cs ds ↔ cs.mapM (digit? b) = some ds := by
  induction cs generalizing ds with
  | nil => simp [forall₂_nil_left_iff, eq_comm]
  | cons chr cs ih =>
    simp only [forall₂_cons_left_iff, denotes_iff hb, ih, mapM_cons, Option.bind_eq_bind,
      Option.bind_eq_some_iff, Option.pure_def, Option.some.injEq]
    grind

/-! ### The two loops -/

omit hb in
theorem int64_natCast {n : Nat} (hn : n < 2 ^ 63) : int64 n = .ok (n : Int) := by
  rw [int64, if_pos (by omega)]

/-- One digit more on a number with `j` digits. -/
theorem appendDigit {v j d : Nat} (hv : v < 16 ^ j) (hj : j < 13) (hd : d < b) :
    int64 (v * b) = .ok ((v * b : Nat) : Int) ∧ int64 ((v * b : Nat) + d) = .ok ((v * b + d : Nat) : Int) ∧
      v * b + d < 16 ^ (j + 1) := by
  have hle : v * b ≤ v * 16 := Nat.mul_le_mul_left v hb.2
  have hpow : 16 ^ (j + 1) ≤ 16 ^ 13 := Nat.pow_le_pow_right (by decide) hj
  have hlt : v * b + d < 16 ^ (j + 1) := by
    rw [pow_succ]
    omega
  have hsmall : (16 ^ 13 : Nat) < 2 ^ 63 := by decide
  refine ⟨?_, ?_, hlt⟩
  · rw [← Nat.cast_mul]
    exact int64_natCast (by omega)
  · rw [← Nat.cast_add]
    exact int64_natCast (by omega)

omit hb in
theorem numberOf_behind (v d : Nat) (I : List Nat) :
    (v * b + d) * b ^ I.length + numberOf b I = v * b ^ (d :: I).length + numberOf b (d :: I) := by
  rw [length_cons, numberOf_cons]
  ring

/-- The loop over the integer part ends at a dot or at the end of the string. -/
theorem parseInteger_eq (ptr : List UInt8) {v j : Nat} (hv : v < 16 ^ j) (hj : j + ptr.length ≤ 13) :
    parseInteger b ptr v = ((ptr.takeWhile (· ≠ 46)).mapM (digit? b)).elim (.error .badInput) fun I =>
      .ok (((v * b ^ I.length + numberOf b I : Nat) : Int), ptr.dropWhile (· ≠ 46)) := by
  induction ptr generalizing v j with
  | nil => simp [parseInteger, numberOf_nil]
  | cons chr ptr ih =>
    rw [length_cons] at hj
    rw [parseInteger]
    by_cases hdot : chr = 46
    · simp [hdot, numberOf_nil]
    · rw [if_neg hdot, readDigit_bind, takeWhile_cons_of_pos (by simpa using hdot),
        dropWhile_cons_of_pos (by simpa using hdot), mapM_cons]
      cases hd : digit? b chr with
      | none => rfl
      | some d =>
        obtain ⟨hproduct, hsum, hlt⟩ := appendDigit hb hv (by omega) ((denotes_iff hb chr d).mpr hd).1
        rw [Option.elim_some, hproduct, ok_bind, hsum, ok_bind, ih hlt (by omega)]
        cases (ptr.takeWhile (· ≠ 46)).mapM (digit? b) with
        | none => rfl
        | some I =>
          simp only [Option.elim_some, numberOf_behind]
          rfl

theorem parseFraction_eq (ptr : List UInt8) {v w j : Nat} (hv : v < 16 ^ j) (hw : w ≤ 16 ^ j)
    (hj : j + ptr.length ≤ 13) :
    parseFraction b ptr v w = (ptr.mapM (digit? b)).elim (.error .badInput) fun F =>
      .ok (((v * b ^ F.length + numberOf b F : Nat) : Int), ((w * b ^ F.length : Nat) : Int)) := by
  induction ptr generalizing v w j with
  | nil => simp [parseFraction, numberOf_nil]
  | cons chr ptr ih =>
    rw [length_cons] at hj
    rw [parseFraction, readDigit_bind, mapM_cons]
    cases hd : digit? b chr with
    | none => rfl
    | some d =>
      obtain ⟨hproduct, hsum, hlt⟩ := appendDigit hb hv (by omega) ((denotes_iff hb chr d).mpr hd).1
      have hden : w * b ≤ 16 ^ (j + 1) := by
        rw [pow_succ]
        exact Nat.mul_le_mul hw hb.2
      have hsmall : (16 : Nat) ^ (j + 1) ≤ 16 ^ 13 := Nat.pow_le_pow_right (by decide) (by omega)
      have hden64 : int64 (w * b) = .ok ((w * b : Nat) : Int) := by
        rw [← Nat.cast_mul]
        exact int64_natCast (lt_of_le_of_lt (hden.trans hsmall) (by decide))
      rw [Option.elim_some, hproduct, ok_bind, hsum, ok_bind, hden64, ok_bind, ih hlt hden (by omega)]
      cases ptr.mapM (digit? b) with
      | none => rfl
      | some F =>
        have hdenominator : w * b * b ^ F.length = w * b ^ (d :: F).length := by
          rw [length_cons]
          ring
        simp only [Option.elim_some, numberOf_behind, hdenominator]
        rfl

/-! ### The parser -/

omit hb in
theorem ne_dot (h : List.Forall₂ (Denotes b) cs ds) : ∀ c ∈ cs, decide (c ≠ 46) = true := by
  refine ((forall₂_and_left ..).mp (h.imp fun c d hd => ⟨decide_eq_true ?_, hd⟩)).1
  rintro rfl
  rcases hd with ⟨-, hd | hd⟩
  · exact absurd (mem_of_getElem? hd) (by decide)
  · exact absurd (mem_of_getElem? hd) (by decide)

/-- The first dot of a numeral is where its integer part ends. -/
theorem isNumeral_iff {str : List UInt8} {I F : List Nat} :
    IsNumeral b str I F ↔ I ≠ [] ∧ (str.takeWhile (· ≠ 46)).mapM (digit? b) = some I ∧
      (str.dropWhile (· ≠ 46) = [] ∧ F = [] ∨
        ∃ fs, str.dropWhile (· ≠ 46) = 46 :: fs ∧ fs.mapM (digit? b) = some F ∧ F ≠ []) := by
  constructor
  · rintro ⟨hI, cs, fs, hcs, hfs, ⟨rfl, hF⟩ | ⟨rfl, hF⟩⟩
    · rw [takeWhile_eq_self_iff.mpr (ne_dot hcs), dropWhile_eq_nil_iff.mpr (ne_dot hcs)]
      exact ⟨hI, (forall₂_denotes_iff hb).mp hcs, .inl ⟨rfl, hF⟩⟩
    · rw [takeWhile_append_of_pos (ne_dot hcs), dropWhile_append_of_pos (ne_dot hcs),
        takeWhile_cons_of_neg (by decide), append_nil, dropWhile_cons_of_neg (by decide)]
      exact ⟨hI, (forall₂_denotes_iff hb).mp hcs, .inr ⟨fs, rfl, (forall₂_denotes_iff hb).mp hfs, hF⟩⟩
  · rintro ⟨hI, hcs, hrest⟩
    have hstr := takeWhile_append_dropWhile (p := (· ≠ 46)) (l := str)
    rcases hrest with ⟨hrest, rfl⟩ | ⟨fs, hrest, hfs, hF⟩
    · rw [hrest, append_nil] at hstr
      exact ⟨hI, _, [], (forall₂_denotes_iff hb).mpr hcs, .nil, .inl ⟨hstr.symm, rfl⟩⟩
    · rw [hrest] at hstr
      exact ⟨hI, _, fs, (forall₂_denotes_iff hb).mpr hcs, (forall₂_denotes_iff hb).mpr hfs,
        .inr ⟨hstr.symm, hF⟩⟩

variable {str : List UInt8} (hlength : str.length ≤ 13)
include hlength

theorem parseInteger_start : parseInteger b str 0 =
    ((str.takeWhile (· ≠ 46)).mapM (digit? b)).elim (.error .badInput) fun I =>
      .ok (((numberOf b I : Nat) : Int), str.dropWhile (· ≠ 46)) := by
  simpa using parseInteger_eq hb str (v := 0) (j := 0) (by decide) (by omega)

theorem parseFraction_start {fs : List UInt8} (hfs : str.dropWhile (· ≠ 46) = 46 :: fs) :
    parseFraction b fs 0 1 = (fs.mapM (digit? b)).elim (.error .badInput) fun F =>
      .ok (((numberOf b F : Nat) : Int), ((b ^ F.length : Nat) : Int)) := by
  have hle := (dropWhile_sublist (· ≠ 46) (l := str)).length_le
  rw [hfs, length_cons] at hle
  simpa using parseFraction_eq hb fs (v := 0) (w := 1) (j := 0) (by decide) (by decide) (by omega)

/-- A numeral is accepted, with its value as a mixed number. -/
theorem parseString_of_isNumeral {I F : List Nat} (h : IsNumeral b str I F) :
    parseString str b = .ok ⟨(numberOf b I : Nat), (numberOf b F : Nat), ((b ^ F.length : Nat) : Int)⟩ := by
  obtain ⟨hI, hcs, hrest⟩ := (isNumeral_iff hb).mp h
  have hhead : str.head? ≠ some 46 := by
    intro hhead
    obtain ⟨tail, rfl⟩ := head?_eq_some_iff.mp hhead
    rw [takeWhile_cons_of_neg (by decide)] at hcs
    exact hI (Option.some.inj hcs).symm
  rw [parseString, if_neg hhead, parseInteger_start hb hlength, hcs, Option.elim_some, ok_bind]
  rcases hrest with ⟨hrest, rfl⟩ | ⟨fs, hrest, hfs, hF⟩
  · simp only [hrest, numberOf_nil, length_nil, pow_zero]
    rfl
  · obtain ⟨f, fs, rfl⟩ :=
      exists_cons_of_ne_nil (show fs ≠ [] by rintro rfl; exact hF (Option.some.inj hfs).symm)
    have hfraction := parseFraction_start hb hlength hrest
    rw [hfs, Option.elim_some] at hfraction
    simp only [hrest, hfraction, ok_bind]

/-- Every other string is refused. -/
theorem parseString_of_not_isNumeral (h : ¬ ∃ I F, IsNumeral b str I F) (hne : str ≠ []) :
    parseString str b = .error .badInput := by
  rw [parseString]
  split_ifs with hdot
  · rfl
  rw [parseInteger_start hb hlength]
  cases hcs : (str.takeWhile (· ≠ 46)).mapM (digit? b) with
  | none => rfl
  | some I =>
    have hI : I ≠ [] := by
      rintro rfl
      obtain ⟨c, str, rfl⟩ := exists_cons_of_ne_nil hne
      rw [takeWhile_cons_of_pos (by simpa using hdot)] at hcs
      cases (forall₂_denotes_iff hb).mpr hcs
    rw [Option.elim_some, ok_bind]
    have hstop := head?_dropWhile_not (· ≠ 46) str
    cases hrest : str.dropWhile (· ≠ 46) with
    | nil => exact absurd ⟨I, [], (isNumeral_iff hb).mpr ⟨hI, hcs, .inl ⟨hrest, rfl⟩⟩⟩ h
    | cons dot fs =>
      rw [hrest] at hstop
      obtain rfl : dot = 46 := by simpa using hstop
      cases fs with
      | nil => rfl
      | cons f fs =>
        simp only [parseFraction_start hb hlength hrest]
        cases hfs : (f :: fs).mapM (digit? b) with
        | none => rfl
        | some F =>
          have hF : F ≠ [] := by
            rintro rfl
            cases (forall₂_denotes_iff hb).mpr hfs
          exact absurd ⟨I, F, (isNumeral_iff hb).mpr ⟨hI, hcs, .inr ⟨f :: fs, hrest, hfs, hF⟩⟩⟩ h

end

open List hiding swapAt

/-- The character that is written for a digit. -/
def lowerDigit (d : Nat) : UInt8 := lowerDigits.getD d 0

/-- The output with `text` at its start and zeros in the other `room` places. -/
def outputWith (text : List UInt8) (room : Nat) : List UInt8 := text ++ List.replicate room 0

theorem digitToChar_eq : ∀ d < 16, digitToChar (toInt (d : Nat)) = .ok (lowerDigit d) := by
  decide +kernel

theorem lowerDigit_ne_zero : ∀ d < 16, lowerDigit d ≠ 0 := by
  decide +kernel

theorem lowerDigits_getElem? : ∀ d < 16, lowerDigits[d]? = some (lowerDigit d) := by
  decide +kernel

/-- One more character. -/
theorem access_store (text : List UInt8) {room : Nat} (hroom : 0 < room) (chr : UInt8) :
    access (store (outputWith text room) text.length chr) = .ok (outputWith (text ++ [chr]) (room - 1)) := by
  obtain ⟨room, rfl⟩ : ∃ r, room = r + 1 := ⟨room - 1, by omega⟩
  rw [outputWith, replicate_succ, store_append, outputWith, append_assoc]
  rfl

/-! ### The reversal -/

/-- Each pass swaps the ends of the part that is left, so the passes that are left reverse it. -/
theorem swapEnds_spec {len : Nat} (n : Nat) :
    ∀ A M B : List UInt8, M.length / 2 = n → A.length + M.length + A.length = len →
    (List.range' A.length n).foldlM (fun (str : List UInt8) (i : Nat) => swapAt str i (len - i - 1))
      (A ++ (M ++ B)) = some (A ++ (M.reverse ++ B)) := by
  induction n with
  | zero =>
    rintro A (_ | ⟨x, _ | ⟨y, M⟩⟩) B hn -
    · rfl
    · rfl
    · rw [length_cons, length_cons] at hn
      omega
  | succ n ih =>
    intro A M B hn hlen
    rcases M with _ | ⟨x, M⟩
    · exact absurd hn (by simp)
    · rcases eq_nil_or_concat' M with rfl | ⟨M, y, rfl⟩
      · exact absurd hn (by simp)
      · rw [length_cons, length_append, length_singleton] at hn hlen
        have hswap := swapAt_append A M B x y
        have hplace : (len : Int) - A.length - 1 = A.length + 1 + M.length := by omega
        have hrest := ih (A ++ [y]) M (x :: B) (by omega) (by rw [length_append, length_singleton]; omega)
        rw [length_append, length_singleton] at hrest
        simp only [cons_append, append_assoc, nil_append, reverse_cons, reverse_append,
          reverse_nil] at hrest ⊢
        rw [range'_succ, foldlM_cons, hplace, hswap]
        exact hrest

theorem reverseString_spec {text : List UInt8} (htext : 0 ∉ text) {room : Nat} (hroom : 0 < room) :
    reverseString (outputWith text room) = .ok (outputWith text.reverse room) := by
  have hzero : (0 : UInt8) ∈ outputWith text room :=
    mem_append_right text (mem_replicate.mpr ⟨by omega, rfl⟩)
  have hlen : strlen (outputWith text room) = .ok text.length := by
    rw [strlen, if_pos hzero, outputWith, takeWhile_append_of_pos, takeWhile_replicate, if_neg (by decide),
      append_nil]
    intro chr hchr
    have hne : chr ≠ 0 := fun h => htext (h ▸ hchr)
    exact decide_eq_true hne
  have hswap := @swapEnds_spec text.length (text.length / 2) [] text (List.replicate room 0) rfl (by simp)
  rw [length_nil, ← range_eq_range', nil_append, nil_append] at hswap
  rw [reverseString, hlen, ok_bind, outputWith, hswap, outputWith, access]

section

variable {b : Nat} (hb : 2 ≤ b ∧ b ≤ 16)
include hb

theorem forall₂_lowerDigit (h : ∀ d ∈ ds, d < b) : List.Forall₂ (Denotes b) (ds.map lowerDigit) ds := by
  rw [forall₂_map_left_iff, forall₂_same]
  intro d hd
  exact ⟨h d hd, .inl (lowerDigits_getElem? d (lt_of_lt_of_le (h d hd) hb.2))⟩

theorem zero_notMem_map (h : ∀ d ∈ ds, d < b) : 0 ∉ ds.map lowerDigit := by
  rw [List.mem_map]
  rintro ⟨d, hd, heq⟩
  exact lowerDigit_ne_zero d (lt_of_lt_of_le (h d hd) hb.2) heq

/-! ### The two loops -/

/-- One pass of the first loop. -/
theorem convertInteger_succ (fuel n : Nat) (text : List UInt8) {room : Nat} (hroom : 0 < room) :
    convertInteger b (fuel + 1) n text.length (outputWith text room) =
      if n / b = 0 then .ok (text.length + 1, outputWith (text ++ [lowerDigit (n % b)]) (room - 1))
      else convertInteger b fuel ↑(n / b) (text.length + 1)
        (outputWith (text ++ [lowerDigit (n % b)]) (room - 1)) := by
  have hdigit : n % b < 16 := lt_of_lt_of_le (Nat.mod_lt n (by omega)) hb.2
  rw [convertInteger, ← Int.ofNat_tmod, digitToChar_eq _ hdigit, ok_bind, access_store text hroom, ok_bind,
    ← Int.ofNat_tdiv]
  simp only [gt_iff_lt, Int.natCast_pos, Nat.pos_iff_ne_zero, ite_not]

/-- The integer part is written from its last digit. -/
theorem convertInteger_spec (fuel : Nat) : ∀ (n : Nat) (text : List UInt8) (room : Nat), n < b ^ (fuel + 1) →
    (integerDigits b n).length ≤ room →
    convertInteger b (fuel + 1) n text.length (outputWith text room) =
      .ok (text.length + (integerDigits b n).length,
        outputWith (text ++ ((integerDigits b n).map lowerDigit).reverse)
          (room - (integerDigits b n).length)) := by
  have hb₁ : 1 < b := by omega
  induction fuel with
  | zero =>
    intro n text room hn hroom
    have hzero : n / b = 0 := Nat.div_eq_of_lt (by simpa using hn)
    rw [integerDigits_of_lt hb₁ hzero] at hroom ⊢
    rw [convertInteger_succ hb 0 n text hroom, if_pos hzero]
    rfl
  | succ fuel ih =>
    intro n text room hn hroom
    by_cases hzero : n / b = 0
    · rw [integerDigits_of_lt hb₁ hzero] at hroom ⊢
      rw [convertInteger_succ hb _ n text hroom, if_pos hzero]
      rfl
    · rw [integerDigits_of_le hb₁ hzero, length_append, length_singleton] at hroom ⊢
      have hrest := ih (n / b) (text ++ [lowerDigit (n % b)]) (room - 1)
        (Nat.div_lt_of_lt_mul (by rwa [pow_succ'] at hn)) (by omega)
      rw [length_append, length_singleton] at hrest
      rw [convertInteger_succ hb _ n text (by omega), if_neg hzero, hrest, map_append,
        reverse_append, append_assoc, Nat.add_right_comm, Nat.add_assoc, Nat.sub_sub, Nat.add_comm 1]
      rfl

/-- The digits behind the dot are those of the long division. -/
theorem convertFraction_spec {den : Nat} (hden : den ≤ 16 ^ 13) (k : Nat) :
    ∀ (num : Nat) (text : List UInt8) (room : Nat), num < den → k ≤ room → text ≠ [] →
    ∃ room', convertFraction b den k num (text.length - 1) (outputWith text room) =
      .ok (outputWith (text ++ (fractionDigits b den k num).map lowerDigit) room') ∧
      room' + (fractionDigits b den k num).length = room := by
  induction k with
  | zero =>
    intro num text room _ _ _
    refine ⟨room, ?_, rfl⟩
    rw [convertFraction, fractionDigits, map_nil, append_nil]
  | succ k ih =>
    intro num text room hnum hroom htext
    rw [convertFraction, fractionDigits]
    by_cases hzero : num = 0
    · refine ⟨room, ?_, ?_⟩
      · rw [if_neg (by omega), if_pos hzero, map_nil, append_nil]
      · rw [if_pos hzero]
        rfl
    · have hproduct : num * b < b * den := by
        rw [mul_comm]
        exact Nat.mul_lt_mul_of_pos_left hnum (by omega)
      have hsmall : b * den ≤ 16 * 16 ^ 13 := Nat.mul_le_mul hb.2 hden
      have hint64 : int64 (num * b) = .ok ((num * b : Nat) : Int) := by
        rw [← Nat.cast_mul]
        exact int64_natCast (lt_of_lt_of_le hproduct (hsmall.trans (by decide)))
      have hdigit : num * b / den < 16 :=
        lt_of_lt_of_le ((Nat.div_lt_iff_lt_mul (by omega)).mpr hproduct) hb.2
      have hlength : text.length - 1 + 1 = text.length := by
        have := length_pos_iff.mpr htext
        omega
      obtain ⟨room', hrun, hroom'⟩ := ih (num * b % den) (text ++ [lowerDigit (num * b / den)]) (room - 1)
        (Nat.mod_lt _ (by omega)) (by omega) (by simp)
      rw [length_append, length_singleton, Nat.add_sub_cancel] at hrun
      refine ⟨room', ?_, ?_⟩
      · rw [if_pos (by omega), hint64, ok_bind, ← Int.ofNat_tdiv, digitToChar_eq _ hdigit, ok_bind, hlength,
          access_store text (by omega), ok_bind, ← Int.ofNat_tmod, hrun, if_neg hzero, map_cons,
          append_assoc, singleton_append]
      · rw [if_neg hzero, length_cons]
        omega

/-- Both parts, for a number whose integer part leaves room for the rest. -/
theorem convert_spec {n num den room : Nat} (hn : n < 2 ^ 63) (hlt : num < den) (hden : den ≤ 16 ^ 13)
    (hroom : (integerDigits b n).length + room = 60) (henough : 0 < num → 13 ≤ room) (hpos : 0 < room) :
    ∃ text room', convert ⟨n, num, den⟩ b (List.replicate 60 0) = .ok (outputWith text room') ∧
      text.length + room' = 60 ∧ text.length ≤ (integerDigits b n).length + (if num = 0 then 0 else 13) ∧
      IsNumeral b text (integerDigits b n) (fractionDigits b den 12 num) := by
  have hb₁ : 1 < b := by omega
  have hfuel : n < b ^ (63 + 1) :=
    lt_of_lt_of_le hn ((Nat.pow_le_pow_right (by decide) (by decide)).trans (Nat.pow_le_pow_left hb.1 64))
  have hinteger := convertInteger_spec hb 63 n [] 60 hfuel (by omega)
  have hlt_base : ∀ d ∈ integerDigits b n, d < b := fun d hd => integerDigits_lt hb₁ hd
  have hI := forall₂_lowerDigit hb hlt_base
  have hreverse := @reverseString_spec ((integerDigits b n).map lowerDigit).reverse
    (by rw [mem_reverse]; exact zero_notMem_map hb hlt_base) room hpos
  have hroom' : 60 - (integerDigits b n).length = room := by omega
  rw [nil_append, length_nil, Nat.zero_add, hroom'] at hinteger
  rw [reverse_reverse] at hreverse
  have hstart : convert ⟨n, num, den⟩ b (List.replicate 60 0) =
      if (num : Int) > 0 then
        access (store (outputWith ((integerDigits b n).map lowerDigit) room)
          (integerDigits b n).length 46) >>= convertFraction b den 12 num (integerDigits b n).length
      else .ok (outputWith ((integerDigits b n).map lowerDigit) room) := by
    change (convertInteger b (63 + 1) n 0 (outputWith [] 60) >>= _) = _
    rw [hinteger, ok_bind]
    simp only [hreverse, ok_bind]
  rw [hstart]
  by_cases hzero : num = 0
  · refine ⟨_, room, if_neg (by omega), ?_, ?_, ?_⟩
    · simpa only [length_map] using hroom
    · rw [length_map]
      exact Nat.le_add_right _ _
    · subst hzero
      exact ⟨integerDigits_ne_nil b n, _, [], hI, .nil, .inl ⟨rfl, rfl⟩⟩
  · obtain ⟨-, -, -, -, hF, hdigits, -⟩ := fractionDigits_spec hb₁ 12 num hlt
    have hdot := access_store ((integerDigits b n).map lowerDigit) hpos 46
    obtain ⟨room', hrun, hroom'⟩ :=
      convertFraction_spec hb hden 12 num ((integerDigits b n).map lowerDigit ++ [46])
      (room - 1) hlt (by omega) (by simp)
    rw [length_append, length_singleton, Nat.add_sub_cancel] at hrun
    rw [length_map] at hdot hrun
    refine ⟨(integerDigits b n).map lowerDigit ++ [46] ++ (fractionDigits b den 12 num).map lowerDigit,
      room', ?_, ?_, ?_, ?_⟩
    · rw [if_pos (by omega), hdot, ok_bind, hrun]
    · simp only [length_append, length_map, length_singleton]
      omega
    · simp only [length_append, length_map, length_singleton, if_neg hzero]
      omega
    · refine ⟨integerDigits_ne_nil b n, _, _, hI, forall₂_lowerDigit hb hdigits, .inr ⟨?_, ?_⟩⟩
      · rw [append_assoc, singleton_append]
      · rw [fractionDigits, if_neg hzero]
        exact cons_ne_nil _ _

/-! ### The program -/

/-- A number with `I.length` digits in base `b` has at most four times as many in any other base. -/
theorem length_integerDigits_le_four {b' : Nat} (hb' : 2 ≤ b') {I : List Nat} (hI : I ≠ [])
    (h : ∀ d ∈ I, d < b) :
    numberOf b I < 2 ^ (4 * I.length) ∧ (integerDigits b' (numberOf b I)).length ≤ 4 * I.length := by
  have hlt : numberOf b I < 2 ^ (4 * I.length) := by
    rw [pow_mul]
    exact lt_of_lt_of_le (numberOf_lt (by omega) h) (Nat.pow_le_pow_left hb.2 _)
  refine ⟨hlt, length_integerDigits_le (by omega) ?_ (lt_of_lt_of_le hlt (Nat.pow_le_pow_left hb' _))⟩
  have := length_pos_iff.mpr hI
  omega

omit hb in
theorem lt_of_forall₂_denotes (h : List.Forall₂ (Denotes b) cs ds) : ∀ d ∈ ds, d < b := by
  have hboth := h.flip.imp fun d c (hd : Denotes b c d) => And.intro hd.1 hd
  exact ((forall₂_and_left ..).mp hboth).1

end

/-- For bases from 2 to 16 and an input of at most 13 characters: the parser accepts exactly the
    numerals, nothing overflows, and what is written is the expansion of the number with at most
    twelve digits behind the dot, followed by the zero that ends a string. -/
theorem convertInput_expands {b₁ b₂ : Nat} (hb₁ : 2 ≤ b₁ ∧ b₁ ≤ 16) (hb₂ : 2 ≤ b₂ ∧ b₂ ≤ 16)
    {str : List UInt8} (hstr : 1 ≤ str.length ∧ str.length ≤ 13) :
    ((∃ num, parseString str b₁ = .ok num) ↔ ∃ I F, IsNumeral b₁ str I F) ∧
      parseString str b₁ ≠ .error .undefined ∧
      ∀ I F, IsNumeral b₁ str I F →
        ∃ text room I' F', convertInput b₁ b₂ str = .ok (text ++ List.replicate room 0) ∧
        text.length + room = 60 ∧ 0 < room ∧ IsNumeral b₂ text I' F' ∧
          IsExpansion b₂ 12 (pointed b₁ I F) I' F' := by
  have hne : str ≠ [] := length_pos_iff.mp hstr.1
  refine ⟨⟨?_, ?_⟩, ?_, ?_⟩
  · rintro ⟨num, hnum⟩
    by_contra hnot
    rw [parseString_of_not_isNumeral hb₁ hstr.2 hnot hne] at hnum
    cases hnum
  · rintro ⟨I, F, h⟩
    exact ⟨_, parseString_of_isNumeral hb₁ hstr.2 h⟩
  · intro hundefined
    by_cases h : ∃ I F, IsNumeral b₁ str I F
    · obtain ⟨I, F, h⟩ := h
      rw [parseString_of_isNumeral hb₁ hstr.2 h] at hundefined
      cases hundefined
    · rw [parseString_of_not_isNumeral hb₁ hstr.2 h hne] at hundefined
      cases hundefined
  · intro I F h
    have hparse := parseString_of_isNumeral hb₁ hstr.2 h
    obtain ⟨hI, cs, fs, hcs, hfs, htext⟩ := h
    have hF_lt := lt_of_forall₂_denotes hfs
    obtain ⟨hn, hlength⟩ := length_integerDigits_le_four hb₁ hb₂.1 hI (lt_of_forall₂_denotes hcs)
    -- the digits of the input leave room for the output
    have hcount : I.length ≤ 13 ∧ F.length ≤ 13 ∧ (F ≠ [] → I.length ≤ 11) := by
      have hcs_length := hcs.length_eq
      have hfs_length := hfs.length_eq
      rcases htext with ⟨rfl, rfl⟩ | ⟨rfl, hF⟩
      · exact ⟨by omega, Nat.zero_le 13, fun h => absurd rfl h⟩
      · have hpos := length_pos_iff.mpr hF
        rw [length_append, length_cons] at hstr
        exact ⟨by omega, by omega, fun _ => by omega⟩
    have hsmall : numberOf b₁ I < 2 ^ 63 :=
      lt_of_lt_of_le hn (Nat.pow_le_pow_right (by decide) (by omega))
    have hden : b₁ ^ F.length ≤ 16 ^ 13 :=
      (Nat.pow_le_pow_left hb₁.2 _).trans (Nat.pow_le_pow_right (by decide) hcount.2.1)
    have hfraction : 0 < numberOf b₁ F → F ≠ [] := by
      rintro hpos rfl
      exact absurd hpos (by rw [numberOf_nil]; decide)
    obtain ⟨text, room, hrun, hroom, hbound, hnumeral⟩ :=
      @convert_spec b₂ hb₂ (numberOf b₁ I) (numberOf b₁ F) (b₁ ^ F.length)
        (60 - (integerDigits b₂ (numberOf b₁ I)).length) hsmall (numberOf_lt (by omega) hF_lt) hden
          (by omega)
        (fun hpos => by have := hcount.2.2 (hfraction hpos); omega) (by omega)
    refine ⟨text, room, _, _, ?_, hroom, ?_, hnumeral, ?_⟩
    · have hvalid : ∀ {b : Nat}, 2 ≤ b ∧ b ≤ 16 → validateBase b = .ok () := by
        intro b hb
        rw [validateBase, if_neg (by omega)]
      rw [convertInput, hvalid hb₁, ok_bind, hvalid hb₂, ok_bind, hparse, ok_bind, hrun, outputWith]
    · split at hbound
      · omega
      · have := hcount.2.2 (hfraction (by omega))
        omega
    · rw [pointed]
      have hexpansion := @isExpansion_of_digits b₂ (numberOf b₁ I) (numberOf b₁ F) (b₁ ^ F.length)
        (by omega) 12 (numberOf_lt (by omega) hF_lt)
      rwa [Nat.cast_pow] at hexpansion

/-- `7F.8` from base 16 to base 3. -/
theorem convertInput_expands_hex :
    ∃ text room I' F', convertInput 16 3 [55, 70, 46, 56] = .ok (text ++ List.replicate room 0) ∧
      text.length + room = 60 ∧ 0 < room ∧ IsNumeral 3 text I' F' ∧
      IsExpansion 3 12 (pointed 16 [7, 15] [8]) I' F' := by
  refine (@convertInput_expands 16 3 (by decide) (by decide) [55, 70, 46, 56] (by decide)).2.2 [7, 15] [8] ?_
  refine ⟨cons_ne_nil 7 [15], [55, 70], [56], ?_, ?_, .inr ⟨rfl, cons_ne_nil 8 []⟩⟩
  · exact .cons ⟨by decide, by decide⟩ (.cons ⟨by decide, by decide⟩ .nil)
  · exact .cons ⟨by decide, by decide⟩ .nil

end NsuLabs.NumericalSystemConverter
