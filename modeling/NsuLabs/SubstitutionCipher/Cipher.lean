/-
Module: NsuLabs.SubstitutionCipher.Cipher
Purpose: `C-Homework/SubstitutionCipher/src/substitution_cipher.c` without `hack`, and that decoding and
  encoding with one key are inverse. A file is the list of its bytes, a key the bytes of a C string before
  its end. The classes of characters are those of the C locale.
Trusted boundary: Reading and writing a byte of the files succeeds
Main exports: encode, encode_decode_inverse
-/
import Mathlib

namespace NsuLabs.SubstitutionCipher

inductive ExitCode where
  | invalidArguments
deriving DecidableEq

def alphabetSize : Nat := 26

/-! ### Characters -/

def islower (c : UInt8) : Bool := 'a'.toUInt8 ≤ c && c ≤ 'z'.toUInt8

def isupper (c : UInt8) : Bool := 'A'.toUInt8 ≤ c && c ≤ 'Z'.toUInt8

def isalpha (c : UInt8) : Bool := islower c || isupper c

def toupper (c : UInt8) : UInt8 := if islower c then c - 'a'.toUInt8 + 'A'.toUInt8 else c

/-! ### Keys -/

/-- The loop of `validateKey`. -/
def validateLetters : List UInt8 → Bool
  | [] => true
  | c :: rest =>
    if !isalpha c || !islower c then false
    -- check for duplicate letters
    else if rest.contains c then false
    else validateLetters rest

def validateKey (key : List UInt8) : Bool := if key.length ≠ alphabetSize then false else validateLetters key

/-- The entry of a key or a table; behind a valid key all positions that are read are inside. -/
def entry (key : List UInt8) (i : Nat) : UInt8 := key.getD i 0

def getReplacement (key : List UInt8) (c : UInt8) : UInt8 :=
  if !isalpha c then c
  else if isupper c then toupper (entry key (c - 'A'.toUInt8).toNat)
  else entry key (c - 'a'.toUInt8).toNat

def replaceLetters (input : List UInt8) (key : List UInt8) : List UInt8 := input.map (getReplacement key)

def makeDecodeKey (key decodeKey : List UInt8) : List UInt8 :=
  (List.range alphabetSize).foldl
    (fun decodeKey i => decodeKey.set (entry key i - 'a'.toUInt8).toNat ('a'.toUInt8 + UInt8.ofNat i))
      decodeKey

/-! ### Files -/

def encode (input : List UInt8) (key : List UInt8) : Except ExitCode (List UInt8) :=
  if !validateKey key then .error .invalidArguments else .ok (replaceLetters input key)

def decode (input : List UInt8) (key : List UInt8) : Except ExitCode (List UInt8) :=
  if !validateKey key then .error .invalidArguments
  else .ok (replaceLetters input (makeDecodeKey key (List.replicate (alphabetSize + 1) 0)))

open List

/-! ### Letters -/

def lower (i : Fin 26) : UInt8 := 'a'.toUInt8 + UInt8.ofNat i

def upper (i : Fin 26) : UInt8 := 'A'.toUInt8 + UInt8.ofNat i

theorem islower_lower : ∀ i, islower (lower i) = true ∧ isupper (lower i) = false := by decide

theorem isupper_upper : ∀ i, islower (upper i) = false ∧ isupper (upper i) = true := by decide

theorem toupper_lower : ∀ i, toupper (lower i) = upper i := by decide

theorem lower_sub : ∀ i, (lower i - 'a'.toUInt8).toNat = i.val := by decide

theorem upper_sub : ∀ i, (upper i - 'A'.toUInt8).toNat = i.val := by decide

theorem exists_of_isalpha_ofNat : ∀ n < 256, isalpha (UInt8.ofNat n) = true →
    ∃ i, UInt8.ofNat n = if islower (UInt8.ofNat n) then lower i else upper i := by decide +kernel

/-- A byte is a lower case letter, an upper case letter or none. -/
theorem byte_cases (c : UInt8) : (∃ i, c = lower i) ∨ (∃ i, c = upper i) ∨ isalpha c = false := by
  cases halpha : isalpha c with
  | false => exact .inr (.inr rfl)
  | true =>
    have hc : UInt8.ofNat c.toNat = c := UInt8.ofNat_toNat
    obtain ⟨i, hi⟩ := exists_of_isalpha_ofNat c.toNat c.toNat_lt (by rwa [hc])
    rw [hc] at hi
    split at hi
    · exact .inl ⟨i, hi⟩
    · exact .inr (.inl ⟨i, hi⟩)

theorem exists_lower_of_islower {c : UInt8} (h : islower c = true) : ∃ i, c = lower i := by
  rcases byte_cases c with hc | ⟨i, rfl⟩ | hc
  · exact hc
  · rw [(isupper_upper i).1] at h
    cases h
  · rw [isalpha, h] at hc
    cases hc

/-! ### Tables of permutations -/

/-- The table replaces the letter `i` by the letter `σ i`. -/
def TableOf (σ : Equiv.Perm (Fin 26)) (key : List UInt8) : Prop := ∀ i : Fin 26, entry key i = lower (σ i)

section

variable {σ : Equiv.Perm (Fin 26)} {key : List UInt8}

theorem TableOf.getReplacement_lower (h : TableOf σ key) (i : Fin 26) :
    getReplacement key (lower i) = lower (σ i) := by
  obtain ⟨hlower, hupper⟩ := islower_lower i
  rw [getReplacement, isalpha, hlower, hupper, lower_sub]
  exact h i

theorem TableOf.getReplacement_upper (h : TableOf σ key) (i : Fin 26) :
    getReplacement key (upper i) = upper (σ i) := by
  obtain ⟨hlower, hupper⟩ := isupper_upper i
  rw [getReplacement, isalpha, hlower, hupper, upper_sub, h i, toupper_lower]
  rfl

theorem getReplacement_of_not_isalpha {c : UInt8} (hc : isalpha c = false) : getReplacement key c = c := by
  rw [getReplacement, hc]
  rfl

/-- The table of the inverse permutation undoes the replacement. -/
theorem TableOf.getReplacement_inverse {τ : Equiv.Perm (Fin 26)} {key' : List UInt8} (h : TableOf σ key)
    (h' : TableOf τ key') (hinv : ∀ i, τ (σ i) = i) (c : UInt8) :
      getReplacement key' (getReplacement key c) = c := by
  rcases byte_cases c with ⟨i, rfl⟩ | ⟨i, rfl⟩ | hc
  · rw [h.getReplacement_lower, h'.getReplacement_lower, hinv]
  · rw [h.getReplacement_upper, h'.getReplacement_upper, hinv]
  · rw [getReplacement_of_not_isalpha hc, getReplacement_of_not_isalpha hc]

/-! ### Valid keys -/

theorem validateLetters_spec (h : validateLetters key = true) :
    (∀ c ∈ key, islower c = true) ∧ key.Nodup := by
  induction key with
  | nil => exact ⟨nofun, nodup_nil⟩
  | cons c rest ih =>
    rw [validateLetters] at h
    split at h
    · cases h
    case isFalse hlower =>
      split at h
      · cases h
      case isFalse hnew =>
        obtain ⟨hrest, hnodup⟩ := ih h
        have hc : islower c = true := by
          simp only [Bool.or_eq_true, Bool.not_eq_true', not_or, Bool.not_eq_false] at hlower
          exact hlower.2
        have hmem : c ∉ rest := fun hmem => hnew (contains_iff_mem.mpr hmem)
        exact ⟨forall_mem_cons.mpr ⟨hc, hrest⟩, nodup_cons.mpr ⟨hmem, hnodup⟩⟩

/-- A key of 26 different letters has every letter of the alphabet. -/
theorem exists_tableOf (h : validateKey key = true) : ∃ σ, TableOf σ key := by
  rw [validateKey] at h
  split at h
  · cases h
  case isFalse hlen =>
    have hlen : key.length = 26 := not_not.mp hlen
    obtain ⟨hlower, hnodup⟩ := validateLetters_spec h
    have hentry : ∀ i : Fin 26, ∃ j, entry key i = lower j := by
      intro i
      apply exists_lower_of_islower
      rw [entry, getD_eq_getElem _ _ (by omega)]
      exact hlower _ (getElem_mem _)
    choose f hf using hentry
    have hinjective : Function.Injective f := by
      intro i j hij
      have heq : entry key i = entry key j := by rw [hf, hf, hij]
      rw [entry, entry, getD_eq_getElem _ _ (by omega), getD_eq_getElem _ _ (by omega)] at heq
      exact Fin.ext (hnodup.getElem_inj_iff.mp heq)
    exact ⟨Equiv.ofBijective f (Finite.injective_iff_bijective.mp hinjective), hf⟩

/-- The first entries are written, each at its own position. -/
theorem TableOf.entry_foldl (h : TableOf σ key) (decodeKey : List UInt8)
    (hlen : 26 ≤ decodeKey.length) (n : Nat) (hn : n ≤ 26) :
    26 ≤ ((List.range n).foldl (fun decodeKey i =>
        decodeKey.set (entry key i - 'a'.toUInt8).toNat ('a'.toUInt8 + UInt8.ofNat i)) decodeKey).length ∧
      ∀ i : Fin 26, i.val < n → entry ((List.range n).foldl (fun decodeKey i =>
        decodeKey.set (entry key i - 'a'.toUInt8).toNat ('a'.toUInt8 + UInt8.ofNat i)) decodeKey) (σ i) =
          lower i := by
  induction n with
  | zero => exact ⟨hlen, nofun⟩
  | succ n ih =>
    obtain ⟨hlen', hentries⟩ := ih (Nat.le_of_succ_le hn)
    rw [range_succ, foldl_append, foldl_cons, foldl_nil]
    refine ⟨by rw [length_set]; exact hlen', fun i hi => ?_⟩
    have hposition : (entry key n - 'a'.toUInt8).toNat = (σ ⟨n, hn⟩).val := by
      rw [h ⟨n, hn⟩, lower_sub]
    rw [hposition, entry]
    by_cases heq : i = ⟨n, hn⟩
    · rw [heq, getD_eq_getElem _ _ (by rw [length_set]; omega), getElem_set_self]
      rfl
    · have hne : (σ ⟨n, hn⟩).val ≠ (σ i).val := fun hval => heq (σ.injective (Fin.ext hval)).symm
      have hlt : i.val < n := by
        have : i.val ≠ n := fun hval => heq (Fin.ext hval)
        omega
      rw [getD_eq_getElem?_getD, getElem?_set_ne hne, ← getD_eq_getElem?_getD]
      exact hentries i hlt

theorem TableOf.makeDecodeKey (h : TableOf σ key) :
    TableOf σ.symm (makeDecodeKey key (List.replicate (alphabetSize + 1) 0)) := by
  intro i
  have hentry := (h.entry_foldl (List.replicate (alphabetSize + 1) 0) (by decide) 26 le_rfl).2
    (σ.symm i) (σ.symm i).isLt
  rwa [Equiv.apply_symm_apply] at hentry

end

/-! ### Files -/

/-- What a byte and its replacement have in common. -/
def Kept (c c' : UInt8) : Prop :=
  (isalpha c = false → c' = c) ∧ isupper c' = isupper c ∧ islower c' = islower c

variable {σ : Equiv.Perm (Fin 26)} {key : List UInt8}

theorem TableOf.kept (h : TableOf σ key) (c : UInt8) : Kept c (getReplacement key c) := by
  rcases byte_cases c with ⟨i, rfl⟩ | ⟨i, rfl⟩ | hc
  · rw [h.getReplacement_lower, Kept, isalpha, (islower_lower i).1, (islower_lower i).2, (islower_lower _).1,
      (islower_lower _).2]
    exact ⟨nofun, rfl, rfl⟩
  · rw [h.getReplacement_upper, Kept, isalpha, (isupper_upper i).1, (isupper_upper i).2, (isupper_upper _).1,
      (isupper_upper _).2]
    exact ⟨nofun, rfl, rfl⟩
  · rw [getReplacement_of_not_isalpha hc]
    exact ⟨fun _ => rfl, rfl, rfl⟩

theorem TableOf.replaceLetters_kept (h : TableOf σ key) (text : List UInt8) :
    List.Forall₂ Kept text (replaceLetters text key) := by
  induction text with
  | nil => exact .nil
  | cons c text ih => exact .cons (h.kept c) ih

theorem TableOf.replaceLetters_inverse {τ : Equiv.Perm (Fin 26)} {key' : List UInt8} (h : TableOf σ key)
    (h' : TableOf τ key') (hinv : ∀ i, τ (σ i) = i) (text : List UInt8) :
    replaceLetters (replaceLetters text key) key' = text := by
  induction text with
  | nil => rfl
  | cons c text ih =>
    rw [replaceLetters, replaceLetters, map_cons, map_cons, h.getReplacement_inverse h' hinv]
    exact congrArg _ ih

/-- For every valid key and every text: decoding gives back what was encoded, encoding gives back
    what was decoded, other bytes than letters are left alone, and letters keep their case. -/
theorem encode_decode_inverse (key : List UInt8) (hkey : validateKey key = true) (text : List UInt8) :
    ∃ encoded decoded, encode text key = .ok encoded ∧ decode encoded key = .ok text ∧
      decode text key = .ok decoded ∧ encode decoded key = .ok text ∧
      List.Forall₂ Kept text encoded ∧ List.Forall₂ Kept text decoded := by
  obtain ⟨σ, hσ⟩ := exists_tableOf hkey
  have hinverse := hσ.makeDecodeKey
  have hencode : ∀ text, encode text key = .ok (replaceLetters text key) := fun text => by
    rw [encode, hkey]
    rfl
  have hdecode : ∀ text, decode text key =
      .ok (replaceLetters text (makeDecodeKey key (List.replicate (alphabetSize + 1) 0))) := fun text => by
    rw [decode, hkey]
    rfl
  refine ⟨_, _, hencode text, ?_, hdecode text, ?_, hσ.replaceLetters_kept text,
    hinverse.replaceLetters_kept text⟩
  · rw [hdecode, hσ.replaceLetters_inverse hinverse σ.symm_apply_apply]
  · rw [hencode, hinverse.replaceLetters_inverse hσ σ.apply_symm_apply]

/-- The bytes of an ASCII text. -/
def bytes (text : String) : List UInt8 := text.toList.map Char.toUInt8

theorem encode_decode_inverse_qwerty :
    ∃ encoded decoded, encode (bytes "Hello, world!") (bytes "qwertyuiopasdfghjklzxcvbnm") = .ok encoded ∧
      decode encoded (bytes "qwertyuiopasdfghjklzxcvbnm") = .ok (bytes "Hello, world!") ∧
      decode (bytes "Hello, world!") (bytes "qwertyuiopasdfghjklzxcvbnm") = .ok decoded ∧
      encode decoded (bytes "qwertyuiopasdfghjklzxcvbnm") = .ok (bytes "Hello, world!") ∧
      List.Forall₂ Kept (bytes "Hello, world!") encoded ∧
        List.Forall₂ Kept (bytes "Hello, world!") decoded :=
  encode_decode_inverse (bytes "qwertyuiopasdfghjklzxcvbnm") (by decide +kernel) (bytes "Hello, world!")

example : encode (bytes "Hello, world!") (bytes "qwertyuiopasdfghjklzxcvbnm") =
    .ok (bytes "Itssg, vgksr!") := by decide +kernel

end NsuLabs.SubstitutionCipher
