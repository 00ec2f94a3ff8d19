/-
Module: NsuLabs.CopyBackwards.CopyFile
Purpose: `copy_file_backwards_at` and `reverse_buffer` of
  `OS-Labs/3-filesystems/task_1_copy_backwards/copy_backwards.c`. A file is the list of its bytes. `none` is
  a call that fails, an access outside the buffer, or a loop that does not end.
Trusted boundary: Both files are open, and the source does not change while it is copied
Main exports: copyFileBackwardsAt_reverse
-/
import NsuLabs.PermutationsGenerator.PermutationsGenerator

namespace NsuLabs.CopyBackwards

open Lib
open List hiding swapAt

/-- What `read` or `write` returns, by its position in the file and the number of bytes it is asked
    for; `none` is -1. While every call moves a byte no position comes twice, so that this is any
    sequence of results. -/
abbrev Calls := (position size : Nat) → Option Nat

def bufferSize : Nat := 1024

/-- `while (bytes_read < chunk_size)`, after `lseek(src_fd, src_offset, SEEK_SET)`. -/
def readChunk (read : Calls) (src : List UInt8) (srcOffset chunkSize : Nat) :
    (fuel : Nat) → (buffer : List UInt8) → Option (List UInt8)
  | 0, _ => none
  | fuel + 1, buffer =>
    if buffer.length < chunkSize then
      (read (srcOffset + buffer.length) (chunkSize - buffer.length)).bind fun rlen =>
        readChunk read src srcOffset chunkSize fuel
          (buffer ++ (src.drop (srcOffset + buffer.length)).take rlen)
    else some buffer

def reverseBuffer : (fuel : Nat) → (buffer : List UInt8) → (first last : Int) → Option (List UInt8)
  | 0, _, _, _ => none
  | fuel + 1, buffer, first, last =>
    if first < last then (swapAt buffer first last).bind fun buffer =>
      reverseBuffer fuel buffer (first + 1) (last - 1)
    else some buffer

/-- `while (bytes_written < chunk_size)`. -/
def writeChunk (write : Calls) (buffer : List UInt8) (chunkSize : Nat) :
    (fuel bytesWritten : Nat) → (dst : List UInt8) → Option (List UInt8)
  | 0, _, _ => none
  | fuel + 1, bytesWritten, dst =>
    if bytesWritten < chunkSize then
      (write dst.length (chunkSize - bytesWritten)).bind fun wlen =>
        writeChunk write buffer chunkSize fuel (bytesWritten + wlen)
          (dst ++ (buffer.drop bytesWritten).take wlen)
    else some dst

/-- `for (off_t i = 0; i < src_size; i += BUFFER_SIZE)`. -/
def copyChunks (read write : Calls) (src : List UInt8) : (fuel i : Nat) → (dst : List UInt8) →
    Option (List UInt8)
  | 0, _, _ => none
  | fuel + 1, i, dst =>
    if i < src.length then
      let remainingSize := src.length - i
      let chunkSize := if remainingSize < bufferSize then remainingSize else bufferSize
      let srcOffset := src.length - i - chunkSize
      (readChunk read src srcOffset chunkSize (chunkSize + 1) []).bind fun buffer =>
        (reverseBuffer (chunkSize + 1) buffer 0 (chunkSize - 1)).bind fun buffer =>
          (writeChunk write buffer chunkSize (chunkSize + 1) 0 dst).bind fun dst =>
            copyChunks read write src fuel (i + bufferSize) dst
    else some dst

/-- The bytes of the destination. -/
def copyFileBackwardsAt (read write : Calls) (src : List UInt8) : Option (List UInt8) :=
  copyChunks read write src (src.length + 1) 0 []

/-- Every call that is asked for bytes moves some of them. -/
def Calls.Move (calls : Calls) : Prop :=
  ∀ position size, 0 < size → ∃ k, calls position size = some k ∧ 0 < k ∧ k ≤ size

variable {read write : Calls}

/-! ### A chunk -/

/-- `B` has been read, `C` is still to come. -/
theorem readChunk_spec (hread : read.Move) (fuel : Nat) (A B C D : List UInt8) (hfuel : C.length < fuel) :
    readChunk read (A ++ (B ++ (C ++ D))) A.length (B.length + C.length) fuel B = some (B ++ C) := by
  induction fuel generalizing B C with
  | zero => omega
  | succ fuel ih =>
    rw [readChunk, Nat.add_sub_cancel_left]
    rcases eq_or_ne C [] with rfl | hC
    · rw [if_neg (by simp), append_nil]
    · have hpos := length_pos_of_ne_nil hC
      obtain ⟨k, hk, hk0, hkC⟩ := hread (A.length + B.length) C.length hpos
      have hbehind : (A ++ (B ++ (C ++ D))).drop (A.length + B.length) = C ++ D := by
        rw [← append_assoc, ← length_append, drop_left]
      have hrest := ih (B ++ C.take k) (C.drop k) (by rw [length_drop]; omega)
      rw [if_pos (by omega), hk, Option.bind_some, hbehind, take_append_of_le_length hkC]
      rw [append_assoc, ← append_assoc (C.take k), take_append_drop] at hrest
      simpa [hkC, Nat.add_assoc] using hrest

theorem writeChunk_spec (hwrite : write.Move) (fuel : Nat) (B C dst : List UInt8) (hfuel : C.length < fuel) :
    writeChunk write (B ++ C) (B.length + C.length) fuel B.length dst = some (dst ++ C) := by
  induction fuel generalizing B C dst with
  | zero => omega
  | succ fuel ih =>
    rw [writeChunk, Nat.add_sub_cancel_left]
    rcases eq_or_ne C [] with rfl | hC
    · rw [if_neg (by simp), append_nil]
    · have hpos := length_pos_of_ne_nil hC
      obtain ⟨k, hk, hk0, hkC⟩ := hwrite dst.length C.length hpos
      have hrest := ih (B ++ C.take k) (C.drop k) (dst ++ C.take k) (by rw [length_drop]; omega)
      rw [if_pos (by omega), hk, Option.bind_some, drop_left]
      simpa [hkC, Nat.add_assoc] using hrest

/-- The loop is the one of `Permutations_generator`. -/
theorem reverseBuffer_eq (fuel : Nat) (buffer : List UInt8) (first last : Int) :
    reverseBuffer fuel buffer first last = PermutationsGenerator.reverse fuel buffer first last := by
  induction fuel generalizing buffer first last with
  | zero => rfl
  | succ fuel ih => simp only [reverseBuffer, PermutationsGenerator.reverse, ih]

theorem reverseBuffer_spec (buffer : List UInt8) :
    reverseBuffer (buffer.length + 1) buffer 0 (buffer.length - 1) = some buffer.reverse := by
  have hrun := PermutationsGenerator.reverse_spec (buffer.length + 1) [] buffer [] (by omega)
  rw [reverseBuffer_eq]
  simpa using hrun

/-! ### The file -/

/-- `A` is still to be copied: the last part of it, as much as fits into the buffer, is the next
    chunk. -/
theorem copyChunks_spec (hread : read.Move) (hwrite : write.Move) (fuel : Nat) (A D : List UInt8) (i : Nat)
    (hi : i = D.length ∨ A = [] ∧ D.length ≤ i) (hfuel : A.length < fuel) :
    copyChunks read write (A ++ D) fuel i D.reverse = some (A ++ D).reverse := by
  induction fuel generalizing A D i with
  | zero => omega
  | succ fuel ih =>
    rw [copyChunks]
    rcases eq_or_ne A [] with rfl | hA
    · rw [if_neg (by simp; omega), nil_append]
    · have hpos := length_pos_of_ne_nil hA
      obtain rfl : i = D.length := hi.resolve_right fun h => hA h.1
      obtain ⟨A, C, rfl, hC⟩ : ∃ A' C, A = A' ++ C ∧ C.length = min A.length bufferSize :=
        ⟨A.take (A.length - min A.length bufferSize), _, (take_append_drop _ A).symm, by simp; omega⟩
      have hbuffer : 0 < bufferSize := by decide
      rw [length_append] at hC hpos hfuel
      have hchunk : (if A.length + C.length < bufferSize then A.length + C.length else bufferSize) =
          C.length := by
        split <;> omega
      have hlength : (A ++ C ++ D).length - D.length = A.length + C.length := by
        rw [length_append, length_append, Nat.add_sub_cancel]
      have hnext : D.length + bufferSize = (C ++ D).length ∨
          A = [] ∧ (C ++ D).length ≤ D.length + bufferSize := by
        rw [length_append, ← length_eq_zero_iff]
        omega
      have hrest := ih A (C ++ D) _ hnext (by omega)
      have hsrc := readChunk_spec hread (C.length + 1) A [] C D (by omega)
      have hdst := writeChunk_spec hwrite (C.length + 1) [] C.reverse D.reverse (by simp)
      rw [if_pos (by simp; omega)]
      simp only [hlength, hchunk, Nat.add_sub_cancel]
      simp only [nil_append, length_nil, Nat.zero_add, length_reverse] at hsrc hdst
      rw [append_assoc, hsrc, Option.bind_some, reverseBuffer_spec, Option.bind_some, hdst, Option.bind_some,
        ← reverse_append, hrest]

/-- However the calls split the transfers, the destination is the source in reverse order. -/
theorem copyFileBackwardsAt_reverse (hread : read.Move) (hwrite : write.Move) (src : List UInt8) :
    copyFileBackwardsAt read write src = some src.reverse := by
  have hrun := copyChunks_spec hread hwrite (src.length + 1) src [] 0 (.inl rfl) (by omega)
  rwa [append_nil] at hrun

/-- Two chunks, each of which takes several reads and writes. -/
theorem copyFileBackwardsAt_reverse_chunks :
    copyFileBackwardsAt (fun _ size => some (min size 700)) (fun _ size => some (min size 600))
      (1 :: List.replicate 2000 2) = some (List.replicate 2000 2 ++ [1]) := by
  have hmove (n : Nat) (hn : 0 < n) : Calls.Move fun _ size => some (min size n) :=
    fun _ size h => ⟨_, rfl, by omega, min_le_left _ _⟩
  rw [copyFileBackwardsAt_reverse (hmove 700 (by decide)) (hmove 600 (by decide)), reverse_cons,
    reverse_replicate]

end NsuLabs.CopyBackwards
