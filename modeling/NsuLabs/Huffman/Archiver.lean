/-
Module: NsuLabs.Huffman.Archiver
Purpose: `C-Labs/Huffman_archiver/src`. A file is the list of the bytes that `fread` still delivers, or that
  `fwrite` has put into it; `ReadBit` and `ReadByte` return `none` for `EOF`. `size_t` is `UInt64`, and a
  `uint32_t` has its lowest byte first. In the tree `none` is a failed assertion or an access outside the
  memory. `qsort` is a parameter, since the comparator is not a three-way comparison; so is the content of
  the fresh code buffer. Then the stream operations on lists of bits, and the functions of `HuffmanTree.c`
  over the prefix codes of `Lib.OptimalCodes`.
Trusted boundary: Allocations succeed, and the call stack is unbounded, so a deep tree
  does not overflow it. `CloseBitStream` on the input of `Decompress` has no effect on the output
Main exports: compress, deserializeHuffmanTree_ahead
-/
import NsuLabs.Lib.OptimalCodes

namespace NsuLabs.Huffman

/-- A file with the byte that is buffered. -/
structure BitStream where
  unread : List UInt8
  written : List UInt8
  buffer : UInt8
  bufferedBitsCount : Nat
deriving DecidableEq

/-- `sizeof(s->buffer) * CHAR_BIT`. -/
def bufferCapacity : Nat := 8

/-- A stream on a file that has `file` to be read and nothing written to it yet. -/
def openBitStream (file : List UInt8) : BitStream where
  unread := file
  written := []
  buffer := 0
  bufferedBitsCount := 0

/-- If the buffer is not full, zeros fill the remaining space. -/
def flush (s : BitStream) : BitStream :=
  if s.bufferedBitsCount ≠ 0 then
    { s with written := s.written ++ [s.buffer], buffer := 0, bufferedBitsCount := 0 }
  else s

/-- What is left is the file. -/
def closeBitStream (s : BitStream) : List UInt8 := (flush s).written

/-! ### Writing -/

def writeBit (s : BitStream) (bit : Bool) : BitStream :=
  let s := { s with
    buffer := s.buffer ||| bit.toUInt8 <<< UInt8.ofNat (bufferCapacity - s.bufferedBitsCount - 1)
    bufferedBitsCount := s.bufferedBitsCount + 1 }
  if s.bufferedBitsCount = bufferCapacity then flush s else s

/-- The lowest bit first. -/
def writeByte (s : BitStream) (byte : UInt8) : BitStream :=
  (List.range 8).foldl (fun s i => writeBit s (byte &&& 1 <<< UInt8.ofNat i != 0)) s

def writeByteArray (s : BitStream) (array : List UInt8) : BitStream := array.foldl writeByte s

/-! ### Reading -/

def readBit (s : BitStream) : Option Bool × BitStream :=
  let takeBit (s : BitStream) : Option Bool × BitStream :=
    let count := s.bufferedBitsCount - 1
    (some (s.buffer &&& 1 <<< UInt8.ofNat count != 0), { s with bufferedBitsCount := count })
  if s.bufferedBitsCount = 0 then
    match s.unread with
    | [] => (none, s)
    | byte :: rest => takeBit { s with unread := rest, buffer := byte, bufferedBitsCount := bufferCapacity }
  else takeBit s

/-- The loop of `ReadByte` over the positions that are left. -/
def readByteLoop : List Nat → BitStream → UInt8 → Option UInt8 × BitStream
  | [], s, byte => (some byte, s)
  | i :: rest, s, byte =>
    match readBit s with
    | (none, s) => (none, s)
    | (some bit, s) => readByteLoop rest s (byte ||| bit.toUInt8 <<< UInt8.ofNat i)

def readByte (s : BitStream) : Option UInt8 × BitStream := readByteLoop (List.range 8) s 0

/-- The conversion of an `int16_t` result to `uint8_t`; `EOF` is `-1`. -/
def toUint8 : Option UInt8 → UInt8
  | some byte => byte
  | none => 255

def readByteArray : Nat → BitStream → List UInt8 × BitStream
  | 0, s => ([], s)
  | sz + 1, s =>
    let (byte, s) := readByte s
    let (rest, s) := readByteArray sz s
    (toUint8 byte :: rest, s)

inductive HTree where
  | null
  | node (left right : HTree) (value : UInt8)
deriving DecidableEq

/-- A tree and its frequency. -/
structure HSortNode where
  treeNode : HTree
  frequency : UInt64
deriving DecidableEq

def createTreeNode (value : UInt8) : HTree := .node .null .null value

/-! ### Building the tree -/

/-- Never negative, so that it is not a three-way comparison. -/
def hSortNodeCompare (a b : HSortNode) : Int := if a.frequency > b.frequency then 1 else 0

/-- `qsort` with a comparator. -/
abbrev Qsort := (HSortNode → HSortNode → Int) → List HSortNode → List HSortNode

/-- The table of 256 counters. -/
abbrev FreqTable := UInt8 → UInt32

/-- The leaves, in the order of their bytes. -/
def leafNodes (freqTable : FreqTable) : List HSortNode :=
  (List.range 256).filterMap fun i =>
    let byte := UInt8.ofNat i
    if freqTable byte = 0 then none
    else some { treeNode := createTreeNode byte, frequency := (freqTable byte).toUInt64 }

/-- The array has room for `uniqueBytesCount` leaves, and as many of its entries are read. -/
def prepareLeafNodesQueue (qsort : Qsort) (freqTable : FreqTable) (uniqueBytesCount : UInt16) :
    Option (List HSortNode) :=
  let leaves := leafNodes freqTable
  if leaves.length = uniqueBytesCount.toNat then some (qsort hSortNodeCompare leaves) else none

/-- The popped node, and the two queues without it. -/
def popMinimum : List HSortNode → List HSortNode → Option (HSortNode × List HSortNode × List HSortNode)
  | [], [] => none
  | [], composite :: compositeNodes => some (composite, [], compositeNodes)
  | leaf :: leafNodes, [] => some (leaf, leafNodes, [])
  | leaf :: leafNodes, composite :: compositeNodes =>
    if leaf.frequency < composite.frequency then some (leaf, leafNodes, composite :: compositeNodes)
    else some (composite, leaf :: leafNodes, compositeNodes)

/-- One pass of the loop of `BuildHuffmanTree`. -/
def mergeStep (leafNodes compositeNodes : List HSortNode) : Option (List HSortNode × List HSortNode) := do
  let (m1, leafNodes, compositeNodes) ← popMinimum leafNodes compositeNodes
  let (m2, leafNodes, compositeNodes) ← popMinimum leafNodes compositeNodes
  let newTreeNode := HTree.node m2.treeNode m1.treeNode 0
  some (leafNodes, compositeNodes ++ [{ treeNode := newTreeNode, frequency := m1.frequency + m2.frequency }])

theorem length_popMinimum {leafNodes compositeNodes leafNodes' compositeNodes' : List HSortNode}
    {node : HSortNode}
    (h : popMinimum leafNodes compositeNodes = some (node, leafNodes', compositeNodes')) :
    leafNodes'.length + compositeNodes'.length + 1 = leafNodes.length + compositeNodes.length := by
  match leafNodes, compositeNodes with
  | [], [] => cases h
  | [], _ :: _ =>
    cases h
    simp
  | _ :: _, [] =>
    cases h
    simp
  | _ :: _, _ :: _ =>
    rw [popMinimum] at h
    split at h <;> cases h <;> simp only [List.length_cons] <;> omega

theorem length_mergeStep {leafNodes compositeNodes leafNodes' compositeNodes' : List HSortNode}
    (h : mergeStep leafNodes compositeNodes = some (leafNodes', compositeNodes')) :
    leafNodes'.length + compositeNodes'.length + 1 = leafNodes.length + compositeNodes.length := by
  rw [mergeStep] at h
  obtain ⟨⟨m1, leaves1, composites1⟩, h1, h⟩ := Option.bind_eq_some_iff.mp h
  obtain ⟨⟨m2, leaves2, composites2⟩, h2, h⟩ := Option.bind_eq_some_iff.mp h
  have hlength1 := length_popMinimum h1
  have hlength2 := length_popMinimum h2
  cases h
  rw [List.length_append, List.length_singleton]
  omega

def mergeLoop (leafNodes compositeNodes : List HSortNode) : Option (List HSortNode) :=
  if leafNodes.length + compositeNodes.length > 1 then
    match _h : mergeStep leafNodes compositeNodes with
    | none => none
    | some (leafNodes', compositeNodes') => mergeLoop leafNodes' compositeNodes'
  else some compositeNodes
termination_by leafNodes.length + compositeNodes.length
decreasing_by
  have := length_mergeStep _h
  omega

def buildHuffmanTree (qsort : Qsort) (freqTable : FreqTable) (uniqueBytesCount : UInt16) : Option HTree :=
  if uniqueBytesCount = 0 then none
  else do
    let leafNodes ← prepareLeafNodesQueue qsort freqTable uniqueBytesCount
    match leafNodes with
    | [leaf] => some leaf.treeNode
    | _ => do
        let compositeNodes ← mergeLoop leafNodes []
        match compositeNodes with
        | [] => none
        | root :: _ => some root.treeNode

/-! ### Serialization -/

def HTree.isLeafNode : HTree → Bool
  | node .null .null _ => true
  | _ => false

def serializeHuffmanTree (s : BitStream) : HTree → Option BitStream
  | .null => none
  | .node left right value =>
    if (HTree.node left right value).isLeafNode then some (writeByte (writeBit s true) value)
    else do
      let s ← serializeHuffmanTree (writeBit s false) left
      serializeHuffmanTree s right

/-- The fuel bounds the depth of the recursion. At the end of the file the conversion of `EOF` to
    `bool` and to `uint8_t` gives a leaf of value 255. -/
def deserializeHuffmanTree : Nat → BitStream → Option (HTree × BitStream)
  | 0, _ => none
  | fuel + 1, s =>
    let (bit, s) := readBit s
    -- `EOF` is not zero
    if bit.getD true then
      let (value, s) := readByte s
      some (createTreeNode (toUint8 value), s)
    else do
      let (left, s) ← deserializeHuffmanTree fuel s
      let (right, s) ← deserializeHuffmanTree fuel s
      some (.node left right 0, s)

/-! ### The code table -/

/-- A null pointer or a string, for each byte. -/
abbrev CodeTable := UInt8 → Option (List Char)

/-- The size of the code buffer and of the strings. -/
def codeCapacity : Nat := 256

/-- `curCode[curDepth] = ch`. -/
def setChar (curCode : List Char) (curDepth : Nat) (ch : Char) : Option (List Char) :=
  if curDepth < curCode.length then some (curCode.set curDepth ch) else none

/-- `strcpy` into fresh memory of `codeCapacity` characters; a buffer without a terminating null is
    overrun. -/
def copyString (curCode : List Char) : Option (List Char) :=
  let text := curCode.takeWhile (· ≠ '\x00')
  if text.length < curCode.length ∧ text.length < codeCapacity then some text else none

def makeCodeTableImpl : HTree → CodeTable → List Char → Nat → Option (CodeTable × List Char)
  | .null, _, _, _ => none
  | .node left right value, table, curCode, curDepth =>
    if (HTree.node left right value).isLeafNode then do
      let curCode ← setChar curCode curDepth '\x00'
      let code ← copyString curCode
      some (Function.update table value (some code), curCode)
    else do
      let curCode ← setChar curCode curDepth '0'
      let (table, curCode) ← makeCodeTableImpl left table curCode (curDepth + 1)
      let curCode ← setChar curCode curDepth '1'
      makeCodeTableImpl right table curCode (curDepth + 1)

/-- `fresh` is what `malloc` leaves in the code buffer. -/
def makeCodeTable (fresh : List Char) (tree : HTree) : Option CodeTable := do
  let (table, _) ← makeCodeTableImpl tree (fun _ => none) fresh 0
  some table

/-- The code of the byte, character by character. -/
def emitCode (codeTable : CodeTable) (s : BitStream) (byte : UInt8) : Option BitStream := do
  let code ← codeTable byte
  code.foldlM (fun s ch =>
    if ch = '0' then some (writeBit s false)
    else if ch = '1' then some (writeBit s true)
    else none) s

/-! ### Decoding -/

/-- The byte, or `none` at the end of the file, and the stream behind it. -/
def decodeByte (s : BitStream) : HTree → Option (Option UInt8 × BitStream)
  | .null => none
  | .node left right value =>
    if (HTree.node left right value).isLeafNode then some (some value, s)
    else
      match readBit s with
      | (some false, s) => decodeByte s left
      | (some true, s) => decodeByte s right
      | (none, s) => some (none, s)

/-- The result of the first pass over the input. -/
structure ByteCounts where
  freqTable : FreqTable
  uniqueBytesCount : UInt16
  totalBytesCount : UInt32

def countByte (counts : ByteCounts) (byte : UInt8) : ByteCounts where
  freqTable := Function.update counts.freqTable byte (counts.freqTable byte + 1)
  uniqueBytesCount :=
    if counts.freqTable byte = 0 then counts.uniqueBytesCount + 1 else counts.uniqueBytesCount
  totalBytesCount := counts.totalBytesCount + 1

def countBytes (data : List UInt8) : ByteCounts :=
  data.foldl countByte { freqTable := fun _ => 0, uniqueBytesCount := 0, totalBytesCount := 0 }

/-- The bytes of a `uint32_t` in memory. -/
def bytesOfUint32 (value : UInt32) : List UInt8 :=
  [value.toUInt8, (value >>> 8).toUInt8, (value >>> 16).toUInt8, (value >>> 24).toUInt8]

def uint32OfBytes (bytes : List UInt8) : UInt32 :=
  bytes.foldr (fun byte value => byte.toUInt32 ||| value <<< 8) 0

/-- The bytes written to the output. -/
def compress (qsort : Qsort) (fresh : List Char) (data : List UInt8) : Option (List UInt8) := do
  let counts := countBytes data
  let bitOutput := writeByteArray (openBitStream []) (bytesOfUint32 counts.totalBytesCount)
  let huffmanTree ← buildHuffmanTree qsort counts.freqTable counts.uniqueBytesCount
  let bitOutput ← serializeHuffmanTree bitOutput huffmanTree
  let codeTable ← makeCodeTable fresh huffmanTree
  let bitOutput ← data.foldlM (emitCode codeTable) bitOutput
  some (closeBitStream bitOutput)

/-- The loop of `Decompress` for the bytes that are still to be decoded. -/
def decodeLoop (huffmanTree : HTree) : Nat → BitStream → Option (List UInt8)
  | 0, _ => some []
  | remaining + 1, s => do
      let (byte, s) ← decodeByte s huffmanTree
      match byte with
      | none => some []
      | some byte => do
          let rest ← decodeLoop huffmanTree remaining s
          some (byte :: rest)

/-- Every level of the recursion of `DeserializeHuffmanTree` consumes a bit or meets the end of the
    file, so that the number of bits in the file bounds its depth. -/
def decompress (archive : List UInt8) : Option (List UInt8) := do
  let bitInput := openBitStream archive
  let (header, bitInput) := readByteArray 4 bitInput
  let totalBytesEncoded := uint32OfBytes header
  let (huffmanTree, bitInput) ← deserializeHuffmanTree (8 * archive.length + 1) bitInput
  decodeLoop huffmanTree totalBytesEncoded.toNat bitInput

section

open List

/-! ### The bits of a byte -/

def bitOf (byte : UInt8) (i : Nat) : Bool := byte.toNat.testBit i

/-- The order in which the bits of a file are read: the highest bit of every byte first. -/
def highFirst (byte : UInt8) : List Bool := (List.range 8).map fun i => bitOf byte (7 - i)

/-- The order in which `WriteByte` writes a byte. -/
def lowFirst (byte : UInt8) : List Bool := (List.range 8).map (bitOf byte)

def bitsOfBytes (bytes : List UInt8) : List Bool := bytes.flatMap highFirst

variable {i : Nat}

theorem toNat_one_shiftLeft (hi : i < 8) : ((1 : UInt8) <<< UInt8.ofNat i).toNat = 2 ^ i := by
  revert i
  decide

theorem and_shiftLeft_ne_zero (byte : UInt8) (hi : i < 8) :
    (byte &&& 1 <<< UInt8.ofNat i != 0) = bitOf byte i := by
  have hmask : (byte &&& 1 <<< UInt8.ofNat i).toNat = (bitOf byte i).toNat * 2 ^ i := by
    rw [UInt8.toNat_and, toNat_one_shiftLeft hi, Nat.and_two_pow]
    rfl
  have hpow : 2 ^ i ≠ 0 := Nat.pos_iff_ne_zero.mp (Nat.two_pow_pos i)
  rw [Bool.eq_iff_iff, bne_iff_ne, ne_eq, ← UInt8.toNat_inj, hmask]
  cases bitOf byte i <;> simp

theorem bitOf_or_shiftLeft (byte : UInt8) (bit : Bool) (hi : i < 8) (j : Nat) :
    bitOf (byte ||| bit.toUInt8 <<< UInt8.ofNat i) j = (bitOf byte j || (decide (i = j) && bit)) := by
  rw [bitOf, UInt8.toNat_or, Nat.testBit_or]
  cases bit with
  | false =>
    have hzero : (false.toUInt8 <<< UInt8.ofNat i).toNat = 0 := by
      revert i
      decide
    rw [hzero, Nat.zero_testBit, Bool.and_false]
    rfl
  | true =>
    change (byte.toNat.testBit j || ((1 : UInt8) <<< UInt8.ofNat i).toNat.testBit j) = _
    rw [toNat_one_shiftLeft hi, Nat.testBit_two_pow, Bool.and_true]
    rfl

theorem bitOf_ext {byte byte' : UInt8} (h : ∀ i < 8, bitOf byte i = bitOf byte' i) : byte = byte' := by
  apply UInt8.toNat_inj.mp
  apply Nat.eq_of_testBit_eq
  intro i
  by_cases hi : i < 8
  · exact h i hi
  · have hpow : 2 ^ 8 ≤ 2 ^ i := Nat.pow_le_pow_right (by decide) (by omega)
    rw [Nat.testBit_lt_two_pow (Nat.lt_of_lt_of_le byte.toNat_lt hpow),
      Nat.testBit_lt_two_pow (Nat.lt_of_lt_of_le byte'.toNat_lt hpow)]

theorem length_highFirst (byte : UInt8) : (highFirst byte).length = 8 := rfl

/-! ### Writing -/

/-- The buffer has room for a bit, and nothing is set in the room. -/
structure BitStream.Writable (s : BitStream) : Prop where
  room : s.bufferedBitsCount < 8
  clear : ∀ i < 8 - s.bufferedBitsCount, bitOf s.buffer i = false

def BitStream.bitsWritten (s : BitStream) : List Bool :=
  bitsOfBytes s.written ++ (highFirst s.buffer).take s.bufferedBitsCount

theorem writable_openBitStream (file : List UInt8) : (openBitStream file).Writable where
  room := Nat.zero_lt_succ 7
  clear := by
    intro i _
    exact Nat.zero_testBit i

theorem bitsOfBytes_append (xs ys : List UInt8) :
    bitsOfBytes (xs ++ ys) = bitsOfBytes xs ++ bitsOfBytes ys :=
  flatMap_append

theorem bitsOfBytes_singleton (byte : UInt8) : bitsOfBytes [byte] = highFirst byte := by
  rw [bitsOfBytes, flatMap_cons, flatMap_nil, append_nil]

theorem take_set_succ {α : Type} {xs : List α} {n : Nat} (hn : n < xs.length) (x : α) :
    (xs.set n x).take (n + 1) = xs.take n ++ [x] := by
  rw [take_add_one, take_set_of_le (Nat.le_refl n), getElem?_set_self hn]
  rfl

theorem highFirst_or {byte : UInt8} (hi : i < 8) (hclear : bitOf byte (7 - i) = false) (bit : Bool) :
    highFirst (byte ||| bit.toUInt8 <<< UInt8.ofNat (7 - i)) = (highFirst byte).set i bit := by
  apply ext_getElem
  · rw [length_set, length_highFirst, length_highFirst]
  · intro j hj _
    rw [length_highFirst] at hj
    simp only [highFirst, getElem_map, getElem_range, getElem_set,
      bitOf_or_shiftLeft byte bit (by omega : 7 - i < 8)]
    by_cases hij : i = j
    · subst hij
      simp [hclear]
    · -- an other bit is in another place
      have hne : ¬ (7 - i = 7 - j) := by omega
      simp [hij, hne]

/-- The buffer with one more bit in it. -/
theorem take_highFirst_or {buffer : UInt8} {count : Nat} (hroom : count < 8)
    (hclear : ∀ i < 8 - count, bitOf buffer i = false) (bit : Bool) :
    (highFirst (buffer ||| bit.toUInt8 <<< UInt8.ofNat (bufferCapacity - count - 1))).take (count + 1) =
      (highFirst buffer).take count ++ [bit] := by
  have hplace : bufferCapacity - count - 1 = 7 - count := by
    rw [bufferCapacity]
    omega
  rw [hplace, highFirst_or hroom (hclear _ (by omega)), take_set_succ]
  exact hroom

variable {s : BitStream}

theorem writeBit_spec (h : s.Writable) (bit : Bool) :
    (writeBit s bit).Writable ∧ (writeBit s bit).bitsWritten = s.bitsWritten ++ [bit] := by
  have htake := take_highFirst_or h.room h.clear bit
  rw [writeBit]
  dsimp only
  by_cases hfull : s.bufferedBitsCount + 1 = bufferCapacity
  · -- the byte is complete and goes to the file
    rw [if_pos hfull, flush, if_pos (by exact Nat.succ_ne_zero _)]
    refine ⟨⟨Nat.zero_lt_succ 7, fun i _ => Nat.zero_testBit i⟩, ?_⟩
    rw [BitStream.bitsWritten, BitStream.bitsWritten, take_zero, append_nil, bitsOfBytes_append,
      bitsOfBytes_singleton, append_assoc, ← htake, take_of_length_le]
    rw [length_highFirst, hfull]
    exact Nat.le_refl 8
  · rw [if_neg hfull]
    have hroom : s.bufferedBitsCount + 1 < 8 := Nat.lt_of_le_of_ne h.room hfull
    refine ⟨⟨hroom, ?_⟩, ?_⟩
    · intro i hi
      dsimp only at hi ⊢
      have hne : ¬ (bufferCapacity - s.bufferedBitsCount - 1 = i) := by
        rw [bufferCapacity]
        omega
      rw [bitOf_or_shiftLeft _ _ (by rw [bufferCapacity]; omega), h.clear i (by omega)]
      simp [hne]
    · rw [BitStream.bitsWritten, BitStream.bitsWritten, append_assoc, ← htake]

def writeBits (s : BitStream) (bits : List Bool) : BitStream := bits.foldl writeBit s

theorem writeBits_cons (s : BitStream) (bit : Bool) (bits : List Bool) :
    writeBits s (bit :: bits) = writeBits (writeBit s bit) bits :=
  foldl_cons

theorem writeBits_append (s : BitStream) (bits bits' : List Bool) :
    writeBits s (bits ++ bits') = writeBits (writeBits s bits) bits' :=
  foldl_append

theorem writeBits_spec (h : s.Writable) (bits : List Bool) :
    (writeBits s bits).Writable ∧ (writeBits s bits).bitsWritten = s.bitsWritten ++ bits := by
  induction bits generalizing s with
  | nil => exact ⟨h, (append_nil _).symm⟩
  | cons bit bits ih =>
    obtain ⟨hbit, hwritten⟩ := writeBit_spec h bit
    obtain ⟨hrest, hall⟩ := ih hbit
    refine ⟨hrest, hall.trans ?_⟩
    rw [hwritten, append_assoc]
    rfl

theorem writeByte_eq_writeBits (s : BitStream) (byte : UInt8) :
    writeByte s byte = writeBits s (lowFirst byte) := by
  rw [writeByte, writeBits, lowFirst, foldl_map]
  apply foldl_ext
  intro s i hi
  rw [and_shiftLeft_ne_zero byte (mem_range.mp hi)]

theorem writeByteArray_eq_writeBits (s : BitStream) (array : List UInt8) :
    writeByteArray s array = writeBits s (array.flatMap lowFirst) := by
  induction array generalizing s with
  | nil => rfl
  | cons byte array ih =>
    rw [flatMap_cons, writeBits_append, ← writeByte_eq_writeBits, ← ih, writeByteArray, foldl_cons,
      ← writeByteArray]

/-- The bits of the closed file are the bits written and what fills the last byte. -/
theorem bitsOfBytes_closeBitStream (s : BitStream) :
    ∃ padding, bitsOfBytes (closeBitStream s) = s.bitsWritten ++ padding ∧ padding.length < 8 := by
  rw [closeBitStream, flush]
  by_cases hzero : s.bufferedBitsCount = 0
  · refine ⟨[], ?_, Nat.zero_lt_succ 7⟩
    rw [if_neg (not_not.mpr hzero), BitStream.bitsWritten, hzero, take_zero]
    simp
  · refine ⟨(highFirst s.buffer).drop s.bufferedBitsCount, ?_, ?_⟩
    · rw [if_pos hzero, bitsOfBytes_append, bitsOfBytes_singleton, BitStream.bitsWritten, append_assoc,
        take_append_drop]
    · rw [length_drop, length_highFirst]
      omega

/-! ### Reading -/

/-- The bits that are still to be read. -/
structure Ahead (s : BitStream) (bits : List Bool) : Prop where
  count_le : s.bufferedBitsCount ≤ 8
  eq : (highFirst s.buffer).drop (8 - s.bufferedBitsCount) ++ bitsOfBytes s.unread = bits

theorem ahead_openBitStream (file : List UInt8) : Ahead (openBitStream file) (bitsOfBytes file) where
  count_le := Nat.zero_le 8
  eq := by
    change (highFirst 0).drop 8 ++ bitsOfBytes file = _
    rw [drop_of_length_le (Nat.le_refl 8), nil_append]

/-- Taking the next bit out of a buffer that is not empty. -/
theorem drop_highFirst {buffer : UInt8} {count : Nat} (hpos : count ≠ 0) (hle : count ≤ 8) :
    (highFirst buffer).drop (8 - count) =
      (buffer &&& 1 <<< UInt8.ofNat (count - 1) != 0) :: (highFirst buffer).drop (8 - (count - 1)) := by
  have hlt : 8 - count < (highFirst buffer).length := by
    rw [length_highFirst]
    omega
  have hbit : (highFirst buffer)[8 - count] = bitOf buffer (count - 1) := by
    simp only [highFirst, getElem_map, getElem_range]
    congr 1
    omega
  rw [drop_eq_getElem_cons hlt, hbit, and_shiftLeft_ne_zero buffer (by omega)]
  congr 2
  omega

theorem readBit_ahead {bit : Bool} {bits : List Bool} (h : Ahead s (bit :: bits)) :
    ∃ s', readBit s = (some bit, s') ∧ Ahead s' bits := by
  have heq := h.eq
  rw [readBit]
  dsimp only
  by_cases hzero : s.bufferedBitsCount = 0
  · rw [hzero, drop_of_length_le (Nat.le_refl 8), nil_append] at heq
    rw [if_pos hzero]
    cases hunread : s.unread with
    | nil =>
      rw [hunread] at heq
      cases heq
    | cons byte rest =>
      rw [hunread, bitsOfBytes, flatMap_cons] at heq
      have hdrop := @drop_highFirst byte 8 (by decide) (Nat.le_refl 8)
      rw [Nat.sub_self, drop_zero] at hdrop
      rw [hdrop, cons_append, cons.injEq] at heq
      refine ⟨_, Prod.ext (congrArg some heq.1) rfl, Nat.sub_le 8 1, heq.2⟩
  · rw [drop_highFirst hzero h.count_le, cons_append, cons.injEq] at heq
    rw [if_neg hzero]
    have hcount := h.count_le
    exact ⟨_, Prod.ext (congrArg some heq.1) rfl, by dsimp only; omega, heq.2⟩

theorem readBit_ahead_nil (h : Ahead s []) : readBit s = (none, s) := by
  have heq := h.eq
  have hcount := h.count_le
  obtain ⟨hbuffer, hunread⟩ := append_eq_nil_iff.mp heq
  have hzero : s.bufferedBitsCount = 0 := by
    have hlength := length_eq_zero_iff.mpr hbuffer
    rw [length_drop, length_highFirst] at hlength
    omega
  have hnil : s.unread = [] := by
    cases hcase : s.unread with
    | nil => rfl
    | cons byte rest =>
      rw [hcase] at hunread
      cases hunread
  rw [readBit]
  dsimp only
  rw [if_pos hzero, hnil]

variable {rest : List Bool}

theorem readByteLoop_ahead (f : Nat → Bool) (positions : List Nat) (hpositions : ∀ i ∈ positions, i < 8)
    (byte : UInt8) (h : Ahead s (positions.map f ++ rest)) :
    ∃ byte' s', readByteLoop positions s byte = (some byte', s') ∧ Ahead s' rest ∧
      ∀ j, bitOf byte' j = (bitOf byte j || (decide (j ∈ positions) && f j)) := by
  induction positions generalizing s byte with
  | nil => exact ⟨byte, s, rfl, h, fun j => by simp⟩
  | cons i positions ih =>
    obtain ⟨s1, hread, h1⟩ := readBit_ahead h
    obtain ⟨byte', s', hloop, hrest, hbits⟩ := ih (fun j hj => hpositions j (mem_cons_of_mem i hj))
      (byte ||| (f i).toUInt8 <<< UInt8.ofNat i) h1
    refine ⟨byte', s', ?_, hrest, ?_⟩
    · rw [readByteLoop, hread]
      exact hloop
    · intro j
      rw [hbits j, bitOf_or_shiftLeft _ _ (hpositions i mem_cons_self)]
      by_cases hij : i = j
      · subst hij
        cases f i <;> simp
      · simp [hij, Ne.symm hij]

theorem readByte_ahead {byte : UInt8} (h : Ahead s (lowFirst byte ++ rest)) :
    ∃ s', readByte s = (some byte, s') ∧ Ahead s' rest := by
  obtain ⟨byte', s', hloop, hrest, hbits⟩ := readByteLoop_ahead (bitOf byte) (List.range 8)
    (fun i hi => mem_range.mp hi) 0 h
  have hbyte : byte' = byte := by
    apply bitOf_ext
    intro i hi
    rw [hbits i]
    simp [hi, bitOf]
  exact ⟨s', hbyte ▸ hloop, hrest⟩

theorem readByteArray_ahead (array : List UInt8) (h : Ahead s (array.flatMap lowFirst ++ rest)) :
    ∃ s', readByteArray array.length s = (array, s') ∧ Ahead s' rest := by
  induction array generalizing s with
  | nil => exact ⟨s, rfl, h⟩
  | cons byte array ih =>
    rw [flatMap_cons, append_assoc] at h
    obtain ⟨s1, hbyte, h1⟩ := readByte_ahead h
    obtain ⟨s', harray, hrest⟩ := ih h1
    refine ⟨s', ?_, hrest⟩
    rw [length_cons, readByteArray, hbyte]
    dsimp only
    rw [harray]
    rfl

end

open Lib List Option

variable {s : BitStream} {rest bits path code : List Bool} {t : CodeTree UInt8} {value : UInt8}
  {curCode : List Char}
  {codes : List (UInt8 × List Bool)}

/-- The nodes of a tree in memory. -/
def ofCodeTree : CodeTree UInt8 → HTree
  | .leaf value => createTreeNode value
  | .branch left right => .node (ofCodeTree left) (ofCodeTree right) 0

theorem isLeafNode_branch (left right : CodeTree UInt8) (value : UInt8) :
    (HTree.node (ofCodeTree left) (ofCodeTree right) value).isLeafNode = false := by
  cases left <;> rfl

/-! ### Serialization -/

theorem serializeHuffmanTree_ofCodeTree (t : CodeTree UInt8) (s : BitStream) :
    serializeHuffmanTree s (ofCodeTree t) = some (writeBits s (t.serialize lowFirst)) := by
  induction t generalizing s with
  | leaf value =>
    rw [ofCodeTree, createTreeNode, serializeHuffmanTree, HTree.isLeafNode, if_pos rfl,
      writeByte_eq_writeBits, CodeTree.serialize, writeBits_cons]
  | branch left right ihl ihr =>
    rw [ofCodeTree, serializeHuffmanTree, isLeafNode_branch, if_neg Bool.false_ne_true, ihl]
    rw [bind_eq_bind, bind_some, ihr, ← writeBits_append, CodeTree.serialize, writeBits_cons]

theorem deserializeHuffmanTree_ahead (t : CodeTree UInt8) {fuel : Nat} (hfuel : t.height < fuel)
    (h : Ahead s (t.serialize lowFirst ++ rest)) :
    ∃ s', deserializeHuffmanTree fuel s = some (ofCodeTree t, s') ∧ Ahead s' rest := by
  induction t generalizing fuel s rest with
  | leaf value =>
    obtain ⟨fuel, rfl⟩ := Nat.exists_eq_add_one_of_ne_zero (Nat.ne_of_gt hfuel)
    obtain ⟨s1, hbit, h1⟩ := readBit_ahead h
    obtain ⟨s2, hbyte, h2⟩ := readByte_ahead h1
    refine ⟨s2, ?_, h2⟩
    rw [deserializeHuffmanTree, hbit]
    dsimp only
    rw [hbyte]
    rfl
  | branch left right ihl ihr =>
    obtain ⟨fuel, rfl⟩ := Nat.exists_eq_add_one_of_ne_zero (Nat.ne_of_gt (Nat.zero_lt_of_lt hfuel))
    rw [CodeTree.height] at hfuel
    have hleft : left.height < fuel := by omega
    have hright : right.height < fuel := by omega
    rw [CodeTree.serialize, cons_append, append_assoc] at h
    obtain ⟨s1, hbit, h1⟩ := readBit_ahead h
    obtain ⟨s2, hread2, h2⟩ := ihl hleft h1
    obtain ⟨s3, hread3, h3⟩ := ihr hright h2
    refine ⟨s3, ?_, h3⟩
    rw [deserializeHuffmanTree, hbit]
    simp [hread2, hread3, ofCodeTree]

/-! ### Decoding -/

/-- The walk of `DecodeByte` is the walk along a code; if the bits end on the way, it returns `EOF`. -/
theorem decodeByte_ahead (t : CodeTree UInt8) (h : Ahead s bits) :
    ∃ s', decodeByte s (ofCodeTree t) = some ((t.decode bits).map Prod.fst, s') ∧
      ∀ p ∈ t.decode bits, Ahead s' p.2 := by
  induction t generalizing bits s with
  | leaf v => exact ⟨s, rfl, fun p hp => by cases hp; exact h⟩
  | branch left right ihl ihr =>
    rw [ofCodeTree, decodeByte, isLeafNode_branch, if_neg Bool.false_ne_true]
    rcases bits with _ | ⟨_ | _, bits⟩
    · rw [readBit_ahead_nil h]
      exact ⟨s, rfl, fun p hp => by cases hp⟩
    · obtain ⟨s1, hbit, h1⟩ := readBit_ahead h
      rw [hbit]
      exact ihl h1
    · obtain ⟨s1, hbit, h1⟩ := readBit_ahead h
      rw [hbit]
      exact ihr h1

/-! ### The code table -/

def bitChar (bit : Bool) : Char := if bit then '1' else '0'

def codeText (code : List Bool) : List Char := code.map bitChar

theorem bitChar_ne_null (bit : Bool) : bitChar bit ≠ '\x00' := by
  cases bit <;> decide

/-- The code buffer holds the path in front of its other characters. -/
structure BufferHolds (curCode : List Char) (path : List Bool) : Prop where
  length : curCode.length = codeCapacity
  front : curCode.take path.length = codeText path

theorem BufferHolds.parent {bit : Bool} (h : BufferHolds curCode (path ++ [bit])) :
    BufferHolds curCode path := by
  refine ⟨h.length, ?_⟩
  have hfront := congrArg (List.take path.length) h.front
  rwa [take_take, length_append, Nat.min_eq_left (Nat.le_add_right _ _), codeText, map_append,
    take_left' (length_map _)] at hfront

/-- Storing the next character of the path. -/
theorem BufferHolds.setChar (h : BufferHolds curCode path) (hdepth : path.length < codeCapacity)
    (bit : Bool) : ∃ curCode', setChar curCode path.length (bitChar bit) = some curCode' ∧
      BufferHolds curCode' (path ++ [bit]) := by
  have hlt : path.length < curCode.length := by
    rw [h.length]
    exact hdepth
  refine ⟨curCode.set path.length (bitChar bit), if_pos hlt, ?_, ?_⟩
  · rw [length_set, h.length]
  · rw [length_append, length_singleton, take_set_succ hlt, h.front, codeText, codeText, map_append]
    rfl

/-- Terminating the path gives its text. -/
theorem BufferHolds.copyString (h : BufferHolds curCode path) (hdepth : path.length < codeCapacity) :
    ∃ curCode', Huffman.setChar curCode path.length '\x00' = some curCode' ∧
      copyString curCode' = some (codeText path) ∧ BufferHolds curCode' path := by
  have hlt : path.length < curCode.length := by
    rw [h.length]
    exact hdepth
  have hsplit : curCode.set path.length '\x00' =
      codeText path ++ '\x00' :: (curCode.set path.length '\x00').drop (path.length + 1) := by
    conv_lhs => rw [← take_append_drop (path.length + 1) (curCode.set path.length '\x00'), take_set_succ hlt,
      h.front]
    simp
  have htext : (curCode.set path.length '\x00').takeWhile (· ≠ '\x00') = codeText path := by
    rw [hsplit, takeWhile_append_of_pos]
    · simp
    · intro ch hch
      obtain ⟨bit, -, rfl⟩ := List.mem_map.mp hch
      simpa using bitChar_ne_null bit
  have hlength : (codeText path).length = path.length := length_map bitChar
  refine ⟨curCode.set path.length '\x00', if_pos hlt, ?_, ?_, ?_⟩
  · rw [Huffman.copyString, htext, hlength, length_set]
    exact if_pos ⟨hlt, hdepth⟩
  · rw [length_set, h.length]
  · rw [take_set_of_le (Nat.le_refl _), h.front]

/-- The entries of the codes of a subtree at the end of a path. -/
def storeCodes (table : CodeTable) (path : List Bool) (codes : List (UInt8 × List Bool)) : CodeTable :=
  codes.foldl (fun table c => Function.update table c.1 (some (codeText (path ++ c.2)))) table

theorem storeCodes_map (table : CodeTable) (path : List Bool) (bit : Bool)
    (codes : List (UInt8 × List Bool)) :
    storeCodes table (path ++ [bit]) codes =
      storeCodes table path (codes.map fun c => (c.1, bit :: c.2)) := by
  rw [storeCodes, storeCodes, foldl_map]
  apply foldl_ext
  intro table c _
  rw [append_assoc]
  rfl

theorem makeCodeTableImpl_ofCodeTree (t : CodeTree UInt8) (table : CodeTable) (h : BufferHolds curCode path)
    (hdepth : path.length + t.height < codeCapacity) :
    ∃ curCode', makeCodeTableImpl (ofCodeTree t) table curCode path.length =
        some (storeCodes table path t.codes, curCode') ∧ BufferHolds curCode' path := by
  induction t generalizing table curCode path with
  | leaf value =>
    obtain ⟨curCode', hset, hcopy, h'⟩ := h.copyString (Nat.lt_of_le_of_lt (Nat.le_add_right _ _) hdepth)
    refine ⟨curCode', ?_, h'⟩
    change (setChar curCode path.length '\x00' >>= fun curCode => copyString curCode >>= fun code =>
      some (Function.update table value (some code), curCode)) = _
    rw [hset]
    change (copyString curCode' >>= _) = _
    rw [hcopy]
    simp [storeCodes, CodeTree.codes]
  | branch left right ihl ihr =>
    rw [CodeTree.height] at hdepth
    have hleftDepth : (path ++ [false]).length + left.height < codeCapacity := by
      rw [length_append, length_singleton]
      omega
    have hrightDepth : (path ++ [true]).length + right.height < codeCapacity := by
      rw [length_append, length_singleton]
      omega
    -- every call leaves the characters above its depth alone
    obtain ⟨curCode1, hset1, h1⟩ := h.setChar (by omega) false
    obtain ⟨curCode2, hleft, h2⟩ := ihl table h1 hleftDepth
    obtain ⟨curCode3, hset3, h3⟩ := h2.parent.setChar (by omega) true
    obtain ⟨curCode4, hright, h4⟩ := ihr (storeCodes table (path ++ [false]) left.codes) h3 hrightDepth
    refine ⟨curCode4, ?_, h4.parent⟩
    rw [length_append, length_singleton] at hleft hright
    rw [ofCodeTree, makeCodeTableImpl, isLeafNode_branch, if_neg Bool.false_ne_true]
    change (setChar curCode path.length (bitChar false) >>= _) = _
    rw [hset1]
    change (makeCodeTableImpl (ofCodeTree left) table curCode1 (path.length + 1) >>= _) = _
    rw [hleft]
    change (setChar curCode2 path.length (bitChar true) >>= _) = _
    rw [hset3]
    change makeCodeTableImpl (ofCodeTree right) _ curCode3 (path.length + 1) = _
    rw [hright, storeCodes_map, storeCodes_map, CodeTree.codes, storeCodes, storeCodes, storeCodes,
      foldl_append]

theorem storeCodes_of_not_mem (table : CodeTable) (path : List Bool) (h : value ∉ codes.map Prod.fst) :
    storeCodes table path codes value = table value := by
  induction codes generalizing table with
  | nil => rfl
  | cons c codes ih =>
    rw [map_cons, mem_cons, not_or] at h
    change storeCodes (Function.update table c.1 _) path codes value = _
    rw [ih _ h.2, Function.update_of_ne h.1]

theorem storeCodes_of_mem (table : CodeTable) (path : List Bool) (hnodup : (codes.map Prod.fst).Nodup)
    (h : (value, code) ∈ codes) :
    storeCodes table path codes value = some (codeText (path ++ code)) := by
  induction codes generalizing table with
  | nil => cases h
  | cons c codes ih =>
    rw [map_cons, nodup_cons] at hnodup
    change storeCodes (Function.update table c.1 _) path codes value = _
    rcases mem_cons.mp h with rfl | h
    · rw [storeCodes_of_not_mem _ _ hnodup.1, Function.update_self]
    · exact ih _ hnodup.2 h

/-- Every leaf of a tree with distinct leaves gets the path to it, and no other byte gets one. -/
theorem makeCodeTable_ofCodeTree {fresh : List Char} (hfresh : fresh.length = codeCapacity)
    (hnodup : t.leaves.Nodup) (hheight : t.height < codeCapacity) :
    ∃ table, makeCodeTable fresh (ofCodeTree t) = some table ∧
      (∀ value code, (value, code) ∈ t.codes → table value = some (codeText code)) ∧
      ∀ value, value ∉ t.leaves → table value = none := by
  have hbuffer : BufferHolds fresh [] := ⟨hfresh, rfl⟩
  have hdepth : ([] : List Bool).length + t.height < codeCapacity := by
    rw [length_nil, Nat.zero_add]
    exact hheight
  obtain ⟨curCode', hmake, -⟩ := makeCodeTableImpl_ofCodeTree t (fun _ => none) hbuffer hdepth
  rw [← t.map_fst_codes] at hnodup ⊢
  refine ⟨storeCodes (fun _ => none) [] t.codes, ?_, ?_, ?_⟩
  · rw [length_nil] at hmake
    rw [makeCodeTable, hmake]
    rfl
  · exact fun value code hcode => storeCodes_of_mem _ [] hnodup hcode
  · exact fun value hvalue => storeCodes_of_not_mem _ [] hvalue

theorem emitCode_eq_writeBits {table : CodeTable} (htable : table value = some (codeText code))
    (s : BitStream) : emitCode table s value = some (writeBits s code) := by
  rw [emitCode, htable]
  change (codeText code).foldlM _ s = _
  clear htable
  induction code generalizing s with
  | nil => rfl
  | cons bit code ih =>
    rw [codeText, map_cons, foldlM_cons]
    cases bit with
    | false => exact ih (writeBit s false)
    | true => exact ih (writeBit s true)

end NsuLabs.Huffman
