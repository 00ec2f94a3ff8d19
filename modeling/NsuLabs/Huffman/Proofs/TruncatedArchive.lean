/-
Module: NsuLabs.Huffman.Proofs.TruncatedArchive
Purpose: `DeserializeHuffmanTree` on a stream with any bits ahead, at any position in a byte, and
  `Decompress` on an archive that was cut off.
Trusted boundary: none
Main exports: decompress_truncated_iff
-/
import NsuLabs.Huffman.Proofs.RoundTrip

namespace NsuLabs.Huffman

open Lib List Option

section

variable {s : BitStream} {bits : List Bool}

/-! ### Reading a byte -/

theorem readByteLoop_short (positions : List Nat) (byte : UInt8) (h : Ahead s bits)
    (hshort : bits.length < positions.length) :
    ∃ s', readByteLoop positions s byte = (none, s') ∧ Ahead s' [] := by
  induction positions generalizing s bits byte with
  | nil => exact absurd hshort (Nat.not_lt_zero _)
  | cons i positions ih =>
    rw [readByteLoop]
    cases bits with
    | nil =>
      rw [readBit_ahead_nil h]
      exact ⟨s, rfl, h⟩
    | cons bit bits =>
      obtain ⟨s1, hread, h1⟩ := readBit_ahead h
      rw [hread]
      exact ih (byte ||| bit.toUInt8 <<< UInt8.ofNat i) h1 (Nat.lt_of_succ_lt_succ hshort)

/-- `ReadByte` takes the bits of a byte, or all bits when there are fewer. -/
theorem readByte_any (h : Ahead s bits) :
    (∃ byte rest s', bits = lowFirst byte ++ rest ∧ readByte s = (some byte, s') ∧ Ahead s' rest) ∨
      ∃ s', bits.length < 8 ∧ readByte s = (none, s') ∧ Ahead s' [] := by
  by_cases hlength : bits.length < 8
  · obtain ⟨s', hread, hrest⟩ := readByteLoop_short (List.range 8) 0 h hlength
    exact .inr ⟨s', hlength, hread, hrest⟩
  · have hmap : bits.take 8 = (List.range 8).map fun i => bits.getD i false := by
      apply ext_getElem
      · rw [length_take, length_map, length_range]
        omega
      · intro i hi _
        rw [length_take] at hi
        rw [getElem_take, getElem_map, getElem_range]
        exact (getD_eq_getElem bits false (by omega)).symm
    rw [← take_append_drop 8 bits, hmap] at h
    obtain ⟨byte, s', hread, hrest, hbits⟩ := readByteLoop_ahead _ (List.range 8)
      (fun i hi => mem_range.mp hi) 0 h
    refine .inl ⟨byte, bits.drop 8, s', ?_, hread, hrest⟩
    conv_lhs => rw [← take_append_drop 8 bits, hmap]
    congr 1
    apply map_congr_left
    intro i hi
    rw [hbits i, decide_eq_true hi]
    simp [bitOf]

/-! ### Reading a tree -/

/-- `DeserializeHuffmanTree` with a flag that is set if a read met the end of the file. -/
def deserializeTraced : Nat → BitStream → Option (HTree × BitStream × Bool)
  | 0, _ => none
  | fuel + 1, s =>
    let (bit, s) := readBit s
    if bit.getD true then
      let (value, s) := readByte s
      some (createTreeNode (toUint8 value), s, bit.isNone || value.isNone)
    else do
      let (left, s, hitEofLeft) ← deserializeTraced fuel s
      let (right, s, hitEofRight) ← deserializeTraced fuel s
      some (.node left right 0, s, hitEofLeft || hitEofRight)

theorem deserializeTraced_erase (fuel : Nat) (s : BitStream) :
    (deserializeTraced fuel s).map (fun p => (p.1, p.2.1)) = deserializeHuffmanTree fuel s := by
  induction fuel generalizing s with
  | zero => rfl
  | succ fuel ih =>
    simp only [deserializeTraced, deserializeHuffmanTree, bind_eq_bind]
    split
    · rfl
    · rw [← ih, Option.map_bind, bind_map]
      refine congrArg₂ Option.bind rfl (funext fun p => ?_)
      rw [Function.comp_apply, Function.comp_apply, ← ih, Option.map_bind, bind_map]
      rfl

/-- What a run on given bits ends with. -/
structure ReadTree (bits : List Bool) (t : CodeTree UInt8) (s' : BitStream) (rest : List Bool)
    (hitEof : Bool) : Prop where
  ahead : Ahead s' rest
  length : rest.length ≤ bits.length
  complete : hitEof = false → bits = t.serialize lowFirst ++ rest
  exhausted : hitEof = true → rest = []
  root : ∀ bits', bits = false :: bits' → ∃ left right, t = .branch left right

/-- Any fuel that is greater than the number of bits gives the same result. -/
theorem deserializeTraced_spec (h : Ahead s bits) :
    ∃ t s' rest hitEof, ReadTree bits t s' rest hitEof ∧
      ∀ fuel, bits.length < fuel → deserializeTraced fuel s = some (ofCodeTree t, s', hitEof) := by
  induction hn : bits.length using Nat.strong_induction_on generalizing s bits with
  | _ n ih =>
  subst hn
  have hrun : ∀ result, (∀ fuel, bits.length ≤ fuel → deserializeTraced (fuel + 1) s = some result) →
      ∀ fuel, bits.length < fuel → deserializeTraced fuel s = some result := by
    rintro result h (_ | fuel) hfuel
    · omega
    · exact h fuel (Nat.le_of_lt_succ hfuel)
  simp only [deserializeTraced] at hrun
  rcases bits with _ | ⟨_ | _, bits⟩
  · -- the flag of a leaf and its value are both read from the end of the file
    obtain ⟨byte, rest, s', hbits, -⟩ | ⟨s', -, hread, hrest⟩ := readByte_any h
    · exact absurd hbits (by simp [lowFirst])
    · refine ⟨.leaf 255, s', [], true, ⟨hrest, Nat.le_refl _, by simp, fun _ => rfl, by simp⟩,
        hrun _ fun fuel _ => ?_⟩
      rw [readBit_ahead_nil h]
      dsimp only
      rw [hread]
      rfl
  · obtain ⟨s1, hread, h1⟩ := readBit_ahead h
    obtain ⟨left, s2, bits2, eof2, h2, hleft⟩ := ih _ (Nat.lt_succ_self _) h1 rfl
    have hlength2 := h2.length
    obtain ⟨right, s3, bits3, eof3, h3, hright⟩ := ih _ (Nat.lt_succ_of_le hlength2) h2.ahead rfl
    refine ⟨.branch left right, s3, bits3, eof2 || eof3,
      ⟨h3.ahead, ?_, ?_, ?_, fun _ _ => ⟨left, right, rfl⟩⟩, hrun _ fun fuel hfuel => ?_⟩
    · rw [length_cons]
      exact Nat.le_succ_of_le (h3.length.trans h2.length)
    · intro hnot
      obtain ⟨hnot2, hnot3⟩ := Bool.or_eq_false_iff.mp hnot
      rw [CodeTree.serialize, h2.complete hnot2, h3.complete hnot3]
      simp
    · intro hmet
      rcases Bool.or_eq_true_iff.mp hmet with hmet | hmet
      · have hlength3 := h3.length
        rw [h2.exhausted hmet] at hlength3
        exact length_eq_zero_iff.mp (Nat.le_zero.mp hlength3)
      · exact h3.exhausted hmet
    · rw [length_cons] at hfuel
      rw [hread]
      simp [hleft fuel hfuel, hright fuel (by omega), ofCodeTree]
  · obtain ⟨s1, hread, h1⟩ := readBit_ahead h
    obtain ⟨byte, rest, s', rfl, hbyte, hrest⟩ | ⟨s', -, hbyte, hrest⟩ := readByte_any h1
    · refine ⟨.leaf byte, s', rest, false, ⟨hrest, by simp; omega, fun _ => rfl, by simp, by simp⟩,
        hrun _ fun fuel _ => ?_⟩
      rw [hread]
      dsimp only
      rw [hbyte]
      rfl
    · refine ⟨.leaf 255, s', [], true, ⟨hrest, Nat.zero_le _, by simp, fun _ => rfl, by simp⟩,
        hrun _ fun fuel _ => ?_⟩
      rw [hread]
      dsimp only
      rw [hbyte]
      rfl

/-! ### The recursion on every stream -/

/-- Every node has two children or none. -/
def HTree.Full : HTree → Prop
  | .null => False
  | .node left right _ => (left = .null ∧ right = .null) ∨ (left.Full ∧ right.Full)

theorem full_ofCodeTree (t : CodeTree UInt8) : (ofCodeTree t).Full := by
  induction t with
  | leaf value => exact .inl ⟨rfl, rfl⟩
  | branch left right ihl ihr => exact .inr ⟨ihl, ihr⟩

/-- The bits that are still to be read, those in the buffer first. -/
def BitStream.bitsAhead (s : BitStream) : List Bool :=
  (highFirst s.buffer).drop (8 - s.bufferedBitsCount) ++ bitsOfBytes s.unread

/-- On every stream the recursion ends with a tree without nodes that have one child. If no read met
    the end of the file, `SerializeHuffmanTree` writes this tree as the bits that were consumed, at
    any position of the output. -/
theorem deserializeHuffmanTree_any (s : BitStream) (hs : s.bufferedBitsCount ≤ bufferCapacity) :
    ∃ tree s' hitEof,
      (∀ fuel, s.bitsAhead.length < fuel → deserializeHuffmanTree fuel s = some (tree, s') ∧
        deserializeTraced fuel s = some (tree, s', hitEof)) ∧
      tree.Full ∧
      (hitEof = false → ∃ consumed, s.bitsAhead = consumed ++ s'.bitsAhead ∧
        ∀ out : BitStream, out.Writable → ∃ out', serializeHuffmanTree out tree = some out' ∧
          out'.bitsWritten = out.bitsWritten ++ consumed) := by
  have hahead : Ahead s s.bitsAhead := ⟨hs, rfl⟩
  obtain ⟨t, s', rest, hitEof, hread, hrun⟩ := deserializeTraced_spec hahead
  refine ⟨ofCodeTree t, s', hitEof, ?_, full_ofCodeTree t, ?_⟩
  · intro fuel hfuel
    refine ⟨?_, hrun fuel hfuel⟩
    rw [← deserializeTraced_erase, hrun fuel hfuel]
    rfl
  · intro hnot
    refine ⟨t.serialize lowFirst, ?_, ?_⟩
    · rw [hread.complete hnot, ← hread.ahead.eq]
      rfl
    · intro out hout
      exact ⟨_, serializeHuffmanTree_ofCodeTree t out, (writeBits_spec hout _).2⟩

/-- A branch over the bytes 1 and 2, after a bit that was taken before. -/
theorem deserializeHuffmanTree_any_branch :
    ∃ tree s' consumed,
      (∀ fuel, 23 < fuel → deserializeHuffmanTree fuel (readBit (openBitStream [48, 20, 0])).2 =
        some (tree, s')) ∧
      tree.Full ∧ (readBit (openBitStream [48, 20, 0])).2.bitsAhead = consumed ++ s'.bitsAhead ∧
      ∀ out : BitStream, out.Writable → ∃ out', serializeHuffmanTree out tree = some out' ∧
        out'.bitsWritten = out.bitsWritten ++ consumed := by
  obtain ⟨tree, s', hitEof, hrun, hfull, hconsumed⟩ :=
    deserializeHuffmanTree_any (readBit (openBitStream [48, 20, 0])).2 (by decide)
  have hread : (deserializeTraced 24 (readBit (openBitStream [48, 20, 0])).2).map
      (fun result => result.2.2) = some false := by decide +kernel
  rw [(hrun 24 (by decide)).2] at hread
  obtain ⟨consumed, hbits, hserialize⟩ := hconsumed (Option.some.inj hread)
  exact ⟨tree, s', consumed, fun fuel hfuel => (hrun fuel hfuel).1, hfull, hbits, hserialize⟩

end

/-! ### Decoding cut codes -/

variable {data : List UInt8} {s : BitStream} {bits left : List Bool}

/-- The part of the codes that is left decodes to a part of the input. -/
theorem Encoded.decodeLoop_cut {t : CodeTree UInt8} (h : Encoded t data bits)
    {more : List Bool} (hcut : left ++ more = bits) (hahead : Ahead s left) {n : Nat}
    (hn : n ≤ data.length) : ∃ out, Huffman.decodeLoop (ofCodeTree t) n s = some out ∧ out <+: data := by
  induction h generalizing s left n with
  | nil =>
    obtain rfl : n = 0 := Nat.le_zero.mp hn
    exact ⟨[], rfl, prefix_rfl⟩
  | @cons byte code data bits hcode _ ih =>
    cases n with
    | zero => exact ⟨[], rfl, nil_prefix⟩
    | succ n =>
      rw [Huffman.decodeLoop]
      by_cases hshort : left.length < code.length
      · -- the cut is inside the code of the next byte
        obtain ⟨rest, rfl⟩ := prefix_of_prefix_length_le (hcut ▸ prefix_append left more)
          (prefix_append code bits) hshort.le
        have hrest : rest ≠ [] := by
          rintro rfl
          simp at hshort
        obtain ⟨s', hbyte, -⟩ := decodeByte_ahead t hahead
        rw [hbyte, CodeTree.decode_eq_none hcode hrest]
        exact ⟨[], rfl, nil_prefix⟩
      · obtain ⟨rest, rfl⟩ := prefix_of_prefix_length_le (prefix_append code bits)
          (hcut ▸ prefix_append left more) (Nat.le_of_not_gt hshort)
        rw [append_assoc, append_cancel_left_eq] at hcut
        obtain ⟨s', hbyte, h'⟩ := decodeByte_ahead t hahead
        rw [CodeTree.decode_append hcode] at hbyte h'
        obtain ⟨out, hout, hinitial⟩ := ih hcut (h' _ rfl) (Nat.le_of_succ_le_succ hn)
        rw [hbyte]
        refine ⟨byte :: out, ?_, cons_prefix_cons.mpr ⟨rfl, hinitial⟩⟩
        change (Huffman.decodeLoop (ofCodeTree t) n s' >>= _) = _
        rw [hout]
        rfl

/-- A tree that is one leaf gives its byte without reading a bit. -/
theorem decodeLoop_leaf (value : UInt8) (n : Nat) (s : BitStream) :
    decodeLoop (createTreeNode value) n s = some (List.replicate n value) := by
  induction n with
  | zero => rfl
  | succ n ih =>
    change (decodeLoop (createTreeNode value) n s >>= _) = _
    rw [ih]
    rfl

/-! ### The counters without a bound on the input -/

theorem foldl_countByte (data : List UInt8) (counts : ByteCounts) :
    (data.foldl countByte counts).totalBytesCount.toNat ≤ counts.totalBytesCount.toNat + data.length ∧
      ∀ byte, (data.foldl countByte counts).freqTable byte ≠ 0 → counts.freqTable byte ≠ 0 ∨
        byte ∈ data := by
  induction data generalizing counts with
  | nil => exact ⟨Nat.le_refl _, fun byte h => .inl h⟩
  | cons b data ih =>
    obtain ⟨htotal, hfreq⟩ := ih (countByte counts b)
    constructor
    · have hstep : (countByte counts b).totalBytesCount.toNat ≤ counts.totalBytesCount.toNat + 1 := by
        change (counts.totalBytesCount + 1).toNat ≤ _
        rw [UInt32.toNat_add]
        exact Nat.mod_le _ _
      rw [foldl_cons, length_cons]
      omega
    · intro byte hbyte
      rcases hfreq byte hbyte with hold | hmem
      · by_cases heq : byte = b
        · exact .inr (heq ▸ mem_cons_self)
        · left
          have hsame : (countByte counts b).freqTable byte = counts.freqTable byte :=
            Function.update_of_ne heq _ _
          rwa [hsame] at hold
      · exact .inr (mem_cons_of_mem _ hmem)

theorem totalBytesCount_le (data : List UInt8) : (countBytes data).totalBytesCount.toNat ≤ data.length := by
  have h := (foldl_countByte data { freqTable := fun _ => 0, uniqueBytesCount := 0, totalBytesCount := 0 }).1
  rw [UInt32.toNat_zero, Nat.zero_add] at h
  exact h

theorem mem_of_freqTable_ne_zero {byte : UInt8} (h : (countBytes data).freqTable byte ≠ 0) : byte ∈ data :=
  ((foldl_countByte data _).2 byte h).resolve_left fun hzero => hzero rfl

/-! ### Archives of any input -/

/-- Only bytes with a code are emitted. -/
theorem codeTable_ne_none_of_emitted {table : CodeTable} {s' : BitStream}
    (h : data.foldlM (emitCode table) s = some s') : ∀ byte ∈ data, table byte ≠ none := by
  induction data generalizing s with
  | nil => exact fun byte hbyte => absurd hbyte not_mem_nil
  | cons b data ih =>
    rw [foldlM_cons] at h
    obtain ⟨s1, hfirst, hrest⟩ := bind_eq_some_iff.mp h
    intro byte hbyte
    rcases mem_cons.mp hbyte with rfl | hbyte
    · intro hnone
      rw [emitCode, hnone] at hfirst
      cases hfirst
    · exact ih hrest byte hbyte

/-- Whatever the input, an archive consists of the length, the tree of its bytes and their codes. -/
theorem compress_archiveBits {qsort : Qsort} (hqsort : ∀ cmp nodes, (qsort cmp nodes).Perm nodes)
    {fresh : List Char} (hfresh : fresh.length = codeCapacity) {archive : List UInt8}
    (hcompress : compress qsort fresh data = some archive) :
    ∃ t bits padding, ArchiveBits data archive t bits padding ∧ t.leaves.Nodup ∧ ∀ byte ∈ t.leaves,
      byte ∈ data := by
  have hrun := hcompress
  rw [compress] at hrun
  obtain ⟨tree, hbuild, hrun⟩ := bind_eq_some_iff.mp hrun
  obtain ⟨s1, -, hrun⟩ := bind_eq_some_iff.mp hrun
  obtain ⟨table, hmake, hrun⟩ := bind_eq_some_iff.mp hrun
  obtain ⟨s2, hemit, -⟩ := bind_eq_some_iff.mp hrun
  -- the tree was built, so the counters agree about the number of leaves
  have hpos : (countBytes data).uniqueBytesCount ≠ 0 := by
    intro hzero
    rw [buildHuffmanTree, if_pos hzero] at hbuild
    cases hbuild
  have hcard : (usedBytes (countBytes data).freqTable).length =
      (countBytes data).uniqueBytesCount.toNat := by
    rw [buildHuffmanTree, if_neg hpos] at hbuild
    obtain ⟨leaves, hprepare, -⟩ := bind_eq_some_iff.mp hbuild
    rw [prepareLeafNodesQueue] at hprepare
    split at hprepare
    · rename_i hlength
      rwa [leafNodes_eq, length_map, leafQueue, length_map] at hlength
    · cases hprepare
  obtain ⟨t, hbuild', hleaves⟩ := buildHuffmanTree_leaves hqsort hcard hpos
  rw [hbuild] at hbuild'
  cases hbuild'
  have hnodup := hleaves.nodup_iff.mpr (nodup_usedBytes _)
  obtain ⟨table', hmake', -, hnone⟩ := makeCodeTable_ofCodeTree hfresh hnodup (height_lt_codeCapacity hnodup)
  rw [hmake] at hmake'
  cases hmake'
  -- every byte was emitted, so it has a code
  have hdata : ∀ byte ∈ data, byte ∈ t.leaves := by
    intro byte hbyte
    by_contra hnot
    exact codeTable_ne_none_of_emitted hemit byte hbyte (hnone byte hnot)
  obtain ⟨archive', bits, padding, hcompress', harchive⟩ := compress_of_tree hfresh hbuild hnodup hdata
  rw [hcompress] at hcompress'
  cases hcompress'
  refine ⟨t, bits, padding, harchive, hnodup, ?_⟩
  intro byte hbyte
  exact mem_of_freqTable_ne_zero (mem_usedBytes.mp (hleaves.mem_iff.mp hbyte))

/-- A tree that is one leaf encodes only its byte, without bits. -/
theorem Encoded.eq_of_leaf {v : UInt8} (h : Encoded (.leaf v) data bits) :
    bits = [] ∧ ∀ byte ∈ data, byte = v := by
  induction h with
  | nil => exact ⟨rfl, fun byte hbyte => absurd hbyte not_mem_nil⟩
  | cons hcode _ ih =>
    obtain ⟨rfl, rfl⟩ := Prod.mk.inj (mem_singleton.mp hcode)
    exact ⟨ih.1, forall_mem_cons.mpr ⟨rfl, ih.2⟩⟩

theorem lowFirst_append_inj {b b' : UInt8} {x y : List Bool} (h : lowFirst b ++ x = lowFirst b' ++ y) :
    b = b' ∧ x = y := by
  obtain ⟨hbits, rfl⟩ := append_inj h rfl
  refine ⟨bitOf_ext fun i hi => ?_, rfl⟩
  exact map_inj_left.mp hbits i (mem_range.mpr hi)

/-! ### What is left of an archive -/

section Cut

variable {data archive a : List UInt8} {t : CodeTree UInt8} {bits padding : List Bool}

/-- A cut archive has lost a bit that is not padding. -/
theorem ArchiveBits.cut (h : ArchiveBits data archive t bits padding) (hinitial : a <+: archive)
    (hproper : a ≠ archive) : ∃ more, more ≠ [] ∧ bitsOfBytes a ++ more =
      (bytesOfUint32 (countBytes data).totalBytesCount).flatMap lowFirst ++
        (t.serialize lowFirst ++ bits) := by
  obtain ⟨tail, rfl⟩ := hinitial
  have htail : tail ≠ [] := by
    rintro rfl
    exact hproper (append_nil a).symm
  have hpos := length_pos_of_ne_nil htail
  have heq := h.eq
  rw [bitsOfBytes_append, ← append_assoc, ← append_assoc] at heq
  have hlong : padding.length < (bitsOfBytes tail).length := by
    have hpadding := h.padding
    rw [length_bitsOfBytes]
    omega
  obtain ⟨more, hmore⟩ := suffix_of_suffix_length_le (heq ▸ suffix_append _ padding)
    (suffix_append _ (bitsOfBytes tail)) hlong.le
  refine ⟨more, ?_, ?_⟩
  · rintro rfl
    rw [← hmore] at hlong
    simp at hlong
  · rw [← hmore, ← append_assoc, append_cancel_right_eq] at heq
    rw [heq, append_assoc]

/-- The number of bytes that `Decompress` takes from the length, of which missing bytes read as 255. -/
def headerTotal (archive : List UInt8) : Nat :=
  (uint32OfBytes (readByteArray 4 (openBitStream archive)).1).toNat

theorem decompress_of_tree {tree : HTree}
    (h : deserializeHuffmanTree (8 * a.length + 1) (readByteArray 4 (openBitStream a)).2 = some (tree, s)) :
    decompress a = decodeLoop tree (headerTotal a) s := by
  rw [decompress]
  dsimp only
  rw [h]
  rfl

theorem readByteArray_short (n : Nat) (h : Ahead s bits)
    (hle : bits.length ≤ 8 * n) : Ahead (readByteArray n s).2 [] := by
  induction n generalizing s bits with
  | zero =>
    obtain rfl := length_eq_zero_iff.mp (Nat.le_zero.mp hle)
    exact h
  | succ n ih =>
    rw [readByteArray]
    obtain ⟨byte, rest, s', rfl, hread, hrest⟩ | ⟨s', -, hread, hrest⟩ := readByte_any h
    · rw [hread]
      refine ih hrest ?_
      rw [length_append, show (lowFirst byte).length = 8 from rfl] at hle
      omega
    · rw [hread]
      exact ih hrest (Nat.zero_le _)

/-- Without the value of its first leaf the tree is a leaf of value 255. -/
theorem deserializeHuffmanTree_lost (fuel : Nat) (h : Ahead s left)
    (hlost : left = [] ∨ ∃ rest, left = true :: rest ∧ rest.length < 8) :
    ∃ s', deserializeHuffmanTree (fuel + 1) s = some (createTreeNode 255, s') := by
  have hvalue : ∀ {s1 : BitStream} {rest : List Bool}, Ahead s1 rest → rest.length < 8 →
      ∃ s2, readByte s1 = (none, s2) := by
    intro s1 rest h1 hshort
    obtain ⟨byte, more, s2, rfl, -⟩ | ⟨s2, -, hread, -⟩ := readByte_any h1
    · rw [length_append, show (lowFirst byte).length = 8 from rfl] at hshort
      omega
    · exact ⟨s2, hread⟩
  rw [deserializeHuffmanTree]
  rcases hlost with rfl | ⟨rest, rfl, hshort⟩
  · obtain ⟨s2, hread⟩ := hvalue h (Nat.zero_lt_succ 7)
    rw [readBit_ahead_nil h]
    dsimp only
    rw [hread]
    exact ⟨s2, rfl⟩
  · obtain ⟨s1, hbit, h1⟩ := readBit_ahead h
    obtain ⟨s2, hread⟩ := hvalue h1 hshort
    rw [hbit]
    dsimp only
    rw [hread]
    exact ⟨s2, rfl⟩

theorem decompress_of_lost (h : Ahead (readByteArray 4 (openBitStream a)).2 left)
    (hlost : left = [] ∨ ∃ rest, left = true :: rest ∧ rest.length < 8) :
    decompress a = some (List.replicate (headerTotal a) 255) := by
  obtain ⟨s, hrun⟩ := deserializeHuffmanTree_lost (8 * a.length) h hlost
  rw [decompress_of_tree hrun, decodeLoop_leaf]

/-- With the whole length what is left begins in the tree. -/
theorem ArchiveBits.cut_after_header (h : ArchiveBits data archive t bits padding) (hinitial : a <+: archive)
    (hproper : a ≠ archive) (hlong : 4 < a.length) :
    ∃ left more, left ≠ [] ∧ more ≠ [] ∧ left ++ more = t.serialize lowFirst ++ bits ∧
      Ahead (readByteArray 4 (openBitStream a)).2 left ∧ left.length < 8 * a.length ∧
      headerTotal a = (countBytes data).totalBytesCount.toNat := by
  obtain ⟨more, hmore, hbits⟩ := h.cut hinitial hproper
  generalize hheader : bytesOfUint32 (countBytes data).totalBytesCount = header at hbits
  have hfour : header.length = 4 := by
    rw [← hheader]
    rfl
  have hlength : (header.flatMap lowFirst).length = 32 := by
    rw [length_flatMap, map_congr_left (fun byte _ => show (lowFirst byte).length = 8 from rfl)]
    simp [hfour]
  have ha := length_bitsOfBytes a
  obtain ⟨left, hleft⟩ := prefix_of_prefix_length_le (prefix_append (header.flatMap lowFirst) _)
    (hbits ▸ prefix_append (bitsOfBytes a) more) (by omega)
  have hcut := congrArg List.length hleft
  rw [length_append] at hcut
  have hahead := ahead_openBitStream a
  rw [← hleft] at hahead hbits
  rw [append_assoc, append_cancel_left_eq] at hbits
  obtain ⟨s1, hread, h1⟩ := readByteArray_ahead header hahead
  rw [hfour] at hread
  refine ⟨left, more, ?_, hmore, hbits, ?_, by omega, ?_⟩
  · rintro rfl
    rw [length_nil] at hcut
    omega
  · rw [hread]
    exact h1
  · rw [headerTotal, hread, ← hheader]
    exact congrArg UInt32.toNat (uint32OfBytes_bytesOfUint32 _)

/-- A branch at the root keeps the output a prefix of the input, wherever the cut is. -/
theorem ArchiveBits.decompress_branch {l r : CodeTree UInt8}
    (h : ArchiveBits data archive (.branch l r) bits padding)
    (hinitial : a <+: archive) (hproper : a ≠ archive) (hlong : 4 < a.length) :
    ∃ out, decompress a = some out ∧ out <+: data := by
  obtain ⟨left, more, hleft, -, hbits, hahead, hlength, htotal⟩ := h.cut_after_header hinitial hproper hlong
  obtain ⟨t', s', rest, hitEof, hread, hrun⟩ := deserializeTraced_spec hahead
  have htree := congrArg (Option.map fun p => (p.1, p.2.1)) (hrun _ (Nat.lt_succ_of_lt hlength))
  rw [deserializeTraced_erase, map_some] at htree
  rw [decompress_of_tree htree, htotal]
  cases hitEof with
  | true =>
    -- the end of the file is met again at the root
    obtain ⟨bit, left, rfl⟩ := exists_cons_of_ne_nil hleft
    rw [CodeTree.serialize, cons_append, cons_append, cons.injEq] at hbits
    obtain ⟨l', r', rfl⟩ := hread.root left (by rw [hbits.1])
    have hend := hread.ahead
    rw [hread.exhausted rfl] at hend
    cases (countBytes data).totalBytesCount.toNat with
    | zero => exact ⟨[], rfl, nil_prefix⟩
    | succ n =>
      obtain ⟨s2, hbyte, -⟩ := decodeByte_ahead (.branch l' r') hend
      rw [decodeLoop, hbyte]
      exact ⟨[], rfl, nil_prefix⟩
  | false =>
    rw [hread.complete rfl, append_assoc] at hbits
    obtain ⟨rfl, hrest⟩ := CodeTree.serialize_append_inj lowFirst_append_inj hbits
    exact h.encoded.decodeLoop_cut hrest hread.ahead (totalBytesCount_le data)

end Cut

/-- A cut archive is decompressed to a prefix of the input exactly if the cut is behind the length
    and the input has two different bytes, or the input begins with as many bytes 255 as the length
    that is read says. -/
theorem decompress_truncated_iff (qsort : Qsort) (hqsort : ∀ cmp nodes, (qsort cmp nodes).Perm nodes)
    (fresh : List Char) (hfresh : fresh.length = codeCapacity) (data archive : List UInt8)
    (hcompress : compress qsort fresh data = some archive) (a : List UInt8) (hinitial : a <+: archive)
    (hproper : a ≠ archive) :
    (∃ out, decompress a = some out ∧ out <+: data) ↔
      (4 < a.length ∧ ∃ x ∈ data, ∃ y ∈ data, x ≠ y) ∨ List.replicate (headerTotal a) 255 <+: data := by
  obtain ⟨t, bits, padding, harchive, hnodup, hleaves⟩ := compress_archiveBits hqsort hfresh hcompress
  have hlost : decompress a = some (List.replicate (headerTotal a) 255) →
      ((∃ out, decompress a = some out ∧ out <+: data) ↔ List.replicate (headerTotal a) 255 <+: data) := by
    intro hrun
    rw [hrun]
    simp
  by_cases hlong : 4 < a.length
  · cases t with
    | leaf v =>
      obtain ⟨rfl, hconstant⟩ := harchive.encoded.eq_of_leaf
      obtain ⟨left, more, hleft, hmore, hbits, hahead, -⟩ := harchive.cut_after_header hinitial hproper hlong
      obtain ⟨bit, rest, rfl⟩ := exists_cons_of_ne_nil hleft
      rw [CodeTree.serialize, append_nil, cons_append, cons.injEq] at hbits
      obtain ⟨rfl, hvalue⟩ := hbits
      -- at least one bit of the value is lost
      have hshort : rest.length < 8 := by
        have hlength := congrArg List.length hvalue
        have hpos := length_pos_of_ne_nil hmore
        rw [length_append, show (lowFirst v).length = 8 from rfl] at hlength
        omega
      rw [hlost (decompress_of_lost hahead (.inr ⟨rest, rfl, hshort⟩))]
      refine (or_iff_right ?_).symm
      rintro ⟨-, x, hx, y, hy, hne⟩
      exact hne ((hconstant x hx).trans (hconstant y hy).symm)
    | branch l r =>
      refine iff_of_true (harchive.decompress_branch hinitial hproper hlong) (.inl ⟨hlong, ?_⟩)
      have hexists : ∀ t : CodeTree UInt8, ∃ x, x ∈ t.leaves := fun t =>
        exists_mem_of_length_pos (Nat.zero_lt_of_lt t.height_lt_length_leaves)
      obtain ⟨x, hx⟩ := hexists l
      obtain ⟨y, hy⟩ := hexists r
      refine ⟨x, hleaves x (mem_append_left _ hx), y, hleaves y (mem_append_right _ hy), ?_⟩
      exact (nodup_append.mp hnodup).2.2 x hx y hy
  · have hbits := ahead_openBitStream a
    have hrun := decompress_of_lost (readByteArray_short 4 hbits (by rw [length_bitsOfBytes]; omega))
      (.inl rfl)
    rw [hlost hrun]
    simp [hlong]

theorem compress_abab :
    compress (fun _ nodes => nodes) (List.replicate codeCapacity 'x') [97, 98, 97, 98] =
      some [32, 0, 0, 0, 81, 176, 212] := by
  generalize hcounts : countBytes [97, 98, 97, 98] = counts
  have hleaves : prepareLeafNodesQueue (fun _ nodes => nodes) counts.freqTable counts.uniqueBytesCount =
      some [⟨createTreeNode 97, 2⟩, ⟨createTreeNode 98, 2⟩] := by
    rw [← hcounts]
    decide +kernel
  have hstep : mergeStep [⟨createTreeNode 97, 2⟩, ⟨createTreeNode 98, 2⟩] [] =
      some ([], [⟨.node (createTreeNode 98) (createTreeNode 97) 0, 4⟩]) := by
    decide +kernel
  have hloop : mergeLoop [⟨createTreeNode 97, 2⟩, ⟨createTreeNode 98, 2⟩] [] =
      some [⟨.node (createTreeNode 98) (createTreeNode 97) 0, 4⟩] := by
    rw [mergeLoop, if_pos (by decide)]
    split
    case h_1 hnone =>
      rw [hstep] at hnone
      cases hnone
    case h_2 hsome =>
      rw [hstep] at hsome
      cases hsome
      rw [mergeLoop]
      rfl
  have hbuild : buildHuffmanTree (fun _ nodes => nodes) counts.freqTable counts.uniqueBytesCount =
      some (.node (createTreeNode 98) (createTreeNode 97) 0) := by
    rw [buildHuffmanTree, if_neg (by rw [← hcounts]; decide +kernel), hleaves]
    simp [hloop]
  simp only [compress, hcounts, hbuild]
  rw [← hcounts]
  decide +kernel

/-- The archive of `"abab"` without its last byte. -/
theorem decompress_truncated_abab :
    ∃ out, decompress [32, 0, 0, 0, 81, 176] = some out ∧ out <+: [97, 98, 97, 98] :=
  (decompress_truncated_iff (fun _ nodes => nodes) (fun _ _ => List.Perm.refl _)
    (List.replicate codeCapacity 'x')
    length_replicate [97, 98, 97, 98] [32, 0, 0, 0, 81, 176, 212] compress_abab [32, 0, 0, 0, 81, 176]
    (by decide) (by decide)).2 (.inl ⟨by decide, 97, by decide, 98, by decide, by decide⟩)

/-- The archive of `"a"` without its last byte is decompressed to the byte 255. -/
theorem decompress_truncated_single :
    compress (fun _ nodes => nodes) (List.replicate codeCapacity 'x') [97] = some [128, 0, 0, 0, 195, 0] ∧
      decompress [128, 0, 0, 0, 195] = some [255] ∧
      ¬ ∃ out, decompress [128, 0, 0, 0, 195] = some out ∧ out <+: [97] := by
  have hrun : decompress [128, 0, 0, 0, 195] = some [255] := by decide +kernel
  refine ⟨by decide +kernel, hrun, ?_⟩
  rw [hrun]
  rintro ⟨out, hout, hinitial⟩
  cases hout
  exact absurd hinitial (by decide)

end NsuLabs.Huffman
