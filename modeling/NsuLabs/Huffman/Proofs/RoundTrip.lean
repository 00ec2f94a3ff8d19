/-
Module: NsuLabs.Huffman.Proofs.RoundTrip
Purpose: The two-queue construction of `BuildHuffmanTree`; `Decompress` undoes `Compress`. `BuildHuffmanTree`
  makes an optimal prefix code, if `qsort` sorts.
Trusted boundary: none
Main exports: decompress_compress, buildHuffmanTree_optimal
-/
import NsuLabs.Huffman.Archiver

namespace NsuLabs.Huffman

open Lib List

section

variable {leaves composites : TreeQueue} {freqTable : FreqTable}

/-! ### Taking the minimum -/

/-- A queue element with its tree taken apart. -/
def sortNode (element : CodeTree UInt8 × UInt64) : HSortNode where
  treeNode := ofCodeTree element.1
  frequency := element.2

abbrev TreeQueue := List (CodeTree UInt8 × UInt64)

def Ascending (queue : TreeQueue) : Prop := queue.Pairwise fun a b => a.2.toNat ≤ b.2.toNat

theorem Ascending.le {queue : TreeQueue} {first : CodeTree UInt8 × UInt64}
    (h : Ascending (first :: queue)) {n : Nat}
    (hn : n ≤ first.2.toNat) : ∀ e ∈ first :: queue, n ≤ e.2.toNat :=
  forall_mem_cons.mpr ⟨hn, fun e he => hn.trans ((pairwise_cons.mp h).1 e he)⟩

/-- What `PopMinimum` takes, and what it leaves. -/
structure Pops (leaves composites : TreeQueue) (minimum : CodeTree UInt8 × UInt64)
    (leaves' composites' : TreeQueue) : Prop where
  perm : (minimum :: (leaves' ++ composites')).Perm (leaves ++ composites)
  leaves_sublist : leaves'.Sublist leaves
  composites_sublist : composites'.Sublist composites
  least : Ascending leaves → Ascending composites → ∀ e ∈ leaves' ++ composites', minimum.2.toNat ≤ e.2.toNat

theorem popMinimum_pops (h : 1 ≤ leaves.length + composites.length) :
    ∃ (minimum : CodeTree UInt8 × UInt64) (leaves' composites' : TreeQueue),
      popMinimum (leaves.map sortNode) (composites.map sortNode) =
        some (sortNode minimum, leaves'.map sortNode, composites'.map sortNode) ∧
      Pops leaves composites minimum leaves' composites' := by
  rcases leaves with _ | ⟨leaf, leaves⟩ <;> rcases composites with _ | ⟨composite, composites⟩
  · simp at h
  · refine ⟨composite, [], composites, rfl, List.Perm.refl _, Sublist.refl _, sublist_cons_self _ _, ?_⟩
    exact fun _ hcomposites => (pairwise_cons.mp hcomposites).1
  · refine ⟨leaf, leaves, [], rfl, List.Perm.refl _, sublist_cons_self _ _, Sublist.refl _, ?_⟩
    intro hleaves _
    rw [append_nil]
    exact (pairwise_cons.mp hleaves).1
  · by_cases hlt : leaf.2 < composite.2
    · refine ⟨leaf, leaves, composite :: composites, ?_, List.Perm.refl _, sublist_cons_self _ _,
        Sublist.refl _, ?_⟩
      · rw [map_cons, map_cons, popMinimum]
        exact if_pos hlt
      · intro hleaves hcomposites
        have hle : leaf.2.toNat ≤ composite.2.toNat := (UInt64.lt_iff_toNat_lt.mp hlt).le
        exact forall_mem_append.mpr ⟨(pairwise_cons.mp hleaves).1, hcomposites.le hle⟩
    · refine ⟨composite, leaf :: leaves, composites, ?_, perm_middle.symm, Sublist.refl _,
        sublist_cons_self _ _, ?_⟩
      · rw [map_cons, map_cons, popMinimum]
        exact if_neg hlt
      · intro hleaves hcomposites
        have hle : composite.2.toNat ≤ leaf.2.toNat := Nat.le_of_not_gt (mt UInt64.lt_iff_toNat_lt.mpr hlt)
        exact forall_mem_append.mpr ⟨hleaves.le hle, (pairwise_cons.mp hcomposites).1⟩

/-! ### Joining two trees -/

/-- The element that stands for two. -/
def join (m1 m2 : CodeTree UInt8 × UInt64) : CodeTree UInt8 × UInt64 := (.branch m2.1 m1.1, m1.2 + m2.2)

/-- A pass of the loop takes two elements, first `m1`. -/
structure Merges (leaves composites : TreeQueue) (m1 m2 : CodeTree UInt8 × UInt64)
    (leaves' composites' : TreeQueue) : Prop where
  perm : (m1 :: m2 :: (leaves' ++ composites')).Perm (leaves ++ composites)
  leaves_sublist : leaves'.Sublist leaves
  composites_sublist : composites'.Sublist composites
  least : Ascending leaves → Ascending composites →
    m1.2.toNat ≤ m2.2.toNat ∧ ∀ e ∈ leaves' ++ composites', m2.2.toNat ≤ e.2.toNat

theorem Pops.merges {leaves₁ composites₁ leaves₂ composites₂ : TreeQueue} {m1 m2 : CodeTree UInt8 × UInt64}
    (h₁ : Pops leaves composites m1 leaves₁ composites₁)
    (h₂ : Pops leaves₁ composites₁ m2 leaves₂ composites₂) :
    Merges leaves composites m1 m2 leaves₂ composites₂ where
  perm := (h₂.perm.cons m1).trans h₁.perm
  leaves_sublist := h₂.leaves_sublist.trans h₁.leaves_sublist
  composites_sublist := h₂.composites_sublist.trans h₁.composites_sublist
  least := by
    intro hleaves hcomposites
    have hfirst := h₁.least hleaves hcomposites
    refine ⟨hfirst m2 (h₂.perm.subset mem_cons_self), ?_⟩
    exact h₂.least (hleaves.sublist h₁.leaves_sublist) (hcomposites.sublist h₁.composites_sublist)

theorem mergeStep_merges (h : 2 ≤ leaves.length + composites.length) :
    ∃ (m1 m2 : CodeTree UInt8 × UInt64) (leaves' composites' : TreeQueue),
      mergeStep (leaves.map sortNode) (composites.map sortNode) =
        some (leaves'.map sortNode, (composites' ++ [join m1 m2]).map sortNode) ∧
      Merges leaves composites m1 m2 leaves' composites' := by
  obtain ⟨m1, leaves₁, composites₁, hpop₁, h₁⟩ := @popMinimum_pops leaves composites (by omega)
  have hlength := h₁.perm.length_eq
  rw [length_cons, length_append, length_append] at hlength
  obtain ⟨m2, leaves₂, composites₂, hpop₂, h₂⟩ := @popMinimum_pops leaves₁ composites₁ (by omega)
  refine ⟨m1, m2, leaves₂, composites₂, ?_, h₁.merges h₂⟩
  rw [mergeStep, hpop₁]
  change (popMinimum (leaves₁.map sortNode) (composites₁.map sortNode) >>= _) = _
  rw [hpop₂, map_append]
  rfl

/-- What every pass keeps holds of the last element. -/
theorem mergeLoop_rule {inv : TreeQueue → TreeQueue → Prop}
    (hstep : ∀ leaves composites m1 m2 leaves' composites', inv leaves composites →
      Merges leaves composites m1 m2 leaves' composites' → inv leaves' (composites' ++ [join m1 m2]))
    (hinv : inv leaves composites) (h : 2 ≤ leaves.length + composites.length ∨
      leaves = [] ∧ composites.length = 1) :
    ∃ root, mergeLoop (leaves.map sortNode) (composites.map sortNode) = some [sortNode root] ∧
      inv [] [root] := by
  induction hn : leaves.length + composites.length using Nat.strong_induction_on
    generalizing leaves composites with
  | _ n ih =>
    rw [mergeLoop]
    rcases h with h | ⟨rfl, hone⟩
    · obtain ⟨m1, m2, leaves', composites', hmerge, hmerges⟩ := mergeStep_merges h
      have hlength := hmerges.perm.length_eq
      rw [length_cons, length_cons, length_append, length_append] at hlength
      have hnew : (composites' ++ [join m1 m2]).length = composites'.length + 1 := length_append
      have hnext : 2 ≤ leaves'.length + (composites' ++ [join m1 m2]).length ∨
          leaves' = [] ∧ (composites' ++ [join m1 m2]).length = 1 := by
        by_cases htwo : 2 ≤ leaves'.length + (composites' ++ [join m1 m2]).length
        · exact .inl htwo
        · exact .inr ⟨length_eq_zero_iff.mp (by omega), by omega⟩
      obtain ⟨root, hloop, hroot⟩ := ih _ (by omega) (hstep _ _ _ _ _ _ hinv hmerges) hnext rfl
      refine ⟨root, ?_, hroot⟩
      rw [if_pos (by rw [length_map, length_map]; omega)]
      split
      case h_1 hnone =>
        rw [hmerge] at hnone
        cases hnone
      case h_2 hsome =>
        rw [hmerge] at hsome
        cases hsome
        exact hloop
    · obtain ⟨root, rfl⟩ := length_eq_one_iff.mp hone
      exact ⟨root, if_neg (by simp), hinv⟩

/-! ### The leaves -/

def allBytes : List UInt8 := (List.range 256).map UInt8.ofNat

theorem nodup_allBytes : allBytes.Nodup := by
  apply Nodup.map_on
  · intro i hi j hj hij
    have hmod := congrArg UInt8.toNat hij
    rw [UInt8.toNat_ofNat_of_lt' (mem_range.mp hi), UInt8.toNat_ofNat_of_lt' (mem_range.mp hj)] at hmod
    exact hmod
  · exact nodup_range

theorem mem_allBytes (byte : UInt8) : byte ∈ allBytes :=
  List.mem_map.mpr ⟨byte.toNat, mem_range.mpr byte.toNat_lt, UInt8.ofNat_toNat⟩

/-- The bytes that get a leaf. -/
def usedBytes (freqTable : FreqTable) : List UInt8 := allBytes.filter fun byte => freqTable byte ≠ 0

theorem nodup_usedBytes (freqTable : FreqTable) : (usedBytes freqTable).Nodup := nodup_allBytes.filter _

theorem mem_usedBytes {byte : UInt8} : byte ∈ usedBytes freqTable ↔ freqTable byte ≠ 0 := by
  rw [usedBytes, mem_filter, decide_eq_true_eq]
  exact and_iff_right (mem_allBytes byte)

/-- Their leaves, in the order of the bytes. -/
def leafQueue (freqTable : FreqTable) : TreeQueue :=
  (usedBytes freqTable).map fun byte => (CodeTree.leaf byte, (freqTable byte).toUInt64)

theorem leafNodes_eq (freqTable : FreqTable) : leafNodes freqTable = (leafQueue freqTable).map sortNode := by
  rw [leafNodes, leafQueue, usedBytes, allBytes, List.map_map, List.filter_map, List.map_map]
  induction List.range 256 with
  | nil => rfl
  | cons i rest ih =>
    by_cases hzero : freqTable (UInt8.ofNat i) = 0
    · rw [filterMap_cons_none (by simp [hzero]), filter_cons_of_neg (by simp [hzero])]
      exact ih
    · rw [filterMap_cons_some (by simp [hzero]; rfl), filter_cons_of_pos (by simp [hzero]),
        map_cons, ih]
      rfl

/-- What the sorted leaves have and every pass keeps holds of the tree. -/
theorem buildHuffmanTree_rule (inv : TreeQueue → TreeQueue → Prop) {qsort : Qsort}
    (hqsort : ∀ cmp nodes, (qsort cmp nodes).Perm nodes)
    (hstep : ∀ leaves composites m1 m2 leaves' composites', inv leaves composites →
      Merges leaves composites m1 m2 leaves' composites' → inv leaves' (composites' ++ [join m1 m2]))
    {uniqueBytesCount : UInt16} (hcount : (usedBytes freqTable).length = uniqueBytesCount.toNat)
    (hpos : uniqueBytesCount ≠ 0) (hstart : ∀ queue : TreeQueue, queue.Perm (leafQueue freqTable) →
      queue.map sortNode = qsort hSortNodeCompare (leafNodes freqTable) → inv queue []) :
    ∃ root, buildHuffmanTree qsort freqTable uniqueBytesCount = some (ofCodeTree root.1) ∧
      (inv [] [root] ∨ inv [root] []) := by
  -- the sorted array is a rearrangement of the leaves
  obtain ⟨queue, hsorted, hqueue⟩ : ∃ queue : TreeQueue,
      qsort hSortNodeCompare (leafNodes freqTable) = queue.map sortNode ∧
        queue.Perm (leafQueue freqTable) := by
    have hperm := hqsort hSortNodeCompare (leafNodes freqTable)
    rw [leafNodes_eq] at hperm ⊢
    exact (congrFun₂ (eq_map_comp_perm sortNode) _ _).mpr hperm
  have hlength : queue.length = uniqueBytesCount.toNat := by
    rw [hqueue.length_eq, leafQueue, length_map, hcount]
  have hprepare : prepareLeafNodesQueue qsort freqTable uniqueBytesCount = some (queue.map sortNode) := by
    rw [prepareLeafNodesQueue, if_pos, hsorted]
    rw [leafNodes_eq, length_map, leafQueue, length_map, hcount]
  have hinv := hstart queue hqueue hsorted.symm
  rw [buildHuffmanTree, if_neg hpos, hprepare, Option.bind_eq_bind, Option.bind_some]
  rcases queue with _ | ⟨first, _ | ⟨second, rest⟩⟩
  · rw [length_nil] at hlength
    exact absurd (UInt16.toNat_inj.mp hlength.symm) hpos
  · exact ⟨first, rfl, .inr hinv⟩
  · obtain ⟨root, hloop, hroot⟩ := mergeLoop_rule hstep hinv (.inl (by simp only [length_cons]; omega))
    refine ⟨root, ?_, .inl hroot⟩
    change (mergeLoop ((first :: second :: rest).map sortNode) ([].map sortNode) >>= _) = _
    rw [hloop]
    rfl

end

variable {counts : ByteCounts} {data : List UInt8} {qsort : Qsort} {t : CodeTree UInt8}

/-! ### The first pass -/

/-- The counters after a part of the input that is too short for them to wrap around. -/
structure Counted (counts : ByteCounts) (data : List UInt8) : Prop where
  freqTable : ∀ byte, (counts.freqTable byte).toNat = data.count byte
  uniqueBytesCount : counts.uniqueBytesCount.toNat = data.toFinset.card
  totalBytesCount : counts.totalBytesCount.toNat = data.length

theorem card_bytes_le (s : Finset UInt8) : s.card ≤ 256 := by
  have hcard := s.card_le_univ
  rwa [← FinEnum.card_eq_fintypeCard, FinEnum.card_UInt8] at hcard

theorem Counted.countByte (h : Counted counts data) (byte : UInt8) (hlength : data.length + 1 < 2 ^ 32) :
    Counted (countByte counts byte) (data ++ [byte]) where
  freqTable := by
    intro b
    rw [Huffman.countByte, count_append]
    dsimp only
    by_cases hb : b = byte
    · subst hb
      have hcount : data.count b ≤ data.length := count_le_length
      rw [Function.update_self, UInt32.toNat_add, h.freqTable, count_singleton_self]
      exact Nat.mod_eq_of_lt (by rw [UInt32.toNat_one]; omega)
    · rw [Function.update_of_ne hb, h.freqTable, count_singleton]
      simp [Ne.symm hb]
  uniqueBytesCount := by
    have hzero : counts.freqTable byte = 0 ↔ byte ∉ data := by
      rw [← UInt32.toNat_inj, h.freqTable, UInt32.toNat_zero, count_eq_zero]
    have hset : (data ++ [byte]).toFinset = insert byte data.toFinset := by
      ext b
      simp
    rw [Huffman.countByte, hset]
    dsimp only
    by_cases hmem : byte ∈ data
    · rw [if_neg (mt hzero.mp (not_not.mpr hmem)), h.uniqueBytesCount,
        Finset.insert_eq_of_mem (List.mem_toFinset.mpr hmem)]
    · have hcard := card_bytes_le data.toFinset
      rw [if_pos (hzero.mpr hmem), UInt16.toNat_add, h.uniqueBytesCount,
        Finset.card_insert_of_notMem (mt List.mem_toFinset.mp hmem)]
      exact Nat.mod_eq_of_lt (by rw [UInt16.toNat_one]; omega)
  totalBytesCount := by
    rw [Huffman.countByte, length_append, length_singleton]
    dsimp only
    rw [UInt32.toNat_add, h.totalBytesCount]
    exact Nat.mod_eq_of_lt (by rw [UInt32.toNat_one]; omega)

theorem countBytes_spec (hlength : data.length < 2 ^ 32) : Counted (countBytes data) data := by
  induction data using List.reverseRecOn with
  | nil => exact ⟨fun _ => rfl, rfl, rfl⟩
  | append_singleton data byte ih =>
    rw [length_append, length_singleton] at hlength
    rw [countBytes, foldl_append]
    exact (ih (by omega)).countByte byte hlength

/-! ### The tree -/

def queueLeaves (queue : TreeQueue) : List UInt8 := queue.flatMap fun element => element.1.leaves

theorem queueLeaves_perm {queue queue' : TreeQueue} (h : queue.Perm queue') :
    (queueLeaves queue).Perm (queueLeaves queue') :=
  h.flatMap_right _

/-- The new tree has the leaves of the two trees that were taken out. -/
theorem Merges.queueLeaves_perm {leaves composites leaves' composites' : TreeQueue}
    {m1 m2 : CodeTree UInt8 × UInt64} (h : Merges leaves composites m1 m2 leaves' composites') :
    (queueLeaves (leaves' ++ (composites' ++ [join m1 m2]))).Perm (queueLeaves (leaves ++ composites)) := by
  refine List.Perm.trans ?_ (Huffman.queueLeaves_perm h.perm)
  rw [← append_assoc]
  apply (Huffman.queueLeaves_perm (perm_append_singleton _ _)).trans
  simp only [queueLeaves, flatMap_cons, join, CodeTree.leaves]
  rw [← append_assoc]
  exact perm_append_comm.append_right _

theorem queueLeaves_leafQueue (freqTable : FreqTable) :
    queueLeaves (leafQueue freqTable) = usedBytes freqTable := by
  rw [queueLeaves, leafQueue, flatMap_map]
  simp [CodeTree.leaves]

/-- The tree has every used byte as a leaf once. -/
theorem buildHuffmanTree_leaves (hqsort : ∀ cmp nodes, (qsort cmp nodes).Perm nodes) {freqTable : FreqTable}
    {uniqueBytesCount : UInt16} (hcard : (usedBytes freqTable).length = uniqueBytesCount.toNat)
    (hpos : uniqueBytesCount ≠ 0) :
    ∃ t : CodeTree UInt8, buildHuffmanTree qsort freqTable uniqueBytesCount = some (ofCodeTree t) ∧
      t.leaves.Perm (usedBytes freqTable) := by
  obtain ⟨root, hbuild, hroot⟩ := buildHuffmanTree_rule
    (fun leaves composites => (queueLeaves (leaves ++ composites)).Perm (usedBytes freqTable)) hqsort
    (fun _ _ _ _ _ _ hinv hmerges => hmerges.queueLeaves_perm.trans hinv) hcard hpos
      (fun queue hqueue _ => by
      rw [append_nil, ← queueLeaves_leafQueue]
      exact queueLeaves_perm hqueue)
  refine ⟨root.1, hbuild, ?_⟩
  rcases hroot with hroot | hroot <;> simpa [queueLeaves] using hroot

/-- The tree has every byte of the input as a leaf once. -/
theorem buildHuffmanTree_spec (hqsort : ∀ cmp nodes, (qsort cmp nodes).Perm nodes)
    (hcounted : Counted counts data) (hne : data ≠ []) :
    ∃ t : CodeTree UInt8,
      buildHuffmanTree qsort counts.freqTable counts.uniqueBytesCount = some (ofCodeTree t) ∧
      t.leaves.Nodup ∧ ∀ byte ∈ data, byte ∈ t.leaves := by
  have hmem : ∀ byte, byte ∈ usedBytes counts.freqTable ↔ byte ∈ data := by
    intro byte
    rw [mem_usedBytes, ne_eq, ← UInt32.toNat_inj, hcounted.freqTable, UInt32.toNat_zero,
      count_eq_zero, not_not]
  have hnodup := nodup_usedBytes counts.freqTable
  have hcard : (usedBytes counts.freqTable).length = counts.uniqueBytesCount.toNat := by
    rw [hcounted.uniqueBytesCount, ← toFinset_card_of_nodup hnodup]
    congr 1
    ext byte
    rw [List.mem_toFinset, List.mem_toFinset, hmem]
  have hpos : counts.uniqueBytesCount ≠ 0 := by
    intro hzero
    have hnil : usedBytes counts.freqTable = [] := by
      rw [← length_eq_zero_iff, hcard, hzero]
      rfl
    obtain ⟨byte, rest, rfl⟩ := exists_cons_of_ne_nil hne
    have := (hmem byte).mpr mem_cons_self
    rw [hnil] at this
    cases this
  obtain ⟨t, hbuild, hall⟩ := buildHuffmanTree_leaves hqsort hcard hpos
  exact ⟨t, hbuild, hall.nodup_iff.mpr hnodup, fun byte hbyte => hall.mem_iff.mpr ((hmem byte).mpr hbyte)⟩

/-! ### The length in front of the archive -/

theorem or_shiftLeft_shiftRight (value : UInt32) : value.toUInt8.toUInt32 ||| value >>> 8 <<< 8 = value := by
  have hvalue := value.toNat_lt
  have hshift : (value >>> 8).toNat = value.toNat / 2 ^ 8 := by
    rw [UInt32.toNat_shiftRight, ← Nat.shiftRight_eq_div_pow]
    rfl
  have hback : (value >>> 8 <<< 8).toNat = (value.toNat / 2 ^ 8) <<< 8 := by
    rw [UInt32.toNat_shiftLeft, hshift]
    apply Nat.mod_eq_of_lt
    change _ <<< 8 < _
    rw [Nat.shiftLeft_eq]
    omega
  apply UInt32.toNat_inj.mp
  rw [UInt32.toNat_or, hback, UInt8.toNat_toUInt32, UInt32.toNat_toUInt8, Nat.or_comm,
    ← Nat.shiftLeft_add_eq_or_of_lt (Nat.mod_lt _ (by decide)), Nat.shiftLeft_eq]
  omega

theorem uint32OfBytes_bytesOfUint32 (value : UInt32) : uint32OfBytes (bytesOfUint32 value) = value := by
  have hshift (k : UInt32) : (value >>> k >>> 8).toNat = value.toNat >>> (k.toNat % 32 + 8) := by
    rw [UInt32.toNat_shiftRight, UInt32.toNat_shiftRight, Nat.shiftRight_add]
    rfl
  have h24 : value >>> 24 >>> 8 = 0 := by
    apply UInt32.toNat_inj.mp
    rw [hshift, Nat.shiftRight_eq_div_pow]
    exact Nat.div_eq_of_lt value.toNat_lt
  have h16 : value >>> 16 >>> 8 = value >>> 24 := UInt32.toNat_inj.mp (hshift 16)
  have h8 : value >>> 8 >>> 8 = value >>> 16 := UInt32.toNat_inj.mp (hshift 8)
  change value.toUInt8.toUInt32 ||| ((value >>> 8).toUInt8.toUInt32 ||| ((value >>> 16).toUInt8.toUInt32 |||
    ((value >>> 24).toUInt8.toUInt32 ||| (0 : UInt32) <<< 8) <<< 8) <<< 8) <<< 8 = value
  rw [← h24, or_shiftLeft_shiftRight, ← h16, or_shiftLeft_shiftRight, ← h8, or_shiftLeft_shiftRight,
    or_shiftLeft_shiftRight]

/-! ### The whole archive -/

/-- The codes of the bytes of the input, one after the other. -/
inductive Encoded (t : CodeTree UInt8) : List UInt8 → List Bool → Prop where
  | nil : Encoded t [] []
  | cons {byte : UInt8} {code : List Bool} {data : List UInt8} {bits : List Bool}
      (leaf : (byte, code) ∈ t.codes)
      (rest : Encoded t data bits) : Encoded t (byte :: data) (code ++ bits)

theorem exists_encoded {table : CodeTable}
    (htable : ∀ value code, (value, code) ∈ t.codes → table value = some (codeText code))
    (hdata : ∀ byte ∈ data, byte ∈ t.leaves) :
    ∃ bits : List Bool, Encoded t data bits ∧ ∀ s, data.foldlM (emitCode table) s =
      some (writeBits s bits) := by
  induction data with
  | nil => exact ⟨[], Encoded.nil, fun s => rfl⟩
  | cons byte data ih =>
    obtain ⟨bits, hencoded, hemit⟩ := ih fun b hb => hdata b (mem_cons_of_mem _ hb)
    have hleaf := hdata byte mem_cons_self
    rw [← t.map_fst_codes] at hleaf
    obtain ⟨⟨_, code⟩, hcode, rfl⟩ := List.mem_map.mp hleaf
    refine ⟨code ++ bits, hencoded.cons hcode, ?_⟩
    intro s
    rw [foldlM_cons, emitCode_eq_writeBits (htable _ code hcode), Option.bind_eq_bind, Option.bind_some,
      hemit, writeBits_append]

theorem Encoded.decodeLoop {bits : List Bool} (h : Encoded t data bits) {s : BitStream} {rest : List Bool}
    (hahead : Ahead s (bits ++ rest)) :
    decodeLoop (ofCodeTree t) data.length s = some data := by
  induction h generalizing s with
  | nil => rfl
  | @cons byte code data bits hcode _ ih =>
    rw [append_assoc] at hahead
    obtain ⟨s', hbyte, h'⟩ := decodeByte_ahead t hahead
    rw [CodeTree.decode_append hcode] at hbyte h'
    rw [length_cons, Huffman.decodeLoop, hbyte]
    change (Huffman.decodeLoop (ofCodeTree t) data.length s' >>= _) = _
    rw [ih (h' _ rfl)]
    rfl

theorem length_bitsOfBytes (bytes : List UInt8) : (bitsOfBytes bytes).length = 8 * bytes.length := by
  induction bytes with
  | nil => rfl
  | cons byte bytes ih =>
    rw [bitsOfBytes, flatMap_cons, length_append, length_highFirst, ← bitsOfBytes, ih, length_cons]
    omega

theorem height_lt_length_serialize (t : CodeTree UInt8) : t.height < (t.serialize lowFirst).length := by
  induction t with
  | leaf value => exact Nat.zero_lt_succ _
  | branch left right ihl ihr =>
    rw [CodeTree.height, CodeTree.serialize, length_cons, length_append]
    omega

theorem height_lt_codeCapacity (hnodup : t.leaves.Nodup) : t.height < codeCapacity := by
  have hcard := card_bytes_le t.leaves.toFinset
  rw [toFinset_card_of_nodup hnodup] at hcard
  exact Nat.lt_of_lt_of_le t.height_lt_length_leaves hcard

/-- The parts of an archive, as one list of bits. -/
structure ArchiveBits (data archive : List UInt8) (t : CodeTree UInt8) (bits padding : List Bool) :
    Prop where
  encoded : Encoded t data bits
  eq : bitsOfBytes archive = (bytesOfUint32 (countBytes data).totalBytesCount).flatMap lowFirst ++
    (t.serialize lowFirst ++ (bits ++ padding))
  padding : padding.length < 8

theorem compress_of_tree {fresh : List Char} (hfresh : fresh.length = codeCapacity)
    (hbuild : buildHuffmanTree qsort (countBytes data).freqTable (countBytes data).uniqueBytesCount =
      some (ofCodeTree t))
    (hnodup : t.leaves.Nodup) (hleaves : ∀ byte ∈ data, byte ∈ t.leaves) :
    ∃ archive bits padding, compress qsort fresh data = some archive ∧
      ArchiveBits data archive t bits padding := by
  obtain ⟨table, hmake, htable, -⟩ := makeCodeTable_ofCodeTree hfresh hnodup (height_lt_codeCapacity hnodup)
  obtain ⟨bits, hencoded, hemit⟩ := exists_encoded htable hleaves
  generalize hheader : (bytesOfUint32 (countBytes data).totalBytesCount).flatMap lowFirst = header
  have hspec := writeBits_spec (writable_openBitStream []) (header ++ t.serialize lowFirst ++ bits)
  obtain ⟨padding, hclose, hpadding⟩ := bitsOfBytes_closeBitStream
    (writeBits (openBitStream []) (header ++ t.serialize lowFirst ++ bits))
  have hopen : (openBitStream []).bitsWritten = [] := rfl
  rw [hspec.2, hopen, nil_append] at hclose
  refine ⟨closeBitStream (writeBits (openBitStream []) (header ++ t.serialize lowFirst ++ bits)),
    bits, padding, ?_, hencoded, ?_, hpadding⟩
  · rw [compress, writeByteArray_eq_writeBits, hheader, hbuild]
    change (serializeHuffmanTree _ (ofCodeTree t) >>= _) = _
    rw [serializeHuffmanTree_ofCodeTree]
    change (makeCodeTable fresh (ofCodeTree t) >>= _) = _
    rw [hmake]
    change (data.foldlM (emitCode table) _ >>= _) = _
    rw [hemit, ← writeBits_append, ← writeBits_append, append_assoc]
    rfl
  · rw [hclose, hheader, append_assoc, append_assoc]

/-- `Decompress` writes the bytes that `Compress` has read. -/
theorem decompress_compress (qsort : Qsort) (hqsort : ∀ cmp nodes, (qsort cmp nodes).Perm nodes)
    (fresh : List Char) (hfresh : fresh.length = codeCapacity) (data : List UInt8) (hne : data ≠ [])
    (hlength : data.length < 2 ^ 32) :
    ∃ archive, compress qsort fresh data = some archive ∧ decompress archive = some data := by
  have hcounted := countBytes_spec hlength
  obtain ⟨t, hbuild, hnodup, hleaves⟩ := buildHuffmanTree_spec hqsort hcounted hne
  obtain ⟨archive, bits, padding, hcompress, harchive⟩ := compress_of_tree hfresh hbuild hnodup hleaves
  refine ⟨archive, hcompress, ?_⟩
  have hahead := ahead_openBitStream archive
  have hfuel : t.height < 8 * archive.length + 1 := by
    have hbits := congrArg List.length harchive.eq
    have hserialize := height_lt_length_serialize t
    rw [length_bitsOfBytes, length_append, length_append] at hbits
    omega
  rw [harchive.eq] at hahead
  obtain ⟨s1, hread1, h1⟩ := readByteArray_ahead _ hahead
  obtain ⟨s2, hread2, h2⟩ := deserializeHuffmanTree_ahead t hfuel h1
  rw [show (bytesOfUint32 (countBytes data).totalBytesCount).length = 4 from rfl] at hread1
  rw [decompress, hread1]
  dsimp only
  rw [hread2]
  change decodeLoop (ofCodeTree t) (uint32OfBytes (bytesOfUint32 _)).toNat s2 = _
  rw [uint32OfBytes_bytesOfUint32, hcounted.totalBytesCount]
  exact harchive.encoded.decodeLoop h2

/-- A sorting function. -/
def sortByFrequency : Qsort :=
  fun _ nodes => nodes.insertionSort fun a b => a.frequency.toNat ≤ b.frequency.toNat

theorem decompress_compress_abracadabra :
    ∃ archive, compress sortByFrequency (List.replicate codeCapacity 'x') "abracadabra".toUTF8.data.toList =
        some archive ∧ decompress archive = some "abracadabra".toUTF8.data.toList :=
  decompress_compress _ (fun _ => perm_insertionSort _) _ length_replicate _ (by decide) (by decide)

/-! ### The cost of a tree -/

/-- The leaves with their depths below a node of the given depth. A node may have one child only. -/
def HTree.leafDepths : HTree → Nat → List (UInt8 × Nat)
  | .null, _ => []
  | .node left right value, depth =>
    if (HTree.node left right value).isLeafNode then [(value, depth)]
    else left.leafDepths (depth + 1) ++ right.leafDepths (depth + 1)

def HTree.leafValues (tree : HTree) : List UInt8 := (tree.leafDepths 0).map Prod.fst

/-- The sum of frequency times depth over the leaves. -/
def HTree.cost (freqTable : FreqTable) (tree : HTree) : Nat :=
  ((tree.leafDepths 0).map fun leaf => (freqTable leaf.1).toNat * leaf.2).sum

def frequency (freqTable : FreqTable) (byte : UInt8) : Nat := (freqTable byte).toNat

theorem leafDepths_ofCodeTree (t : CodeTree UInt8) (depth : Nat) :
    (ofCodeTree t).leafDepths depth = t.codes.map fun c => (c.1, c.2.length + depth) := by
  induction t generalizing depth with
  | leaf value =>
    rw [CodeTree.codes, map_singleton, length_nil, Nat.zero_add]
    rfl
  | branch left right ihl ihr =>
    rw [ofCodeTree, HTree.leafDepths, isLeafNode_branch, if_neg Bool.false_ne_true, ihl, ihr, CodeTree.codes,
      map_append, List.map_map, List.map_map]
    have hdeeper (bit : Bool) (c : UInt8 × List Bool) : (c.1, c.2.length + (depth + 1)) =
        ((fun c => (c.1, c.2.length + depth)) ∘ fun c => (c.1, bit :: c.2)) c := by
      simp only [Function.comp_apply, length_cons]
      exact congrArg (Prod.mk c.1) (by omega)
    rw [map_congr_left fun c _ => hdeeper false c, map_congr_left fun c _ => hdeeper true c]

theorem leafValues_ofCodeTree (t : CodeTree UInt8) : (ofCodeTree t).leafValues = t.leaves := by
  rw [HTree.leafValues, leafDepths_ofCodeTree, List.map_map, ← CodeTree.map_fst_codes]
  rfl

theorem cost_ofCodeTree (freqTable : FreqTable) (t : CodeTree UInt8) :
    (ofCodeTree t).cost freqTable = t.cost (frequency freqTable) := by
  rw [HTree.cost, leafDepths_ofCodeTree, List.map_map, ← CodeTree.sum_codes]
  rfl

/-- Nodes with one child can be left out. -/
theorem exists_codeTree (freqTable : FreqTable) (tree : HTree) (depth : Nat)
    (hne : tree.leafDepths depth ≠ []) :
    ∃ t : CodeTree UInt8, t.leaves = (tree.leafDepths depth).map Prod.fst ∧
      t.cost (frequency freqTable) + depth * t.weight (frequency freqTable) ≤
        ((tree.leafDepths depth).map fun leaf => (freqTable leaf.1).toNat * leaf.2).sum := by
  induction tree generalizing depth with
  | null => exact absurd rfl hne
  | node left right value ihl ihr =>
    rw [HTree.leafDepths] at hne ⊢
    split at hne
    case isTrue hleaf =>
      rw [if_pos hleaf]
      refine ⟨.leaf value, rfl, ?_⟩
      simp [CodeTree.cost, CodeTree.weight, CodeTree.leaves, frequency, Nat.mul_comm]
    case isFalse hleaf =>
      rw [if_neg hleaf, map_append, map_append, sum_append]
      by_cases hl : left.leafDepths (depth + 1) = []
      · obtain ⟨t, hleaves, hcost⟩ := ihr (depth + 1) (by rwa [hl, nil_append] at hne)
        rw [Nat.succ_mul] at hcost
        refine ⟨t, by rw [hl, hleaves]; rfl, ?_⟩
        omega
      · obtain ⟨tl, hleavesl, hcostl⟩ := ihl (depth + 1) hl
        rw [Nat.succ_mul] at hcostl
        by_cases hr : right.leafDepths (depth + 1) = []
        · refine ⟨tl, by rw [hr, hleavesl, map_nil, append_nil], ?_⟩
          omega
        · obtain ⟨tr, hleavesr, hcostr⟩ := ihr (depth + 1) hr
          rw [Nat.succ_mul] at hcostr
          refine ⟨.branch tl tr, by rw [CodeTree.leaves, hleavesl, hleavesr], ?_⟩
          rw [CodeTree.cost, CodeTree.weight_branch, Nat.mul_add]
          omega

/-! ### The queues -/

/-- What is known about `qsort`: it rearranges the nodes so that their frequencies ascend. -/
structure SortsByFrequency (qsort : Qsort) : Prop where
  perm : ∀ cmp nodes, (qsort cmp nodes).Perm nodes
  ascending : ∀ nodes, (qsort hSortNodeCompare nodes).Pairwise fun a b =>
    a.frequency.toNat ≤ b.frequency.toNat

def queueTotal (queue : TreeQueue) : Nat := (queue.map fun e => e.2.toNat).sum

/-- The state of the queues between two passes. `recent` holds the frequencies of the last two
    elements that were joined. -/
structure QueueState (freqTable : FreqTable) (leaves composites : TreeQueue) : Prop where
  values : (queueLeaves (leaves ++ composites)).Perm (usedBytes freqTable)
  promising : CodeTree.Promising (frequency freqTable) ((usedBytes freqTable).map (frequency freqTable))
    ((leaves ++ composites).map Prod.fst)
  exact : ∀ e ∈ leaves ++ composites, e.2.toNat = e.1.weight (frequency freqTable)
  total : queueTotal (leaves ++ composites) < 2 ^ 64
  leaves_ascending : Ascending leaves
  composites_ascending : Ascending composites
  recent : ∃ p q, p ≤ q ∧ (∀ e ∈ leaves ++ composites, q ≤ e.2.toNat) ∧ ∀ e ∈ composites, e.2.toNat ≤ p + q

theorem queueTotal_perm {queue queue' : TreeQueue} (h : queue.Perm queue') :
    queueTotal queue = queueTotal queue' :=
  (h.map _).sum_eq

/-- A pass keeps the state. -/
theorem QueueState.merges {freqTable : FreqTable} {leaves composites leaves' composites' : TreeQueue}
    {m1 m2 : CodeTree UInt8 × UInt64} (h : QueueState freqTable leaves composites)
    (hmerges : Merges leaves composites m1 m2 leaves' composites') :
    QueueState freqTable leaves' (composites' ++ [join m1 m2]) := by
  obtain ⟨hle, hleast⟩ := hmerges.least h.leaves_ascending h.composites_ascending
  have hm1 : m1 ∈ leaves ++ composites := hmerges.perm.subset mem_cons_self
  have hm2 : m2 ∈ leaves ++ composites := hmerges.perm.subset (mem_cons_of_mem _ mem_cons_self)
  have hrest : ∀ e ∈ leaves' ++ composites', e ∈ leaves ++ composites := fun e he =>
    hmerges.perm.subset (mem_cons_of_mem _ (mem_cons_of_mem _ he))
  have hmove : (leaves' ++ (composites' ++ [join m1 m2])).Perm (join m1 m2 :: (leaves' ++ composites')) := by
    rw [← append_assoc]
    exact perm_append_singleton _ _
  -- the frequencies are too small to overflow
  have htotal := queueTotal_perm hmerges.perm
  simp only [queueTotal, map_cons, sum_cons] at htotal
  have hsum : (join m1 m2).2.toNat = m1.2.toNat + m2.2.toNat := by
    have := h.total
    rw [queueTotal] at this
    rw [join, UInt64.toNat_add]
    exact Nat.mod_eq_of_lt (by omega)
  have hweight : (join m1 m2).2.toNat = (join m1 m2).1.weight (frequency freqTable) := by
    rw [hsum, join, CodeTree.weight_branch, h.exact m1 hm1, h.exact m2 hm2, Nat.add_comm]
  obtain ⟨p, q, hpq, hgreater, hcomposites⟩ := h.recent
  have hnew : ∀ e ∈ composites', e.2.toNat ≤ (join m1 m2).2.toNat := by
    intro e he
    have := hcomposites e (hmerges.composites_sublist.subset he)
    have := hgreater m1 hm1
    have := hgreater m2 hm2
    omega
  constructor
  case values => exact hmerges.queueLeaves_perm.trans h.values
  case promising =>
    refine CodeTree.Promising.perm ((hmove.map Prod.fst).symm) ?_
    apply (h.promising.perm (hmerges.perm.map Prod.fst).symm).merge
    · rwa [← h.exact m1 hm1, ← h.exact m2 hm2]
    · intro t ht
      obtain ⟨e, he, rfl⟩ := List.mem_map.mp ht
      rw [← h.exact m2 hm2, ← h.exact e (hrest e he)]
      exact hleast e he
  case exact =>
    intro e he
    rcases mem_cons.mp (hmove.subset he) with rfl | he
    · exact hweight
    · exact h.exact e (hrest e he)
  case total =>
    have := h.total
    rw [queueTotal] at this
    rw [queueTotal_perm hmove, queueTotal, map_cons, sum_cons, hsum]
    omega
  case leaves_ascending => exact h.leaves_ascending.sublist hmerges.leaves_sublist
  case composites_ascending =>
    rw [Ascending, pairwise_append]
    refine ⟨h.composites_ascending.sublist hmerges.composites_sublist, pairwise_singleton _ _, ?_⟩
    intro e he e' he'
    rw [mem_singleton.mp he']
    exact hnew e he
  case recent =>
    refine ⟨m1.2.toNat, m2.2.toNat, hle, ?_, ?_⟩
    · intro e he
      rcases mem_cons.mp (hmove.subset he) with rfl | he
      · omega
      · exact hleast e he
    · intro e he
      rcases mem_append.mp he with he | he
      · exact hsum ▸ hnew e he
      · rw [mem_singleton.mp he, hsum]

theorem length_usedBytes_le (freqTable : FreqTable) : (usedBytes freqTable).length ≤ 256 := by
  rw [← toFinset_card_of_nodup (nodup_usedBytes freqTable)]
  exact card_bytes_le _

/-- The sum of all frequencies is a 64-bit number. -/
theorem queueTotal_leafQueue (freqTable : FreqTable) : queueTotal (leafQueue freqTable) < 2 ^ 64 := by
  have hbound : ∀ n ∈ (leafQueue freqTable).map fun e => e.2.toNat, n ≤ 2 ^ 32 := by
    intro n hn
    obtain ⟨e, he, rfl⟩ := List.mem_map.mp hn
    obtain ⟨byte, -, rfl⟩ := List.mem_map.mp he
    rw [UInt32.toNat_toUInt64]
    exact (freqTable byte).toNat_lt.le
  have hsum := sum_le_card_nsmul _ _ hbound
  have hlength := length_usedBytes_le freqTable
  rw [length_map, leafQueue, length_map, smul_eq_mul] at hsum
  calc queueTotal (leafQueue freqTable) ≤ (usedBytes freqTable).length * 2 ^ 32 := hsum
    _ ≤ 256 * 2 ^ 32 := Nat.mul_le_mul_right _ hlength
    _ < 2 ^ 64 := by decide

/-- The state in front of the first pass. -/
theorem QueueState.start {freqTable : FreqTable} {queue : TreeQueue}
    (hqueue : queue.Perm (leafQueue freqTable))
    (hascending : Ascending queue) : QueueState freqTable queue [] := by
  constructor
  case values =>
    rw [append_nil, ← queueLeaves_leafQueue]
    exact queueLeaves_perm hqueue
  case promising =>
    rw [append_nil]
    apply CodeTree.Promising.perm (hqueue.map Prod.fst).symm
    rw [leafQueue, List.map_map]
    exact CodeTree.Promising.leaves (frequency freqTable) (usedBytes freqTable)
  case exact =>
    intro e he
    rw [append_nil] at he
    obtain ⟨byte, -, rfl⟩ := List.mem_map.mp (hqueue.subset he)
    rw [UInt32.toNat_toUInt64]
    exact sum_singleton.symm
  case total =>
    rw [append_nil, queueTotal_perm hqueue]
    exact queueTotal_leafQueue freqTable
  case leaves_ascending => exact hascending
  case composites_ascending => exact List.Pairwise.nil
  case recent =>
    refine ⟨0, 0, le_rfl, fun _ _ => Nat.zero_le _, fun e he => ?_⟩
    cases he

/-- The tree has one leaf for each byte that occurs, and no tree with these leaves costs less. -/
theorem buildHuffmanTree_optimal (qsort : Qsort) (hqsort : SortsByFrequency qsort) (freqTable : FreqTable)
    (htwo : 2 ≤ (usedBytes freqTable).length) :
    ∃ tree, buildHuffmanTree qsort freqTable (UInt16.ofNat (usedBytes freqTable).length) = some tree ∧
      tree.leafValues.Perm (usedBytes freqTable) ∧
      ∀ tree' : HTree, tree'.leafValues.Perm (usedBytes freqTable) →
        tree.cost freqTable ≤ tree'.cost freqTable := by
  have hlength := length_usedBytes_le freqTable
  have hcount : (usedBytes freqTable).length = (UInt16.ofNat (usedBytes freqTable).length).toNat :=
    (UInt16.toNat_ofNat_of_lt' (by simp only [UInt16.size]; omega)).symm
  have hpos : UInt16.ofNat (usedBytes freqTable).length ≠ 0 := by
    intro hzero
    rw [hzero] at hcount
    change _ = 0 at hcount
    omega
  obtain ⟨root, hbuild, hroot⟩ := buildHuffmanTree_rule (QueueState freqTable) hqsort.perm
    (fun _ _ _ _ _ _ hinv hmerges => hinv.merges hmerges) hcount hpos (fun queue hqueue hsorted => by
      refine QueueState.start hqueue ?_
      have hascending := hqsort.ascending (leafNodes freqTable)
      rw [← hsorted, pairwise_map] at hascending
      exact hascending)
  have hend : root.1.leaves.Perm (usedBytes freqTable) ∧ CodeTree.Promising (frequency freqTable)
      ((usedBytes freqTable).map (frequency freqTable)) [root.1] := by
    rcases hroot with hroot | hroot <;>
      exact ⟨by simpa [queueLeaves] using hroot.values, hroot.promising⟩
  refine ⟨ofCodeTree root.1, hbuild, by rw [leafValues_ofCodeTree]; exact hend.1, fun tree' htree' => ?_⟩
  have hne : tree'.leafDepths 0 ≠ [] := by
    intro hnil
    have := htree'.length_eq
    rw [HTree.leafValues, hnil, map_nil, length_nil] at this
    omega
  obtain ⟨t, hleaves, hcost⟩ := exists_codeTree freqTable tree' 0 hne
  rw [Nat.zero_mul, Nat.add_zero] at hcost
  calc (ofCodeTree root.1).cost freqTable = root.1.cost (frequency freqTable) :=
    cost_ofCodeTree freqTable root.1
    _ ≤ t.cost (frequency freqTable) := hend.2.optimal (by rw [hleaves]; exact htree'.map _)
    _ ≤ tree'.cost freqTable := hcost

theorem sortByFrequency_sorts : SortsByFrequency sortByFrequency where
  perm := fun _ nodes => perm_insertionSort _ nodes
  ascending := by
    intro nodes
    have htotal : Std.Total fun a b : HSortNode => a.frequency.toNat ≤ b.frequency.toNat :=
      ⟨fun a b => le_total a.frequency.toNat b.frequency.toNat⟩
    have htrans : IsTrans HSortNode fun a b => a.frequency.toNat ≤ b.frequency.toNat :=
      ⟨fun _ _ _ => le_trans⟩
    exact pairwise_insertionSort _ nodes

/-- Three bytes, of which two occur equally often. -/
theorem buildHuffmanTree_optimal_three :
    ∃ tree, buildHuffmanTree sortByFrequency
      (fun byte => if byte = 97 then 4 else if byte ∈ [98, 99] then 2 else 0)
        (UInt16.ofNat (usedBytes fun byte => if byte = 97 then 4 else if byte ∈ [98, 99] then 2
        else 0).length) = some tree ∧
      tree.leafValues.Perm (usedBytes fun byte => if byte = 97 then 4 else if byte ∈ [98, 99] then 2
      else 0) ∧ ∀ tree' : HTree,
        tree'.leafValues.Perm
          (usedBytes fun byte => if byte = 97 then 4 else if byte ∈ [98, 99] then 2 else 0) →
        tree.cost (fun byte => if byte = 97 then 4 else if byte ∈ [98, 99] then 2 else 0) ≤
          tree'.cost (fun byte => if byte = 97 then 4 else if byte ∈ [98, 99] then 2 else 0) :=
  buildHuffmanTree_optimal sortByFrequency sortByFrequency_sorts _ (by decide +kernel)

end NsuLabs.Huffman
