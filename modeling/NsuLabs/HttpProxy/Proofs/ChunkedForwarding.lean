/-
Module: NsuLabs.HttpProxy.Proofs.ChunkedForwarding
Purpose: When `proxy_forward_chunked` ends with the last receive of a response in chunked encoding.
Trusted boundary: none
Main exports: proxyForwardChunked_iff
-/
import NsuLabs.Lib.Positional
import NsuLabs.HttpProxy.Proofs.FixedLength

namespace NsuLabs.HttpProxy

open Lib List

/-! ### Chunked bodies -/

def hexValue (c : UInt8) : Nat := (digitValue c).getD 16

/-- A well-formed chunk: the size in hexadecimal digits, perhaps an extension, and as much data as
    announced. -/
structure BodyChunk where
  digits : Bytes
  ext : Bytes
  data : Bytes
  digits_ne : digits ≠ []
  hex : ∀ c ∈ digits, hexValue c < 16
  /-- An extension starts with a semicolon or with white space in front of it. -/
  ext_start : ext.head? ∈ [none, some 59, some 32, some 9]
  ext_line : 13 ∉ ext
  size : numberOf 16 (digits.map hexValue) = data.length

def BodyChunk.wire (c : BodyChunk) : WireChunk := ⟨c.digits ++ c.ext, c.data, [13, 10]⟩

/-- Chunks with data, and the zero chunk behind them. -/
structure ChunkedBody where
  chunks : List BodyChunk
  last : BodyChunk
  chunks_ne : ∀ c ∈ chunks, c.data ≠ []
  last_eq : last.data = []

def ChunkedBody.wire (body : ChunkedBody) : List WireChunk := (body.chunks ++ [body.last]).map BodyChunk.wire

/-! ### Size lines -/

theorem hexValue_ofNat : ∀ n < 256, hexValue (.ofNat n) < 16 →
    isSpace (.ofNat n) = false ∧ (UInt8.ofNat n ≠ 43 ∧ UInt8.ofNat n ≠ 45 ∧ UInt8.ofNat n ≠ 13) ∧
      UInt8.ofNat n ≠ 120 ∧ UInt8.ofNat n ≠ 88 ∧ digitValue (.ofNat n) = some (hexValue (.ofNat n)) := by
  decide +kernel

theorem of_hexValue_lt {c : UInt8} (h : hexValue c < 16) :
    isSpace c = false ∧ (c ≠ 43 ∧ c ≠ 45 ∧ c ≠ 13) ∧ c ≠ 120 ∧ c ≠ 88 ∧
      digitValue c = some (hexValue c) := by
  have hall := hexValue_ofNat c.toNat c.toNat_lt
  rw [UInt8.ofNat_toNat] at hall
  exact hall h

theorem readDigits_hex {digits rest : Bytes} (hhex : ∀ c ∈ digits, hexValue c < 16)
    (hrest : ∀ c, rest.head? = some c → digitValue c = none) (v : Nat) :
    readDigits 16 (digits ++ rest) v = v * 16 ^ digits.length + numberOf 16 (digits.map hexValue) := by
  induction digits generalizing v with
  | nil =>
    rw [nil_append, map_nil, numberOf_nil, length_nil, pow_zero, mul_one, Nat.add_zero]
    cases rest with
    | nil => rfl
    | cons c rest => rw [readDigits, hrest c rfl]
  | cons c digits ih =>
    have hc := hhex c mem_cons_self
    rw [cons_append, readDigits, (of_hexValue_lt hc).2.2.2.2]
    simp only [if_pos hc]
    rw [ih (fun d hd => hhex d (mem_cons_of_mem c hd)), map_cons, numberOf_cons, length_cons,
      length_map]
    ring

theorem readSign_of_ne {c : UInt8} (text : Bytes) (h : c ≠ 43 ∧ c ≠ 45) :
    readSign (c :: text) = (false, c :: text) := by
  rw [readSign]
  · rintro text' ⟨⟩
    exact h.1 rfl
  · rintro text' ⟨⟩
    exact h.2 rfl

theorem skipHexMark_of_ne {text : Bytes} (h : ∀ x, text[1]? = some x → x ≠ 120 ∧ x ≠ 88) :
    skipHexMark 16 text = text := by
  rw [skipHexMark.eq_def]
  split
  · rename_i x rest
    have hx := h x rfl
    rw [if_neg (by simp [hx])]
  · rfl

/-- The size line of a well-formed chunk is read as its size. -/
theorem BodyChunk.strtoull_line (c : BodyChunk) (hsmall : c.data.length < 2 ^ 64) :
    strtoull (c.digits ++ c.ext) 16 = c.data.length := by
  obtain ⟨d, digits, hdigits⟩ := exists_cons_of_ne_nil c.digits_ne
  have hd := of_hexValue_lt (c.hex d (hdigits ▸ mem_cons_self))
  -- an extension starts with none of the characters that `strtoull` could go on with
  have hext : ∀ x, c.ext.head? = some x → digitValue x = none ∧ x ≠ 120 ∧ x ≠ 88 := by
    intro x hx
    have hstart := c.ext_start
    rw [hx] at hstart
    simp only [mem_cons, Option.some_inj, reduceCtorEq, not_mem_nil, or_false, false_or] at hstart
    rcases hstart with rfl | rfl | rfl <;> decide
  have hspace : (c.digits ++ c.ext).dropWhile isSpace = c.digits ++ c.ext := by
    rw [hdigits, cons_append, dropWhile_cons_of_neg (by simp [hd.1])]
  have hsign : readSign (c.digits ++ c.ext) = (false, c.digits ++ c.ext) := by
    rw [hdigits, cons_append]
    exact readSign_of_ne _ ⟨hd.2.1.1, hd.2.1.2.1⟩
  have hmark : skipHexMark 16 (c.digits ++ c.ext) = c.digits ++ c.ext := by
    refine skipHexMark_of_ne fun x hx => ?_
    rw [hdigits, cons_append, getElem?_cons_succ] at hx
    cases digits with
    | nil =>
      rw [nil_append, ← head?_eq_getElem?] at hx
      exact (hext x hx).2
    | cons e digits =>
      rw [cons_append, getElem?_cons_zero, Option.some_inj] at hx
      subst hx
      have he := of_hexValue_lt (c.hex e (hdigits ▸ mem_cons_of_mem d mem_cons_self))
      exact ⟨he.2.2.1, he.2.2.2.1⟩
  have hvalue := readDigits_hex c.hex (fun x hx => (hext x hx).1) 0
  rw [Nat.zero_mul, Nat.zero_add, c.size] at hvalue
  unfold strtoull
  rw [hspace, hsign]
  simp only [hmark, hvalue, Bool.false_eq_true, if_false]
  rw [if_neg (by omega)]

theorem isLine_of_notMem {line : Bytes} (h : 13 ∉ line) : IsLine line := by
  induction line with
  | nil => rfl
  | cons c line ih =>
    rw [mem_cons, not_or] at h
    exact (isLine_cons []).mpr ⟨fun hc => h.1 hc.1.symm, ih h.2⟩

theorem BodyChunk.wire_valid (c : BodyChunk) (hsmall : c.data.length < 2 ^ 64) : c.wire.Valid where
  line := by
    refine isLine_of_notMem ?_
    rw [BodyChunk.wire, mem_append, not_or]
    exact ⟨fun h => (of_hexValue_lt (c.hex 13 h)).2.1.2.2 rfl, c.ext_line⟩
  size := c.strtoull_line hsmall
  ending := rfl

/-! ### Complete chunks -/

/-- The number of chunks that are complete in the first `n` bytes. -/
def completeIn : (ws : List WireChunk) → (n : Nat) → Nat
  | [], _ => 0
  | w :: ws, n => if w.encode.length ≤ n then completeIn ws (n - w.encode.length) + 1 else 0

theorem completeIn_all (ws : List WireChunk) : completeIn ws (wireBytes ws).length = ws.length := by
  induction ws with
  | nil => rfl
  | cons w ws ih =>
    rw [completeIn, wireBytes_cons, length_append, if_pos (Nat.le_add_right _ _),
      Nat.add_sub_cancel_left, ih, length_cons]

theorem completeIn_le (ws : List WireChunk) (n : Nat) : completeIn ws n ≤ ws.length := by
  induction ws generalizing n with
  | nil => exact Nat.le_refl 0
  | cons w ws ih =>
    rw [completeIn]
    split
    · exact Nat.succ_le_succ (ih _)
    · exact Nat.zero_le _

variable {ws : List WireChunk}

theorem completeIn_lt {n : Nat} (hn : n < (wireBytes ws).length) : completeIn ws n < ws.length := by
  induction ws generalizing n with
  | nil => exact absurd hn (Nat.not_lt_zero n)
  | cons w ws ih =>
    rw [wireBytes_cons, length_append] at hn
    rw [completeIn, length_cons]
    split
    · exact Nat.succ_lt_succ (ih (by omega))
    · omega

/-- The complete chunks at the front can be left out. -/
theorem completeIn_drop {n k : Nat} (hk : k ≤ completeIn ws n) :
    (wireBytes (ws.take k)).length ≤ n ∧
      ∀ m, n ≤ m → completeIn ws m = k + completeIn (ws.drop k) (m - (wireBytes (ws.take k)).length) := by
  induction k generalizing ws n with
  | zero =>
    refine ⟨Nat.zero_le n, fun m _ => ?_⟩
    rw [drop_zero, take_zero, Nat.zero_add]
    rfl
  | succ k ih =>
    cases ws with
    | nil => exact absurd hk (Nat.not_succ_le_zero k)
    | cons w ws =>
      rw [completeIn] at hk
      split at hk
      · rename_i hfull
        obtain ⟨hlength, hmore⟩ := ih (Nat.le_of_succ_le_succ hk)
        rw [take_succ_cons, wireBytes_cons, length_append, drop_succ_cons]
        refine ⟨by omega, fun m hm => ?_⟩
        rw [completeIn, if_pos (by omega), hmore (m - w.encode.length) (by omega), Nat.sub_sub]
        omega
      · exact absurd hk (Nat.not_succ_le_zero k)

theorem findCrlf_of_isPrefix {line rest : Bytes} (h : IsLine line) (hrest : rest <+: line ++ [13]) :
    findCrlf rest = none := by
  induction line generalizing rest with
  | nil =>
    rcases prefix_cons_iff.mp hrest with rfl | ⟨rest', rfl, hrest'⟩
    · rfl
    · rw [prefix_nil.mp hrest']
      rfl
  | cons c line ih =>
    obtain ⟨hfirst, hline⟩ := (isLine_cons [13, 10]).mp h
    rcases prefix_cons_iff.mp hrest with rfl | ⟨rest', rfl, hrest'⟩
    · rfl
    · rw [findCrlf_cons, if_neg, ih hline hrest']
      · rfl
      · rintro ⟨hc, hhead⟩
        obtain ⟨behind, hbehind⟩ := hrest'
        refine hfirst ⟨hc, ?_⟩
        obtain ⟨rest', rfl⟩ := head?_eq_some_iff.mp hhead
        cases line with
        | nil => cases hbehind
        | cons d line =>
          obtain ⟨rfl, -⟩ := cons.inj hbehind
          rfl

/-- In a part of well-formed chunks the exact parser finds those that are complete, and perhaps the
    size line of the one behind them. -/
theorem exactParse_wire (slots : Nat) : ∀ (ws : List WireChunk) (rest : Bytes), (∀ w ∈ ws, w.Valid) →
    rest <+: wireBytes ws →
    (exactParse slots rest).1 = ws.take (min slots (completeIn ws rest.length)) ∧
      ∀ line, (exactParse slots rest).2 = some line → ∃ w ∈ ws, w.line = line := by
  induction slots with
  | zero =>
    intro ws rest _ _
    refine ⟨?_, fun line hline => ?_⟩
    · rw [exactParse, Nat.zero_min, take_zero]
    · cases hline
  | succ slots ih =>
    rintro (_ | ⟨w, ws⟩) rest hvalid hrest
    · rw [prefix_nil.mp hrest]
      refine ⟨rfl, fun line hline => ?_⟩
      cases hline
    · have hw := hvalid w mem_cons_self
      have hencode := length_encode w hw.ending
      rw [wireBytes_cons] at hrest
      by_cases hfull : w.encode.length ≤ rest.length
      · -- the first chunk is complete
        obtain ⟨rest, rfl⟩ := prefix_of_prefix_length_le (prefix_append _ _) hrest hfull
        obtain ⟨hfirst, hnext⟩ := ih ws rest (fun v hv => hvalid v (mem_cons_of_mem w hv))
          ((prefix_append_right_inj _).mp hrest)
        rw [exactParse_chunk slots hw, completeIn, if_pos hfull, length_append, Nat.add_sub_cancel_left,
          Nat.add_min_add_right, take_succ_cons]
        refine ⟨congrArg _ hfirst, fun line hline => ?_⟩
        obtain ⟨v, hv, hv'⟩ := hnext line hline
        exact ⟨v, mem_cons_of_mem w hv, hv'⟩
      · rw [completeIn, if_neg hfull, Nat.min_zero, take_zero]
        have hpart : rest <+: w.encode :=
          prefix_of_prefix_length_le hrest (prefix_append _ _) (by omega)
        by_cases hcrlf : w.line.length + 2 ≤ rest.length
        · -- only its size line is
          obtain ⟨tail, rfl⟩ : ∃ tail, rest = w.line ++ 13 :: 10 :: tail := by
            have hstart : w.line ++ [13, 10] <+: w.encode := by
              rw [WireChunk.encode]
              exact ⟨w.data ++ w.ending, by simp⟩
            obtain ⟨tail, rfl⟩ := prefix_of_prefix_length_le hstart hpart
              (by rw [length_append]; exact hcrlf)
            exact ⟨tail, by simp⟩
          simp only [length_append, length_cons] at hfull
          rw [exactParse_incomplete slots hw.line (by rw [hw.size]; omega)]
          refine ⟨rfl, fun line hline => ?_⟩
          cases hline
          exact ⟨w, mem_cons_self, rfl⟩
        · have hnone : findCrlf rest = none := by
            refine findCrlf_of_isPrefix hw.line (prefix_of_prefix_length_le hpart ?_ ?_)
            · rw [WireChunk.encode]
              exact ⟨10 :: (w.data ++ w.ending), by simp⟩
            · rw [length_append, length_singleton]
              omega
          rw [exactParse_none slots hnone]
          refine ⟨rfl, fun line hline => ?_⟩
          cases hline

/-- Reading a size line that is too long stops the program. -/
theorem parseChunksLoop_assertion {buf : Nat} {bytes : Bytes} (hfits : buf + bytes.length < 2 ^ 64)
    (slots : Nat) : ∀ front rest : Bytes, bytes = front ++ rest →
      ((∃ w ∈ (exactParse slots rest).1, 64 ≤ w.line.length) ∨
        ∃ line, (exactParse slots rest).2 = some line ∧ 64 ≤ line.length) →
      parseChunksLoop buf bytes slots (buf + front.length) front.length = .error .assertion := by
  induction slots with
  | zero =>
    rintro front rest - (⟨w, hw, -⟩ | ⟨line, hline, -⟩)
    · exact absurd hw not_mem_nil
    · cases hline
  | succ slots ih =>
    intro front rest hbytes hlong
    rcases text_cases rest with hcrlf | ⟨line, tail, rfl, hline, hbig⟩ | ⟨w, more, rfl, hw⟩
    · rw [exactParse_none slots hcrlf] at hlong
      rcases hlong with ⟨w, hw, -⟩ | ⟨line, hline, -⟩
      · exact absurd hw not_mem_nil
      · cases hline
    · rw [exactParse_incomplete slots hline hbig] at hlong
      rcases hlong with ⟨w, hw, -⟩ | ⟨_, ⟨⟩, hlong⟩
      · exact absurd hw not_mem_nil
      · exact parseChunksLoop_long hfits slots hbytes hline hlong
    · by_cases hshort : w.line.length < 64
      · rw [parseChunksLoop_chunk hfits slots hbytes hw hshort,
          ih (front ++ w.encode) more (by rw [hbytes, append_assoc])]
        · rfl
        · rw [exactParse_chunk slots hw] at hlong
          rcases hlong with ⟨v, hv, hlong⟩ | hlong
          · rcases mem_cons.mp hv with rfl | hv
            · omega
            · exact .inl ⟨v, hv, hlong⟩
          · exact .inr hlong
      · rw [WireChunk.encode, append_assoc, cons_append, cons_append] at hbytes
        exact parseChunksLoop_long hfits slots hbytes hw.line (by omega)

theorem Reports.map_len {addr : Nat} {cs : List Chunk} (h : Reports addr ws cs) :
    cs.map Chunk.len = ws.map fun w => w.data.length := by
  induction h with
  | nil addr => rfl
  | cons hw _ ih => rw [map_cons, map_cons, hw.len, ih]

theorem length_encode_le {w : WireChunk} (hw : w ∈ ws) : w.encode.length ≤ (wireBytes ws).length :=
  (sublist_flatten_of_mem (List.mem_map_of_mem hw)).length_le

theorem wireBytes_append (ws ws' : List WireChunk) :
    wireBytes (ws ++ ws') = wireBytes ws ++ wireBytes ws' := by
  rw [wireBytes, map_append, flatten_append, wireBytes, wireBytes]

theorem wireBytes_take_drop (ws : List WireChunk) (k : Nat) :
    wireBytes ws = wireBytes (ws.take k) ++ wireBytes (ws.drop k) := by
  rw [← wireBytes_append, take_append_drop]

theorem length_wireBytes_take (ws : List WireChunk) (k : Nat) :
    (wireBytes ws).length = (wireBytes (ws.take k)).length + (wireBytes (ws.drop k)).length := by
  rw [wireBytes_take_drop ws k, length_append]

/-- One call of the parser, on a part of well-formed chunks. -/
theorem httpParseChunks_wire {rest : Bytes} {addr : Nat} (hvalid : ∀ w ∈ ws, w.Valid)
    (hrest : rest <+: wireBytes ws) (haddr : addr + rest.length ≤ 2 ^ 63)
    (hsmall : (wireBytes ws).length < 2 ^ 31) :
    (httpParseChunks 32 addr rest = .error .assertion ∧ ∃ w ∈ ws, 64 ≤ w.line.length) ∨
      ∃ chunks, httpParseChunks 32 addr rest =
          .ok ((wireBytes (ws.take (min 32 (completeIn ws rest.length)))).length, chunks) ∧
        chunks.map Chunk.len = (ws.take (min 32 (completeIn ws rest.length))).map (fun w => w.data.length) ∧
        ∀ w ∈ ws.take (min 32 (completeIn ws rest.length)), w.line.length < 64 := by
  obtain ⟨hfirst, hnext⟩ := exactParse_wire 32 ws rest hvalid hrest
  generalize min 32 (completeIn ws rest.length) = k at hfirst ⊢
  have htake := length_wireBytes_take ws k
  have hfits : addr + rest.length < 2 ^ 64 := by omega
  by_cases hlong : (∃ w ∈ (exactParse 32 rest).1, 64 ≤ w.line.length) ∨
      ∃ line, (exactParse 32 rest).2 = some line ∧ 64 ≤ line.length
  · have hloop := parseChunksLoop_assertion hfits 32 [] rest rfl hlong
    refine .inl ⟨?_, ?_⟩
    · rw [length_nil, Nat.add_zero] at hloop
      rw [httpParseChunks, hloop]
      rfl
    · rcases hlong with ⟨w, hw, hlong⟩ | ⟨line, hline, hlong⟩
      · rw [hfirst] at hw
        exact ⟨w, mem_of_mem_take hw, hlong⟩
      · obtain ⟨w, hw, rfl⟩ := hnext line hline
        exact ⟨w, hw, hlong⟩
  · rw [not_or] at hlong
    have hshort : ∀ w ∈ (exactParse 32 rest).1, w.line.length < 64 :=
      fun w hw => not_le.mp fun h => hlong.1 ⟨w, hw, h⟩
    have hsafe : ReadsSafely (addr + rest.length) addr 32 rest := by
      refine ⟨hshort, fun line hline => ⟨not_le.mp fun h => hlong.2 ⟨line, hline, h⟩, .inl ?_⟩⟩
      -- all addresses are far below the end of the address space
      obtain ⟨w, hw, rfl⟩ := hnext line hline
      obtain ⟨-, hsize, hending⟩ := hvalid w hw
      have hencode := length_encode w hending
      have hle := length_encode_le hw
      rw [hfirst, hsize]
      omega
    obtain ⟨chunks, hloop, hreports⟩ := parseChunksLoop_exact hfits 32 [] rest rfl hsafe
    rw [length_nil, Nat.add_zero, Nat.zero_add, hfirst] at hloop
    rw [hfirst] at hreports hshort
    refine .inr ⟨chunks, ?_, hreports.map_len, hshort⟩
    rw [httpParseChunks, hloop]
    exact congrArg (fun ret => Except.ok (ret, chunks)) ((bmod_eq_self_iff _).mpr (by omega))

/-! ### The loop -/

/-- Chunks with data, and the zero chunk behind them. -/
def Terminated (ws : List WireChunk) : Prop :=
  ∃ front z, ws = front ++ [z] ∧ z.data = [] ∧ ∀ w ∈ front, w.data ≠ []

theorem Terminated.drop (h : Terminated ws) {k : Nat} (hk : k < ws.length) : Terminated (ws.drop k) := by
  obtain ⟨front, z, rfl, hz, hfront⟩ := h
  rw [length_append, length_singleton] at hk
  refine ⟨front.drop k, z, ?_, hz, fun w hw => hfront w (mem_of_mem_drop hw)⟩
  rw [drop_append_of_le_length (by omega)]

/-- The last one of the first `k` chunks is the zero chunk only if these are all. -/
theorem Terminated.getLast?_take (h : Terminated ws) {k : Nat} (hk : k ≤ ws.length) :
    ((ws.take k).map fun w => w.data.length).getLast? = some 0 ↔ k = ws.length := by
  obtain ⟨front, z, rfl, hz, hfront⟩ := h
  rw [length_append, length_singleton] at hk ⊢
  constructor
  · intro hlast
    by_contra hne
    rw [take_append_of_le_length (by omega)] at hlast
    obtain ⟨w, hw, hzero⟩ := List.mem_map.mp (mem_of_getLast? hlast)
    exact hfront w (mem_of_mem_take hw) (length_eq_zero_iff.mp hzero)
  · rintro rfl
    rw [take_of_length_le (by simp), map_append, map_singleton, getLast?_concat, hz]
    rfl

/-- After each receive the chunks that are not complete are at most 32 for every receive to come,
    and there are at most 32 for every pass. -/
def KeepsUp (ws : List WireChunk) (n : Nat) (receives : List Bytes) : Prop :=
  ws.length ≤ 32 * (receives.length + 1) ∧
    ∀ j ≤ receives.length,
      ws.length ≤ completeIn ws (n + (receives.take j).flatten.length) + 32 * (receives.length - j)

/-- Before each receive the buffer has room for 16384 more bytes, counted as `int`. -/
def RoomFor (used : Nat) (receives : List Bytes) : Prop :=
  ∀ j < receives.length, used + (receives.take j).flatten.length + 16384 < 2 ^ 31

/-- No receive returns more than the buffer has room for. -/
def FitsRoom : Buffer → List Bytes → Prop
  | _, [] => True
  | buf, r :: receives => ∀ buf', bufferEnsure buf 16384 = .ok buf' →
      buf'.bytes.length + r.length ≤ buf'.size ∧ FitsRoom { buf' with bytes := buf'.bytes ++ r } receives

theorem keepsUp_nil : KeepsUp ws (wireBytes ws).length [] ↔ ws.length ≤ 32 := by
  rw [KeepsUp]
  constructor
  · rintro ⟨hle, -⟩
    exact hle
  · intro hle
    refine ⟨hle, fun j hj => ?_⟩
    rw [take_nil, flatten_nil, length_nil, Nat.add_zero, completeIn_all]
    exact Nat.le_add_right _ _

/-- One pass takes the complete chunks, up to 32 of them. -/
theorem keepsUp_cons {n : Nat} {r : Bytes} {receives : List Bytes} {k : Nat}
    (hk : k = min 32 (completeIn ws n)) (hlt : k < ws.length) :
    KeepsUp ws n (r :: receives) ↔
      KeepsUp (ws.drop k) (n - (wireBytes (ws.take k)).length + r.length) receives := by
  obtain ⟨hlength, hmore⟩ := completeIn_drop (hk ▸ Nat.min_le_right _ _ : k ≤ completeIn ws n)
  -- the number of complete chunks after `j` more receives, counted without the first `k`
  have hcount : ∀ j, completeIn ws (n + ((r :: receives).take (j + 1)).flatten.length) =
      k + completeIn (ws.drop k)
        (n - (wireBytes (ws.take k)).length + r.length + (receives.take j).flatten.length) := by
    intro j
    rw [hmore _ (by omega), take_succ_cons, flatten_cons, length_append]
    congr 2
    omega
  have hzero : n + ((r :: receives).take 0).flatten.length = n := rfl
  rw [KeepsUp, KeepsUp, length_drop, length_cons]
  constructor
  · rintro ⟨hpasses, hreceives⟩
    refine ⟨?_, fun j hj => ?_⟩
    · have hfirst := hreceives 0 (Nat.zero_le _)
      rw [hzero] at hfirst
      omega
    · have hnext := hreceives (j + 1) (by omega)
      rw [hcount] at hnext
      omega
  · rintro ⟨hpasses, hreceives⟩
    refine ⟨by omega, fun j hj => ?_⟩
    cases j with
    | zero =>
      rw [hzero]
      omega
    | succ j =>
      have hnext := hreceives j (by omega)
      rw [hcount]
      omega

theorem roomFor_cons {used : Nat} {r : Bytes} {receives : List Bytes} :
    RoomFor used (r :: receives) ↔ used + 16384 < 2 ^ 31 ∧ RoomFor (used + r.length) receives := by
  rw [RoomFor, RoomFor, length_cons]
  constructor
  · intro h
    refine ⟨h 0 (Nat.succ_pos _), fun j hj => ?_⟩
    have hnext := h (j + 1) (Nat.succ_lt_succ hj)
    rw [take_succ_cons, flatten_cons, length_append] at hnext
    omega
  · rintro ⟨hfirst, h⟩ j hj
    cases j with
    | zero => exact hfirst
    | succ j =>
      have hnext := h j (Nat.lt_of_succ_lt_succ hj)
      rw [take_succ_cons, flatten_cons, length_append]
      omega

section

variable {alloc : Nat → Nat} {arrivals : List Arrival} {buf : Buffer} {nParsed : Nat} {sent : Bytes}
  (hparsed : nParsed ≤ buf.bytes.length)
include hparsed

theorem forwardChunkedLoop_crash {crash : Crash}
    (hparse : httpParseChunks 32 (alloc buf.size + nParsed) (buf.bytes.drop nParsed) = .error crash) :
    forwardChunkedLoop alloc arrivals buf nParsed sent = ⟨.crashed crash, sent, arrivals⟩ := by
  rw [forwardChunkedLoop, if_neg (not_lt.mpr hparsed), hparse]

variable {n : Nat} {chunks : List Chunk}
  (hparse : httpParseChunks 32 (alloc buf.size + nParsed) (buf.bytes.drop nParsed) = .ok (n, chunks))
include hparse

theorem forwardChunkedLoop_zero (hzero : chunks.getLast?.map Chunk.len = some 0) :
    forwardChunkedLoop alloc arrivals buf nParsed sent = ⟨.ok, sent, arrivals⟩ := by
  rw [forwardChunkedLoop, if_neg (not_lt.mpr hparsed), hparse]
  simp only [hzero, if_true]
  rw [if_neg (by omega)]

variable (hzero : chunks.getLast?.map Chunk.len ≠ some 0)
include hzero

theorem forwardChunkedLoop_full {crash : Crash} (hensure : bufferEnsure buf 16384 = .error crash) :
    forwardChunkedLoop alloc arrivals buf nParsed sent = ⟨.crashed crash, sent, arrivals⟩ := by
  rw [forwardChunkedLoop, if_neg (not_lt.mpr hparsed), hparse]
  simp only [hzero, hensure, if_false]
  rw [if_neg (by omega)]

variable {buf' : Buffer} (hensure : bufferEnsure buf 16384 = .ok buf')
include hensure

theorem forwardChunkedLoop_waiting :
    forwardChunkedLoop alloc [] buf nParsed sent = ⟨.waiting, sent, []⟩ := by
  rw [forwardChunkedLoop, if_neg (not_lt.mpr hparsed), hparse]
  simp only [hzero, hensure, if_false]
  rw [if_neg (by omega)]

theorem forwardChunkedLoop_next {r : Bytes} (hr : r ≠ []) :
    forwardChunkedLoop alloc (⟨r, true⟩ :: arrivals) buf nParsed sent =
      forwardChunkedLoop alloc arrivals { buf' with bytes := buf'.bytes ++ r } (wrap (nParsed + n))
        (sent ++ r) := by
  rw [forwardChunkedLoop, if_neg (not_lt.mpr hparsed), hparse]
  simp only [hzero, hensure, hr, if_false, not_true_eq_false, or_self]
  rw [if_neg (by omega)]

end

/-- The receives, all of which the client takes. -/
def takenAll (receives : List Bytes) : List Arrival := receives.map fun r => ⟨r, true⟩

section

variable {alloc : Nat → Nat} (halloc : ∀ n < 2 ^ 31, alloc n + n ≤ 2 ^ 63)
include halloc

/-- From a pass that starts behind `front`, with `rest` of the remaining chunks in the buffer. -/
theorem forwardChunkedLoop_iff (receives : List Bytes) (front rest : Bytes) (ws : List WireChunk)
    (size : Nat) (hreceives : ∀ r ∈ receives, r ≠ []) (hvalid : ∀ w ∈ ws, w.Valid)
    (hterminated : Terminated ws) (hrest : rest ++ receives.flatten = wireBytes ws)
    (hsize : (front ++ rest).length ≤ size) (hint : size < 2 ^ 31)
    (hfits : FitsRoom ⟨front ++ rest, size⟩ receives)
    (htotal : (wireBytes ws).length + front.length < 2 ^ 31) :
    forwardChunkedLoop alloc (takenAll receives) ⟨front ++ rest, size⟩ front.length (front ++ rest) =
        ⟨.ok, front ++ wireBytes ws, []⟩ ↔
      (∀ w ∈ ws, w.line.length < 64) ∧ KeepsUp ws rest.length receives ∧
        RoomFor (front ++ rest).length receives := by
  have hinitial : rest <+: wireBytes ws := ⟨_, hrest⟩
  have hparsed : front.length ≤ (front ++ rest).length := by
    rw [length_append]
    omega
  have haddr : alloc size + front.length + rest.length ≤ 2 ^ 63 := by
    have := halloc size hint
    rw [length_append] at hsize
    omega
  rcases httpParseChunks_wire hvalid hinitial haddr (by omega) with
    ⟨hcrash, w, hw, hlong⟩ | ⟨chunks, hok, hlen, hshort⟩
  · refine iff_of_false ?_ fun h => absurd (h.1 w hw) (by omega)
    rw [forwardChunkedLoop_crash hparsed (by rw [drop_left]; exact hcrash)]
    nofun
  -- the chunks that this pass takes
  obtain ⟨hlength, -⟩ := completeIn_drop (Nat.min_le_right 32 (completeIn ws rest.length))
  have hzero := hterminated.getLast?_take ((Nat.min_le_right 32 _).trans (completeIn_le ws rest.length))
  rw [← hlen, getLast?_map] at hzero
  have hparse := (congrArg (httpParseChunks 32 (alloc size + front.length))
    (@drop_left _ front rest)).trans hok
  cases receives with
  | nil =>
    rw [flatten_nil, append_nil] at hrest
    subst hrest
    have hroom : RoomFor (front ++ wireBytes ws).length [] := fun j hj => absurd hj (Nat.not_lt_zero j)
    rw [keepsUp_nil, and_iff_left hroom]
    rw [completeIn_all] at hparse hzero hshort
    by_cases hall : ws.length ≤ 32
    · rw [Nat.min_eq_right hall] at hshort hzero
      rw [take_length] at hshort
      exact iff_of_true (forwardChunkedLoop_zero hparsed hparse (hzero.mpr rfl)) ⟨hshort, hall⟩
    · refine iff_of_false ?_ fun h => hall h.2
      have hmore : chunks.getLast?.map Chunk.len ≠ some 0 := fun h => hall (by have := hzero.mp h; omega)
      cases hensure : bufferEnsure ⟨front ++ wireBytes ws, size⟩ 16384 with
      | error crash =>
        rw [forwardChunkedLoop_full hparsed hparse hmore hensure]
        nofun
      | ok buf' =>
        rw [takenAll, map_nil, forwardChunkedLoop_waiting hparsed hparse hmore hensure]
        nofun
  | cons r receives =>
    have hr : r ≠ [] := hreceives r mem_cons_self
    have hklt : min 32 (completeIn ws rest.length) < ws.length := by
      refine lt_of_le_of_lt (Nat.min_le_right _ _) (completeIn_lt ?_)
      have hpos := length_pos_iff.mpr hr
      rw [← hrest, length_append, flatten_cons, length_append]
      omega
    have hkeepsUp := @keepsUp_cons ws rest.length r receives _ rfl hklt
    generalize min 32 (completeIn ws rest.length) = k at hparse hzero hshort hlength hklt hkeepsUp
    have hmore : chunks.getLast?.map Chunk.len ≠ some 0 := fun h => hklt.ne (hzero.mp h)
    rcases @bufferEnsure_spec ⟨front ++ rest, size⟩ 16384 hsize hint (by decide) with
      ⟨hensure, hfull⟩ | ⟨size', hensure, hroom, hint'⟩
    · refine iff_of_false ?_ fun h => absurd (roomFor_cons.mp h.2.2).1 (by dsimp only at hfull; omega)
      rw [forwardChunkedLoop_full hparsed hparse hmore hensure]
      nofun
    · -- the next pass starts behind the chunks of this one
      have hsplit := length_wireBytes_take ws k
      have htake := wireBytes_take_drop ws k
      obtain ⟨more, rfl⟩ := prefix_of_prefix_length_le (htake ▸ prefix_append _ _) hinitial hlength
      have hbytes : front ++ (wireBytes (ws.take k) ++ more) ++ r =
          front ++ wireBytes (ws.take k) ++ (more ++ r) := by
        simp only [append_assoc]
      have hwrap : wrap ((front.length : Int) + (wireBytes (ws.take k)).length) =
          (front ++ wireBytes (ws.take k)).length := by
        rw [← Nat.cast_add, ← length_append]
        exact wrap_natCast (by rw [length_append]; omega)
      obtain ⟨hfit, hfits⟩ := hfits _ hensure
      dsimp only at hfit hfits
      rw [hbytes] at hfits
      have hnext := forwardChunkedLoop_iff receives (front ++ wireBytes (ws.take k)) (more ++ r)
        (ws.drop k) size'
        (fun s hs => hreceives s (mem_cons_of_mem r hs)) (fun w hw => hvalid w (mem_of_mem_drop hw))
        (hterminated.drop hklt)
        (by
          rw [htake, flatten_cons, append_assoc] at hrest
          rw [append_assoc]
          exact append_cancel_left hrest)
        (by
          rw [← hbytes, length_append]
          exact hfit)
        hint' hfits
        (by
          rw [length_append]
          omega)
      have hrun : forwardChunkedLoop alloc (takenAll (r :: receives))
        ⟨front ++ (wireBytes (ws.take k) ++ more), size⟩
          front.length (front ++ (wireBytes (ws.take k) ++ more)) =
          forwardChunkedLoop alloc (takenAll receives)
            ⟨front ++ wireBytes (ws.take k) ++ (more ++ r), size'⟩
            (front ++ wireBytes (ws.take k)).length (front ++ wireBytes (ws.take k) ++ (more ++ r)) := by
        rw [← hbytes, ← hwrap]
        exact forwardChunkedLoop_next hparsed hparse hmore hensure hr
      rw [hrun, htake, ← append_assoc front]
      refine hnext.trans ?_
      have hline : (∀ w ∈ ws, w.line.length < 64) ↔ ∀ w ∈ ws.drop k, w.line.length < 64 := by
        constructor
        · exact fun h w hw => h w (mem_of_mem_drop hw)
        · intro h w hw
          rw [← take_append_drop k ws] at hw
          rcases mem_append.mp hw with hw | hw
          · exact hshort w hw
          · exact h w hw
      have havailable : (wireBytes (ws.take k) ++ more).length - (wireBytes (ws.take k)).length +
          r.length = (more ++ r).length := by
        rw [length_append, length_append, Nat.add_sub_cancel_left]
      have hused : (front ++ (wireBytes (ws.take k) ++ more)).length + r.length =
          (front ++ wireBytes (ws.take k) ++ (more ++ r)).length := by
        rw [← hbytes]
        exact length_append.symm
      have hroom' : (front ++ (wireBytes (ws.take k) ++ more)).length + 16384 < 2 ^ 31 :=
        lt_of_le_of_lt hroom hint'
      rw [hline, hkeepsUp, havailable, roomFor_cons, hused, and_iff_right hroom']

end

/-! ### The size of the response -/

/-- Everything that is received goes through the buffer, whose size is an `int`. -/
theorem total_lt_of_roomFor (receives : List Bytes) : ∀ buf : Buffer, buf.bytes.length ≤ buf.size →
    buf.size < 2 ^ 31 → FitsRoom buf receives → RoomFor buf.bytes.length receives →
    (buf.bytes ++ receives.flatten).length < 2 ^ 31 := by
  induction receives with
  | nil =>
    intro buf hused hint _ _
    rw [flatten_nil, append_nil]
    omega
  | cons r receives ih =>
    intro buf hused hint hfits hroom
    obtain ⟨hfirst, hroom⟩ := roomFor_cons.mp hroom
    rcases @bufferEnsure_spec buf 16384 hused hint (by decide) with ⟨-, hfull⟩ | ⟨size', hensure, -, hint'⟩
    · omega
    · obtain ⟨hfit, hfits⟩ := hfits _ hensure
      have hrest := ih ⟨buf.bytes ++ r, size'⟩ (by rw [length_append]; exact hfit) hint' hfits
        (by rw [length_append]; exact hroom)
      rwa [append_assoc, ← flatten_cons] at hrest

theorem length_sent_lt {alloc : Nat → Nat} (receives : List Bytes) : ∀ (buf : Buffer) (nParsed : Nat),
    buf.bytes.length ≤ buf.size → buf.size < 2 ^ 31 → FitsRoom buf receives →
    (forwardChunkedLoop alloc (takenAll receives) buf nParsed buf.bytes).sent.length < 2 ^ 31 := by
  induction receives with
  | nil =>
    intro buf nParsed hused hint _
    have hlt : buf.bytes.length < 2 ^ 31 := by omega
    rw [takenAll, map_nil, forwardChunkedLoop]
    split
    · exact hlt
    · split
      · exact hlt
      · split
        · exact hlt
        · split
          · exact hlt
          · split <;> exact hlt
  | cons r receives ih =>
    intro buf nParsed hused hint hfits
    have hlt : buf.bytes.length < 2 ^ 31 := by omega
    rw [takenAll, map_cons, forwardChunkedLoop]
    split
    · exact hlt
    · split
      · exact hlt
      · split
        · exact hlt
        · split
          · exact hlt
          · rcases @bufferEnsure_spec buf 16384 hused hint (by decide) with
              ⟨hensure, -⟩ | ⟨size', hensure, -, hint'⟩
            · simp only [hensure]
              exact hlt
            · obtain ⟨hfit, hfits⟩ := hfits _ hensure
              simp only [hensure]
              split
              · exact hlt
              · exact ih ⟨buf.bytes ++ r, size'⟩ _ (by rw [length_append]; exact hfit) hint' hfits

/-! ### The response -/

theorem ChunkedBody.terminated (body : ChunkedBody) : Terminated body.wire := by
  refine ⟨body.chunks.map BodyChunk.wire, body.last.wire, ?_, body.last_eq, fun w hw => ?_⟩
  · rw [ChunkedBody.wire, map_append, map_singleton]
  · obtain ⟨c, hc, rfl⟩ := List.mem_map.mp hw
    exact body.chunks_ne c hc

theorem ChunkedBody.valid (body : ChunkedBody) (hsmall : (wireBytes body.wire).length < 2 ^ 31) :
    ∀ w ∈ body.wire, w.Valid := by
  intro w hw
  have hle := length_encode_le hw
  obtain ⟨c, hc, rfl⟩ := List.mem_map.mp hw
  rw [length_encode _ rfl] at hle
  exact c.wire_valid (by
    rw [BodyChunk.wire] at hle
    dsimp only at hle
    omega)

/-- One way in which the network splits a response: `buf` has been received with the header, and the
    rest comes in the receives. -/
structure Arrives (header : Bytes) (body : ChunkedBody) (buf : Buffer) (receives : List Bytes) : Prop where
  header_ne : header ≠ []
  header_read : header <+: buf.bytes
  response : buf.bytes ++ receives.flatten = header ++ wireBytes body.wire
  receives_ne : ∀ r ∈ receives, r ≠ []
  used_le : buf.bytes.length ≤ buf.size
  size_lt : buf.size < 2 ^ 31
  fits : FitsRoom buf receives

/-- Exactly if all size lines are short, the passes keep up with the receives and there is room for
    the response, `proxy_forward_chunked` returns `OK` with the last receive, and the client has got
    the response. -/
theorem proxyForwardChunked_iff {alloc : Nat → Nat} (halloc : ∀ n < 2 ^ 31, alloc n + n ≤ 2 ^ 63)
    {header : Bytes}
    {body : ChunkedBody} {buf : Buffer} {receives : List Bytes} (h : Arrives header body buf receives) :
    proxyForwardChunked alloc buf header.length true (takenAll receives) =
      ⟨.ok, header ++ wireBytes body.wire, []⟩ ↔
      (∀ w ∈ body.wire, w.line.length < 64) ∧ KeepsUp body.wire (buf.bytes.length - header.length) receives ∧
        RoomFor buf.bytes.length receives := by
  obtain ⟨hheader, ⟨rest, hrest⟩, hresponse, hreceives, hused, hint, hfits⟩ := h
  obtain ⟨bytes, size⟩ := buf
  dsimp only at hrest hresponse hused hint
  subst hrest
  have hnonempty : header ++ rest ≠ [] := fun hnil => hheader (append_eq_nil_iff.mp hnil).1
  have hrun : proxyForwardChunked alloc ⟨header ++ rest, size⟩ header.length true (takenAll receives) =
      forwardChunkedLoop alloc (takenAll receives) ⟨header ++ rest, size⟩ header.length
        (header ++ rest) := by
    rw [proxyForwardChunked, if_neg (by simp [hnonempty])]
  have hbody : rest ++ receives.flatten = wireBytes body.wire := by
    rw [append_assoc] at hresponse
    exact append_cancel_left hresponse
  rw [hrun]
  by_cases htotal : (wireBytes body.wire).length + header.length < 2 ^ 31
  · have hvalid := body.valid (Nat.lt_of_add_right_lt htotal)
    have hiff := forwardChunkedLoop_iff halloc receives header rest body.wire size hreceives hvalid
      body.terminated hbody hused hint hfits htotal
    rwa [show (header ++ rest).length - header.length = rest.length by
      rw [length_append, Nat.add_sub_cancel_left]]
  · -- a response that is too long goes through no buffer
    have hlong : 2 ^ 31 ≤ (header ++ wireBytes body.wire).length := by
      rw [length_append]
      omega
    refine iff_of_false (fun hok => ?_) fun hcond => ?_
    · have hlt := @length_sent_lt alloc receives ⟨header ++ rest, size⟩ header.length hused hint hfits
      rw [hok] at hlt
      exact absurd hlong (not_le.mpr hlt)
    · have hlt := total_lt_of_roomFor receives ⟨header ++ rest, size⟩ hused hint hfits hcond.2.2
      rw [hresponse] at hlt
      exact absurd hlong (not_le.mpr hlt)

/-! ### Small chunks -/

/-- The chunk `1\r\na\r\n`. -/
def oneByteChunk : BodyChunk where
  digits := [49]
  ext := []
  data := [97]
  digits_ne := cons_ne_nil 49 []
  hex := by decide +kernel
  ext_start := by decide
  ext_line := by decide
  size := by decide +kernel

def zeroChunk : BodyChunk where
  digits := [48]
  ext := []
  data := []
  digits_ne := cons_ne_nil 48 []
  hex := by decide +kernel
  ext_start := by decide
  ext_line := by decide
  size := by decide +kernel

/-- A body of `n` bytes, each in a chunk of its own. -/
def smallChunks (n : Nat) : ChunkedBody where
  chunks := List.replicate n oneByteChunk
  last := zeroChunk
  chunks_ne c hc := by
    rw [(mem_replicate.mp hc).2]
    exact cons_ne_nil 97 []
  last_eq := rfl

/-- The first chunk is split between two receives. -/
theorem proxyForwardChunked_iff_split :
    proxyForwardChunked (fun _ => 4096) ⟨ascii "H\r\n\r\n1\r\na", 256⟩ 5 true
      (takenAll [ascii "\r\n0\r\n\r\n"]) =
      ⟨.ok, ascii "H\r\n\r\n" ++ wireBytes (smallChunks 1).wire, []⟩ := by
  refine (@proxyForwardChunked_iff (fun _ => 4096) (fun n hn => by omega) (ascii "H\r\n\r\n") (smallChunks 1)
    ⟨ascii "H\r\n\r\n1\r\na", 256⟩ [ascii "\r\n0\r\n\r\n"] ?_).mpr ⟨?_, ?_, ?_⟩
  · refine ⟨by decide, by decide, by decide, by decide, by decide, by decide, ?_⟩
    intro buf' hensure
    have hgrown : bufferEnsure ⟨ascii "H\r\n\r\n1\r\na", 256⟩ 16384 =
        .ok ⟨ascii "H\r\n\r\n1\r\na", 16393⟩ := by
      decide +kernel
    rw [hgrown] at hensure
    cases hensure
    exact ⟨by decide, trivial⟩
  · decide
  · refine ⟨by decide, fun j hj => ?_⟩
    rw [length_singleton] at hj
    interval_cases j <;> decide
  · intro j hj
    rw [length_singleton] at hj
    interval_cases j
    decide

/-- Thirty-three chunks that arrive with the header: after the first 32 the function waits for more. -/
theorem proxyForwardChunked_waits :
    proxyForwardChunked (fun _ => 4096) ⟨ascii "H\r\n\r\n" ++ wireBytes (smallChunks 32).wire, 256⟩
      5 true [] = ⟨.waiting, ascii "H\r\n\r\n" ++ wireBytes (smallChunks 32).wire, []⟩ := by
  decide +kernel

end NsuLabs.HttpProxy
