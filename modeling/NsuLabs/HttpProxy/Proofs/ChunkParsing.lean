/-
Module: NsuLabs.HttpProxy.Proofs.ChunkParsing
Purpose: Which header `http_find_header` finds, and what `http_parse_chunks` reads.
Trusted boundary: none
Main exports: httpFindHeader_eq_firstNamed_iff, httpParseChunks_sound_iff
-/
import NsuLabs.HttpProxy.Forwarding

namespace NsuLabs.HttpProxy

section

open List

def lowerCase (c : UInt8) : UInt8 := if 65 ≤ c && c ≤ 90 then c + 32 else c

/-- The names are equal up to the case of ASCII letters. -/
def sameName (a b : Bytes) : Bool := a.map lowerCase = b.map lowerCase

/-- The index of the first header with the name. -/
def firstNamed (headers : List Header) (name : Bytes) : Option Nat :=
  headers.findIdx? fun header => sameName header.name name

/-- The names that a comparison over the length of `short` takes for `name`: what `name` starts
    with, or `name` with a zero behind it. -/
def Abbreviates (short name : Bytes) : Prop := short <+: name ∨ name ++ [0] <+: short

/-- A header that is neither called `name` nor taken for it. -/
def Unrelated (header : Header) (name : Bytes) : Prop :=
  ¬ Abbreviates header.name name ∧ sameName header.name name = false

/-- The headers in front of the one that is spelled like `name` are unrelated to it, or all headers
    are. -/
def Spelled (headers : List Header) (name : Bytes) : Prop :=
  (∃ before header behind, headers = before ++ header :: behind ∧ header.name = name ∧
      ∀ h ∈ before, Unrelated h name) ∨
    ∀ h ∈ headers, Unrelated h name

theorem strncmpEqual_iff (slice str : Bytes) : strncmpEqual slice str = true ↔ Abbreviates slice str := by
  induction slice generalizing str with
  | nil => exact iff_of_true rfl (.inl nil_prefix)
  | cons c slice ih =>
    cases str with
    | nil =>
      rw [strncmpEqual, Abbreviates, nil_append, cons_prefix_cons, decide_eq_true_iff, prefix_nil]
      constructor
      · rintro rfl
        exact .inr ⟨rfl, nil_prefix⟩
      · rintro (h | ⟨h, -⟩)
        · cases h
        · exact h.symm
    | cons d str =>
      rw [strncmpEqual, Bool.and_eq_true, decide_eq_true_iff, ih, Abbreviates, Abbreviates, cons_append,
        cons_prefix_cons, cons_prefix_cons, eq_comm (a := d), ← and_or_left]

theorem sameName_iff_eq {short name : Bytes} (h : Abbreviates short name) :
    sameName short name = true ↔ short = name := by
  rw [sameName, decide_eq_true_iff]
  constructor
  · intro hsame
    have hlength : short.length = name.length := by
      rw [← length_map (f := lowerCase), hsame, length_map]
    rcases h with h | h
    · exact h.eq_of_length hlength
    · have hle := h.length_le
      rw [length_append, length_singleton] at hle
      omega
  · rintro rfl
    rfl

/-- Both searches stop at the same element, or neither stops. -/
def StopTogether {α : Type} (p q : α → Bool) (xs : List α) : Prop :=
  (∃ before x behind, xs = before ++ x :: behind ∧ (p x = true ∧ q x = true) ∧
    ∀ y ∈ before, p y = false ∧ q y = false) ∨
  ∀ y ∈ xs, p y = false ∧ q y = false

theorem stopTogether_cons {α : Type} {p q : α → Bool} {x : α} {xs : List α} :
    StopTogether p q (x :: xs) ↔ (p x = true ∧ q x = true) ∨ (p x = false ∧ q x = false) ∧
      StopTogether p q xs := by
  constructor
  · rintro (⟨_ | ⟨y, before⟩, z, behind, heq, hz, hbefore⟩ | hall)
    · obtain ⟨rfl, -⟩ := cons.inj heq
      exact .inl hz
    · obtain ⟨rfl, rfl⟩ := cons.inj heq
      obtain ⟨hx, hbefore⟩ := forall_mem_cons.mp hbefore
      exact .inr ⟨hx, .inl ⟨before, z, behind, rfl, hz, hbefore⟩⟩
    · obtain ⟨hx, hall⟩ := forall_mem_cons.mp hall
      exact .inr ⟨hx, .inr hall⟩
  · rintro (hx | ⟨hx, ⟨before, y, behind, rfl, hy, hbefore⟩ | hall⟩)
    · exact .inl ⟨[], x, xs, rfl, hx, forall_mem_nil _⟩
    · exact .inl ⟨x :: before, y, behind, rfl, hy, forall_mem_cons.mpr ⟨hx, hbefore⟩⟩
    · exact .inr (forall_mem_cons.mpr ⟨hx, hall⟩)

theorem findIdx?_eq_iff {α : Type} (p q : α → Bool) (xs : List α) :
    xs.findIdx? p = xs.findIdx? q ↔ StopTogether p q xs := by
  induction xs with
  | nil => exact iff_of_true rfl (.inr (forall_mem_nil _))
  | cons x xs ih =>
    have hmap := (Option.map_injective (add_left_injective 1)).eq_iff (a := xs.findIdx? p)
      (b := xs.findIdx? q)
    rw [findIdx?_cons, findIdx?_cons, stopTogether_cons, ← ih, ← hmap]
    cases p x <;> cases q x <;> simp [eq_comm]

/-- How the body is delimited, if the two headers are those with these indices. -/
def framedBy (headers : List Header) (encoding length : Option Nat) : Bool × Except Crash (Option Nat) :=
  (encoding.any fun i => memcmpEqual (valueAt headers i) (ascii "chunked"),
    length.elim (.ok none) fun i => (strtoullN (valueAt headers i) 10).map some)

theorem httpFindHeader_eq_iff (headers : List Header) (name : Bytes) :
    httpFindHeader headers name = firstNamed headers name ↔ Spelled headers name := by
  have hunrelated : ∀ h : Header, strncmpEqual h.name name = false ∧ sameName h.name name = false ↔
      Unrelated h name := by
    intro h
    rw [Unrelated, ← strncmpEqual_iff, Bool.not_eq_true]
  have hboth : ∀ h : Header, strncmpEqual h.name name = true ∧ sameName h.name name = true ↔
      h.name = name := by
    intro h
    rw [strncmpEqual_iff]
    constructor
    · rintro ⟨habbreviates, hsame⟩
      exact (sameName_iff_eq habbreviates).mp hsame
    · rintro rfl
      exact ⟨.inl prefix_rfl, (sameName_iff_eq (.inl prefix_rfl)).mpr rfl⟩
  rw [httpFindHeader, firstNamed, findIdx?_eq_iff, StopTogether, Spelled]
  simp only [hunrelated, hboth]

/-- How the first headers with the two names delimit the body. -/
def announced (headers : List Header) : Bool × Except Crash (Option Nat) :=
  framedBy headers (firstNamed headers transferEncoding) (firstNamed headers contentLength)

theorem framed_eq_announced {headers : List Header} (hencoding : Spelled headers transferEncoding)
    (hlength : Spelled headers contentLength) :
    (httpResponseIsChunked headers, httpGetContentLength headers) = announced headers := by
  rw [announced, framedBy, httpResponseIsChunked, httpGetContentLength,
    (httpFindHeader_eq_iff _ _).mpr hencoding, (httpFindHeader_eq_iff _ _).mpr hlength]
  rcases firstNamed headers transferEncoding <;> rcases firstNamed headers contentLength <;> rfl

/-- `http_find_header` finds the first header with the name exactly if that one is spelled like the
    name and nothing in front of it abbreviates the name. If this is so for both headers that
    delimit the body, they are the ones that are used. -/
theorem httpFindHeader_eq_firstNamed_iff (headers : List Header) :
    (∀ name, httpFindHeader headers name = firstNamed headers name ↔ Spelled headers name) ∧
      (Spelled headers transferEncoding → Spelled headers contentLength →
        (httpResponseIsChunked headers, httpGetContentLength headers) =
          framedBy headers (firstNamed headers transferEncoding) (firstNamed headers contentLength)) :=
  ⟨httpFindHeader_eq_iff headers, framed_eq_announced⟩

/-- A header in lower case is not found, and a body with a length is then not delimited by it. -/
theorem httpFindHeader_lowerCase :
    httpFindHeader [⟨ascii "content-length", ascii "5"⟩] contentLength ≠
        firstNamed [⟨ascii "content-length", ascii "5"⟩] contentLength ∧
      httpGetContentLength [⟨ascii "content-length", ascii "5"⟩] = .ok none := by
  decide +kernel

end

open List Option

/-! ### Chunks in the buffer -/

/-- A chunk in chunked encoding: the size line, the data and the two bytes behind them. -/
structure WireChunk where
  line : Bytes
  data : Bytes
  ending : Bytes

def WireChunk.encode (w : WireChunk) : Bytes := w.line ++ 13 :: 10 :: (w.data ++ w.ending)

def wireBytes (ws : List WireChunk) : Bytes := (ws.map WireChunk.encode).flatten

/-- The first `\r\n` behind the start of the line is the one that ends it. -/
def IsLine (line : Bytes) : Prop := findCrlf (line ++ [13, 10]) = some line.length

/-- What the parser relies on. -/
structure WireChunk.Valid (w : WireChunk) : Prop where
  line : IsLine w.line
  size : strtoull w.line 16 = w.data.length
  ending : w.ending.length = 2

/-- The chunk at the address `addr` is reported as `c`. -/
structure WireChunk.ReportedAs (w : WireChunk) (addr : Nat) (c : Chunk) : Prop where
  line : IsLine w.line
  size : strtoull w.line 16 = w.data.length
  ending : w.ending.length = 2
  len : c.len = w.data.length
  data : c.data = addr + w.line.length + 2

/-- The chunks from the address `addr` on are reported one by one. -/
inductive Reports : Nat → List WireChunk → List Chunk → Prop where
  | nil (addr : Nat) : Reports addr [] []
  | cons {addr : Nat} {w : WireChunk} {c : Chunk} {ws : List WireChunk} {cs : List Chunk} :
      w.ReportedAs addr c → Reports (addr + w.encode.length) ws cs → Reports addr (w :: ws) (c :: cs)

/-- What a caller of `http_parse_chunks` relies on. -/
structure ParsedSoundly (buf : Nat) (bytes : Bytes) (ret : Int) (chunks : List Chunk) : Prop where
  count : 0 ≤ ret ∧ ret ≤ bytes.length
  inside : ∀ c ∈ chunks, buf ≤ c.data ∧ c.data + c.len ≤ buf + bytes.length
  consumed : ∃ ws, Reports buf ws chunks ∧ bytes.take ret.toNat = wireBytes ws

/-- The chunks that are complete, at most `slots` of them, and the size line of the next one if it
    is looked at. -/
def exactParse : (slots : Nat) → (rest : Bytes) → List WireChunk × Option Bytes
  | 0, _ => ([], none)
  | slots + 1, rest =>
    match findCrlf rest with
    | none => ([], none)
    | some i =>
      let tail := rest.drop (i + 2)
      let size := strtoull (rest.take i) 16
      if size + 2 ≤ tail.length then
        let next := exactParse slots (tail.drop (size + 2))
        (⟨rest.take i, tail.take size, (tail.drop size).take 2⟩ :: next.1, next.2)
      else ([], some (rest.take i))

/-- The address behind the chunk with this size line, which starts at `addr`, does not wrap around;
    or it wraps to the byte behind the end of the buffer. -/
def DoesNotWrap (last addr : Nat) (line : Bytes) : Prop :=
  addr + line.length + 4 + strtoull line 16 < 2 ^ 64 ∨
    strtoull line 16 = 2 ^ 64 - 1 ∧ addr + line.length + 2 = last ∧ last + 1 < 2 ^ 64

/-- No size line is too long, and the one of an incomplete chunk does not make it look complete. -/
structure ReadsSafely (last addr slots : Nat) (rest : Bytes) : Prop where
  short : ∀ w ∈ (exactParse slots rest).1, w.line.length < 64
  next : ∀ line, (exactParse slots rest).2 = some line →
    line.length < 64 ∧ DoesNotWrap last (addr + (wireBytes (exactParse slots rest).1).length) line

/-! ### Lines -/

theorem findCrlf_cons (c : UInt8) (text : Bytes) :
    findCrlf (c :: text) = if c = 13 ∧ text.head? = some 10 then some 0
      else (findCrlf text).map (· + 1) := by
  rw [findCrlf.eq_def]
  split
  · rename_i heq
    obtain ⟨rfl, rfl⟩ := cons.inj heq
    rw [if_pos ⟨rfl, rfl⟩]
  · rename_i hnot heq
    obtain ⟨rfl, rfl⟩ := cons.inj heq
    rw [if_neg]
    rintro ⟨rfl, hhead⟩
    obtain ⟨tail, rfl⟩ := head?_eq_some_iff.mp hhead
    exact hnot tail rfl rfl
  · rename_i heq
    cases heq

variable {line : Bytes}

theorem isLine_cons {c : UInt8} (tail : Bytes) :
    IsLine (c :: line) ↔ ¬ (c = 13 ∧ (line ++ 13 :: 10 :: tail).head? = some 10) ∧ IsLine line := by
  have hhead : (line ++ 13 :: 10 :: tail).head? = (line ++ [13, 10]).head? := by cases line <;> rfl
  rw [IsLine, cons_append, findCrlf_cons, IsLine, hhead, length_cons]
  split
  · rename_i h
    exact iff_of_false (by simp) fun hnot => hnot.1 h
  · rename_i h
    rw [and_iff_right h, map_eq_some_iff]
    constructor
    · rintro ⟨i, hi, heq⟩
      rw [hi, Nat.succ.inj heq]
    · intro hline
      exact ⟨line.length, hline, rfl⟩

theorem findCrlf_append (h : IsLine line) (tail : Bytes) :
    findCrlf (line ++ 13 :: 10 :: tail) = some line.length := by
  induction line with
  | nil => rfl
  | cons c line ih =>
    obtain ⟨hfirst, hline⟩ := (isLine_cons tail).mp h
    rw [cons_append, findCrlf_cons, if_neg hfirst, ih hline]
    rfl

variable {rest : Bytes}

theorem findCrlf_eq_some {i : Nat} (h : findCrlf rest = some i) :
    ∃ line tail, rest = line ++ 13 :: 10 :: tail ∧ line.length = i ∧ IsLine line := by
  induction rest generalizing i with
  | nil => cases h
  | cons c rest ih =>
    rw [findCrlf_cons] at h
    split at h
    · rename_i hcrlf
      obtain ⟨rfl, hhead⟩ := hcrlf
      obtain ⟨tail, rfl⟩ := head?_eq_some_iff.mp hhead
      exact ⟨[], tail, rfl, some.inj h, rfl⟩
    · rename_i hcrlf
      obtain ⟨j, hj, rfl⟩ := map_eq_some_iff.mp h
      obtain ⟨line, tail, rfl, rfl, hline⟩ := ih hj
      exact ⟨c :: line, tail, rfl, rfl, (isLine_cons tail).mpr ⟨hcrlf, hline⟩⟩

/-! ### Sizes -/

theorem map_eq_ok {α β : Type} {x : Except Crash α} {f : α → β} {b : β} (h : x.map f = .ok b) :
    ∃ a, x = .ok a ∧ f a = b := by
  cases x with
  | error crash => cases h
  | ok a => exact ⟨a, rfl, Except.ok.inj h⟩

theorem wrap_natCast {n : Nat} (hn : n < 2 ^ 64) : wrap n = n := by
  rw [wrap, Int.emod_eq_of_lt (by omega) (by omega), Int.toNat_natCast]

theorem wrap_of_eq {x : Int} {n : Nat} (h : x = n) (hn : n < 2 ^ 64) : wrap x = n := h ▸ wrap_natCast hn

theorem wrap_lt (x : Int) : wrap x < 2 ^ 64 := by
  rw [wrap]
  omega

theorem strtoull_lt (text : Bytes) (base : Nat) : strtoull text base < 2 ^ 64 := by
  unfold strtoull
  extract_lets signed v
  split
  · decide
  · split
    · exact wrap_lt _
    · omega

theorem strtoullN_of_lt (h : line.length < 64) (base : Nat) :
    strtoullN line base = .ok (strtoull line base) := by
  rw [strtoullN, if_pos h]
  split
  · rename_i hempty
    rw [length_eq_zero_iff.mp hempty]
    rfl
  · rfl

theorem strtoullN_of_ge (h : 64 ≤ line.length) (base : Nat) : strtoullN line base = .error .assertion := by
  rw [strtoullN, if_neg (by omega), if_neg (by omega)]

theorem httpGetContentLength_lt {headers : List Header} {n : Nat}
    (h : httpGetContentLength headers = .ok (some n)) : n < 2 ^ 64 := by
  rw [httpGetContentLength] at h
  split at h
  · cases h
  case h_2 i hfind =>
    obtain ⟨v, hv, heq⟩ := map_eq_ok h
    cases heq
    rcases Nat.lt_or_ge (valueAt headers i).length 64 with hshort | hlong
    · cases (strtoullN_of_lt hshort 10).symm.trans hv
      exact strtoull_lt _ 10
    · cases (strtoullN_of_ge hlong 10).symm.trans hv

theorem length_encode (w : WireChunk) (h : w.ending.length = 2) :
    w.encode.length = w.line.length + 2 + w.data.length + 2 := by
  rw [WireChunk.encode, length_append, length_cons, length_cons, length_append, h]
  omega

theorem wireBytes_cons (w : WireChunk) (ws : List WireChunk) :
    wireBytes (w :: ws) = w.encode ++ wireBytes ws := rfl

variable {cs : List Chunk} {addr : Nat} {ws : List WireChunk}

theorem Reports.length_eq {ws' : List WireChunk} (h : Reports addr ws cs)
    (h' : Reports addr ws' cs) : (wireBytes ws).length = (wireBytes ws').length := by
  induction h generalizing ws' with
  | nil addr =>
    cases h'
    rfl
  | @cons addr w c ws cs hw _ ih =>
    cases h' with
    | @cons _ w' _ ws' _ hw' hrest =>
      have hsame : w.encode.length = w'.encode.length := by
        have hdata := hw.len.symm.trans hw'.len
        have haddr := hw.data.symm.trans hw'.data
        rw [length_encode w hw.ending, length_encode w' hw'.ending]
        omega
      rw [← hsame] at hrest
      rw [wireBytes_cons, wireBytes_cons, length_append, length_append, ih hrest, hsame]

theorem Reports.inside (h : Reports addr ws cs) :
    ∀ c ∈ cs, addr ≤ c.data ∧ c.data + c.len ≤ addr + (wireBytes ws).length := by
  induction h with
  | nil addr => exact fun c hc => absurd hc not_mem_nil
  | @cons addr w c ws cs hw _ ih =>
    intro c' hc'
    have hlen := length_encode w hw.ending
    rw [wireBytes_cons, length_append]
    rcases mem_cons.mp hc' with rfl | hc'
    · rw [hw.data, hw.len]
      omega
    · obtain ⟨hlower, hupper⟩ := ih c' hc'
      omega

theorem Reports.exists_cons {c : Chunk} (h : Reports addr ws (c :: cs)) :
    ∃ w ws', ws = w :: ws' ∧ addr + w.encode.length = c.data + c.len + 2 ∧
      Reports (addr + w.encode.length) ws' cs := by
  cases h with
  | @cons _ w _ ws' _ hw hrest =>
    refine ⟨w, ws', rfl, ?_, hrest⟩
    rw [length_encode w hw.ending, hw.data, hw.len]
    omega

/-! ### The exact parser -/

/-- A text has no size line, or starts with that of an incomplete chunk, or with a complete chunk. -/
theorem text_cases (rest : Bytes) :
    findCrlf rest = none ∨
      (∃ line tail, rest = line ++ 13 :: 10 :: tail ∧ IsLine line ∧ tail.length < strtoull line 16 + 2) ∨
      ∃ (w : WireChunk) (more : Bytes), rest = w.encode ++ more ∧ w.Valid := by
  rcases hcrlf : findCrlf rest with _ | i
  · exact .inl rfl
  · obtain ⟨line, tail, rfl, -, hline⟩ := findCrlf_eq_some hcrlf
    right
    rcases Nat.lt_or_ge tail.length (strtoull line 16 + 2) with hbig | hfull
    · exact .inl ⟨line, tail, rfl, hline, hbig⟩
    · refine .inr ⟨⟨line, tail.take (strtoull line 16), (tail.drop (strtoull line 16)).take 2⟩,
        tail.drop (strtoull line 16 + 2), ?_, hline, ?_, ?_⟩
      · rw [WireChunk.encode, append_assoc, cons_append, cons_append, append_assoc,
          ← drop_drop, take_append_drop, take_append_drop]
      · exact (length_take_of_le (Nat.le_of_add_right_le hfull)).symm
      · rw [length_take, length_drop]
        omega

section

variable {last addr : Nat} (slots : Nat) {line tail rest more : Bytes} {w : WireChunk}

theorem exactParse_none (h : findCrlf rest = none) : exactParse (slots + 1) rest = ([], none) := by
  rw [exactParse, h]

theorem exactParse_incomplete (hline : IsLine line) (hbig : tail.length < strtoull line 16 + 2) :
    exactParse (slots + 1) (line ++ 13 :: 10 :: tail) = ([], some line) := by
  have htail : (line ++ 13 :: 10 :: tail).drop (line.length + 2) = tail := by
    rw [drop_length_add_append]
    rfl
  rw [exactParse, findCrlf_append hline]
  simp only [take_left, htail, if_neg (Nat.not_le.mpr hbig)]

theorem exactParse_chunk (hw : w.Valid) (more : Bytes) :
    exactParse (slots + 1) (w.encode ++ more) =
      (w :: (exactParse slots more).1, (exactParse slots more).2) := by
  have hsplit : w.encode ++ more = w.line ++ 13 :: 10 :: (w.data ++ (w.ending ++ more)) := by
    rw [WireChunk.encode, append_assoc, cons_append, cons_append, append_assoc]
  have htail : (w.line ++ 13 :: 10 :: (w.data ++ (w.ending ++ more))).drop (w.line.length + 2) =
      w.data ++ (w.ending ++ more) := by
    rw [drop_length_add_append]
    rfl
  have hmore : (w.data ++ (w.ending ++ more)).drop (w.data.length + 2) = more := by
    rw [drop_length_add_append, ← hw.ending, drop_left]
  have hending : (w.ending ++ more).take 2 = w.ending := by rw [← hw.ending, take_left]
  have hfull : w.data.length + 2 ≤ (w.data ++ (w.ending ++ more)).length := by
    rw [length_append, length_append, hw.ending]
    omega
  rw [hsplit, exactParse, findCrlf_append hw.line]
  simp only [take_left, htail, hw.size, if_pos hfull, hmore, drop_left, hending]

theorem readsSafely_none (h : (exactParse slots rest) = ([], none)) : ReadsSafely last addr slots rest := by
  constructor <;> rw [h]
  · exact fun w hw => absurd hw not_mem_nil
  · rintro line ⟨⟩

theorem readsSafely_incomplete (hline : IsLine line) (hbig : tail.length < strtoull line 16 + 2) :
    ReadsSafely last addr (slots + 1) (line ++ 13 :: 10 :: tail) ↔
      line.length < 64 ∧ DoesNotWrap last addr line := by
  have hparse := exactParse_incomplete slots hline hbig
  constructor
  · rintro ⟨-, hnext⟩
    rw [hparse] at hnext
    exact hnext line rfl
  · intro hsafe
    constructor <;> rw [hparse]
    · exact fun w hw => absurd hw not_mem_nil
    · rintro _ ⟨⟩
      exact hsafe

theorem readsSafely_chunk (hw : w.Valid) :
    ReadsSafely last addr (slots + 1) (w.encode ++ more) ↔
      w.line.length < 64 ∧ ReadsSafely last (addr + w.encode.length) slots more := by
  constructor
  · rintro ⟨hshort, hnext⟩
    rw [exactParse_chunk slots hw] at hshort hnext
    refine ⟨hshort w mem_cons_self, fun w' hw' => hshort w' (mem_cons_of_mem w hw'), fun line hline => ?_⟩
    have hline := hnext line hline
    rwa [wireBytes_cons, length_append, ← Nat.add_assoc] at hline
  · rintro ⟨hfirst, hshort, hnext⟩
    constructor <;> rw [exactParse_chunk slots hw]
    · exact forall_mem_cons.mpr ⟨hfirst, hshort⟩
    · intro line hline
      rw [wireBytes_cons, length_append, ← Nat.add_assoc]
      exact hnext line hline

end

/-! ### The loop -/

theorem wrap_gt_iff {last : Nat} (hlast : last < 2 ^ 64) (hinside : addr + line.length + 2 ≤ last)
    (hbig : last < addr + line.length + 2 + strtoull line 16 + 2) :
    wrap ((addr : Int) + line.length + 2 + strtoull line 16 + 2) > last ↔ DoesNotWrap last addr line := by
  have hsize := strtoull_lt line 16
  rw [DoesNotWrap]
  generalize strtoull line 16 = size at hbig hsize ⊢
  generalize line.length = n at hinside hbig ⊢
  by_cases hsum : addr + n + 4 + size < 2 ^ 64
  · have hwrap : wrap ((addr : Int) + n + 2 + size + 2) = addr + n + 4 + size := by
      rw [wrap]
      omega
    exact iff_of_true (by omega) (.inl hsum)
  · -- twice around the address space only at its very end
    have hwrap : wrap ((addr : Int) + n + 2 + size + 2) = (addr + n + 4 + size - 2 ^ 64) % 2 ^ 64 := by
      rw [wrap]
      omega
    rw [hwrap]
    omega

section

variable {buf : Nat} {bytes : Bytes} (hfits : buf + bytes.length < 2 ^ 64) {front : Bytes} (slots : Nat)
include hfits

/-- A pass from the end of a complete chunk searches everything behind it. -/
theorem readFrom_rest (hbytes : bytes = front ++ rest) :
    readFrom buf bytes (buf + front.length) (wrap ((bytes.length : Int) - front.length)) = .ok rest := by
  have hlength : bytes.length = front.length + rest.length := by rw [hbytes, length_append]
  have hwrap : wrap ((bytes.length : Int) - front.length) = rest.length := wrap_of_eq (by omega) (by omega)
  rw [hwrap, readFrom, if_pos ⟨by omega, by omega⟩, Nat.add_sub_cancel_left, hbytes, drop_left, take_length]

theorem parseChunksLoop_none (hbytes : bytes = front ++ rest) (h : findCrlf rest = none) :
    parseChunksLoop buf bytes (slots + 1) (buf + front.length) front.length = .ok ([], front.length) := by
  rw [parseChunksLoop, readFrom_rest hfits hbytes]
  simp only [bind, Except.bind, h]

variable {tail : Bytes}

theorem parseChunksLoop_line (hbytes : bytes = front ++ (line ++ 13 :: 10 :: tail))
    (hline : IsLine line) :
    parseChunksLoop buf bytes (slots + 1) (buf + front.length) front.length =
      (strtoullN line 16).bind fun len =>
        if wrap ((buf + front.length : Nat) + line.length + 2 + len + 2) > buf + bytes.length then
          .ok ([], front.length)
        else
          (parseChunksLoop buf bytes slots (wrap ((buf + front.length : Nat) + line.length + 2 + len + 2))
            (wrap (front.length + line.length + 2 + len + 2))).map fun r =>
              (⟨len, buf + front.length + line.length + 2⟩ :: r.1, r.2) := by
  have hlength : bytes.length = front.length + (line.length + (tail.length + 1 + 1)) := by
    rw [hbytes, length_append, length_append, length_cons, length_cons]
  have hlast : wrap ((buf : Int) + bytes.length) = buf + bytes.length := wrap_of_eq (by omega) hfits
  have hdata : wrap (((buf + front.length : Nat) : Int) + line.length + 2) =
      buf + front.length + line.length + 2 :=
    wrap_of_eq (by omega) (by omega)
  rw [parseChunksLoop, readFrom_rest hfits hbytes]
  simp only [bind, Except.bind, findCrlf_append hline, take_left, hlast, hdata]
  cases strtoullN line 16 with
  | error crash => rfl
  | ok len =>
    simp only
    split
    · rfl
    · cases parseChunksLoop buf bytes slots _ _ with
      | error crash => rfl
      | ok r => rfl

/-- A size line that is too long stops the program. -/
theorem parseChunksLoop_long (hbytes : bytes = front ++ (line ++ 13 :: 10 :: tail))
    (hline : IsLine line) (hlong : 64 ≤ line.length) :
    parseChunksLoop buf bytes (slots + 1) (buf + front.length) front.length = .error .assertion := by
  rw [parseChunksLoop_line hfits slots hbytes hline, strtoullN_of_ge hlong]
  rfl

/-- A complete chunk. -/
theorem parseChunksLoop_chunk {w : WireChunk} (hbytes : bytes = front ++ (w.encode ++ rest))
    (hw : w.Valid) (hshort : w.line.length < 64) :
    parseChunksLoop buf bytes (slots + 1) (buf + front.length) front.length =
      (parseChunksLoop buf bytes slots (buf + (front ++ w.encode).length) (front ++ w.encode).length).map
        fun r =>
        (⟨w.data.length, buf + front.length + w.line.length + 2⟩ :: r.1, r.2) := by
  have hencode := length_encode w hw.ending
  have hlength : bytes.length = (front ++ w.encode).length + rest.length := by
    rw [hbytes, ← append_assoc, length_append]
  have hfront : (front ++ w.encode).length = front.length + w.encode.length := length_append
  have hpos : wrap (((buf + front.length : Nat) : Int) + w.line.length + 2 + w.data.length + 2) =
      buf + (front ++ w.encode).length := wrap_of_eq (by omega) (by omega)
  have hconsumed : wrap ((front.length : Int) + w.line.length + 2 + w.data.length + 2) =
      (front ++ w.encode).length :=
    wrap_of_eq (by omega) (by omega)
  have hsplit : bytes = front ++ (w.line ++ 13 :: 10 :: (w.data ++ w.ending ++ rest)) := by
    rw [hbytes, WireChunk.encode, append_assoc, cons_append, cons_append]
  rw [parseChunksLoop_line hfits slots hsplit hw.line, strtoullN_of_lt hshort, hw.size]
  simp only [Except.bind, hpos, hconsumed]
  rw [if_neg (by omega)]

/-- The size line of an incomplete chunk. -/
theorem parseChunksLoop_incomplete (hbytes : bytes = front ++ (line ++ 13 :: 10 :: tail))
    (hline : IsLine line) (hshort : line.length < 64) (hbig : tail.length < strtoull line 16 + 2)
    (hwrap : DoesNotWrap (buf + bytes.length) (buf + front.length) line) :
    parseChunksLoop buf bytes (slots + 1) (buf + front.length) front.length = .ok ([], front.length) := by
  have hlength : bytes.length = front.length + (line.length + (tail.length + 1 + 1)) := by
    rw [hbytes, length_append, length_append, length_cons, length_cons]
  rw [parseChunksLoop_line hfits slots hbytes hline, strtoullN_of_lt hshort]
  simp only [Except.bind]
  rw [if_pos ((wrap_gt_iff hfits (by omega) (by omega)).mpr hwrap)]

/-- The loop finds the chunks that the exact parser finds. -/
theorem parseChunksLoop_exact (slots : Nat) : ∀ (front rest : Bytes), bytes = front ++ rest →
    ReadsSafely (buf + bytes.length) (buf + front.length) slots rest →
    ∃ chunks, parseChunksLoop buf bytes slots (buf + front.length) front.length =
        .ok (chunks, front.length + (wireBytes (exactParse slots rest).1).length) ∧
      Reports (buf + front.length) (exactParse slots rest).1 chunks := by
  induction slots with
  | zero => exact fun front rest _ _ => ⟨[], rfl, .nil _⟩
  | succ slots ih =>
    intro front rest hbytes hsafe
    rcases text_cases rest with hcrlf | ⟨line, tail, rfl, hline, hbig⟩ | ⟨w, more, rfl, hw⟩
    · rw [exactParse_none slots hcrlf]
      exact ⟨[], parseChunksLoop_none hfits slots hbytes hcrlf, .nil _⟩
    · obtain ⟨hshort, hwrap⟩ := (readsSafely_incomplete slots hline hbig).mp hsafe
      rw [exactParse_incomplete slots hline hbig]
      exact ⟨[], parseChunksLoop_incomplete hfits slots hbytes hline hshort hbig hwrap, .nil _⟩
    · obtain ⟨hshort, hnext⟩ := (readsSafely_chunk slots hw).mp hsafe
      rw [Nat.add_assoc, ← length_append] at hnext
      obtain ⟨chunks, hrun, hreports⟩ := ih (front ++ w.encode) more (by rw [hbytes, append_assoc]) hnext
      have hlength (ws : List WireChunk) : (front ++ w.encode).length + (wireBytes ws).length =
          front.length + (wireBytes (w :: ws)).length := by
        rw [wireBytes_cons, length_append, length_append, Nat.add_assoc]
      rw [exactParse_chunk slots hw, parseChunksLoop_chunk hfits slots hbytes hw hshort, hrun, hlength]
      refine ⟨⟨w.data.length, buf + front.length + w.line.length + 2⟩ :: chunks, rfl, ?_⟩
      rw [length_append, ← Nat.add_assoc] at hreports
      exact .cons ⟨hw.line, hw.size, hw.ending, rfl, rfl⟩ hreports

/-- Where the chunks that were reported lie one behind the other in the buffer, nothing has wrapped
    around. -/
theorem readsSafely_of_reports (slots : Nat) : ∀ (front rest : Bytes) (chunks : List Chunk) (consumed : Nat)
    (ws : List WireChunk), bytes = front ++ rest →
    parseChunksLoop buf bytes slots (buf + front.length) front.length = .ok (chunks, consumed) →
    Reports (buf + front.length) ws chunks → front.length + (wireBytes ws).length ≤ bytes.length →
    ReadsSafely (buf + bytes.length) (buf + front.length) slots rest := by
  induction slots with
  | zero => exact fun front rest _ _ _ _ _ _ _ => readsSafely_none 0 rfl
  | succ slots ih =>
    intro front rest chunks consumed ws hbytes hrun hreports hinside
    rcases text_cases rest with hcrlf | ⟨line, tail, rfl, hline, hbig⟩ | ⟨w, more, rfl, hw⟩
    · exact readsSafely_none _ (exactParse_none slots hcrlf)
    · have hlength : bytes.length = front.length + (line.length + (tail.length + 1 + 1)) := by
        rw [hbytes, length_append, length_append, length_cons, length_cons]
      have hshort : line.length < 64 := by
        by_contra hlong
        rw [parseChunksLoop_long hfits slots hbytes hline (by omega)] at hrun
        cases hrun
      refine (readsSafely_incomplete slots hline hbig).mpr ⟨hshort, ?_⟩
      rw [← wrap_gt_iff hfits (by omega) (by omega)]
      by_contra hnot
      rw [parseChunksLoop_line hfits slots hbytes hline, strtoullN_of_lt hshort] at hrun
      simp only [Except.bind] at hrun
      rw [if_neg hnot] at hrun
      obtain ⟨⟨chunks', consumed'⟩, -, hresult⟩ := map_eq_ok hrun
      cases hresult
      -- the reported chunk would end behind the end of the buffer
      obtain ⟨w', ws', rfl, hend, -⟩ := hreports.exists_cons
      rw [wireBytes_cons, length_append] at hinside
      dsimp only at hend
      omega
    · have hencode := length_encode w hw.ending
      have hshort : w.line.length < 64 := by
        by_contra hlong
        rw [WireChunk.encode, append_assoc, cons_append, cons_append] at hbytes
        rw [parseChunksLoop_long hfits slots hbytes hw.line (by omega)] at hrun
        cases hrun
      rw [parseChunksLoop_chunk hfits slots hbytes hw hshort] at hrun
      obtain ⟨⟨chunks', consumed'⟩, hmore, hresult⟩ := map_eq_ok hrun
      cases hresult
      obtain ⟨w', ws', rfl, hend, hreports'⟩ := hreports.exists_cons
      have hsame : w'.encode.length = w.encode.length := by
        dsimp only at hend
        omega
      rw [wireBytes_cons, length_append, hsame] at hinside
      rw [hsame, Nat.add_assoc, ← length_append] at hreports'
      refine (readsSafely_chunk slots hw).mpr ⟨hshort, ?_⟩
      rw [Nat.add_assoc, ← length_append]
      exact ih _ _ _ _ _ (by rw [hbytes, append_assoc]) hmore hreports' (by rw [length_append]; omega)

end

/-! ### The result -/

/-- A buffer in memory: the address behind its end is an address. -/
structure ByteBuffer where
  start : Nat
  bytes : Bytes
  fits : start + bytes.length < 2 ^ 64

theorem bmod_eq_self_iff (n : Nat) : (n : Int).bmod (2 ^ 32) = n ↔ n < 2 ^ 31 := by
  rw [Int.bmod_def]
  simp only [Nat.reducePow, Nat.cast_ofNat, Int.reduceAdd, Int.reduceDiv]
  omega

/-- The bytes of the chunks that the exact parser finds are those at the start of the text. -/
theorem wireBytes_exactParse (slots : Nat) (rest : Bytes) :
    rest.take (wireBytes (exactParse slots rest).1).length = wireBytes (exactParse slots rest).1 := by
  induction slots generalizing rest with
  | zero => rfl
  | succ slots ih =>
    rcases text_cases rest with hcrlf | ⟨line, tail, rfl, hline, hbig⟩ | ⟨w, more, rfl, hw⟩
    · rw [exactParse_none slots hcrlf]
      rfl
    · rw [exactParse_incomplete slots hline hbig]
      rfl
    · rw [exactParse_chunk slots hw, wireBytes_cons, length_append, take_length_add_append, ih]

/-- The result of `http_parse_chunks` is sound exactly if the size lines are read safely and an
    `int` holds the number of bytes that are consumed. -/
theorem httpParseChunks_sound_iff (maxChunks : Nat) (buf : ByteBuffer) :
    (∃ ret chunks, httpParseChunks maxChunks buf.start buf.bytes = .ok (ret, chunks) ∧
        ParsedSoundly buf.start buf.bytes ret chunks) ↔
      ReadsSafely (buf.start + buf.bytes.length) buf.start maxChunks buf.bytes ∧
        (wireBytes (exactParse maxChunks buf.bytes).1).length < 2 ^ 31 := by
  obtain ⟨start, bytes, hfits⟩ := buf
  dsimp only
  constructor
  · rintro ⟨ret, chunks, hrun, hcount, -, ws, hreports, hconsumed⟩
    rw [httpParseChunks] at hrun
    obtain ⟨⟨chunks', consumed⟩, hloop, hresult⟩ := map_eq_ok hrun
    obtain ⟨hret, hchunks⟩ := Prod.mk.inj hresult
    dsimp only at hret hchunks
    subst hchunks
    have hlength : (wireBytes ws).length = ret.toNat := by
      rw [← hconsumed, length_take]
      omega
    have hsafe := readsSafely_of_reports hfits maxChunks [] bytes _ _ ws rfl hloop hreports
      (by rw [length_nil]; omega)
    obtain ⟨chunks₁, hloop₁, hreports₁⟩ := parseChunksLoop_exact hfits maxChunks [] bytes rfl hsafe
    rw [length_nil, Nat.add_zero, Nat.zero_add] at hloop₁
    rw [length_nil, Nat.add_zero] at hreports₁ hsafe
    rw [hloop₁] at hloop
    cases hloop
    refine ⟨hsafe, (bmod_eq_self_iff _).mp ?_⟩
    rw [hreports.length_eq hreports₁] at hlength
    rw [hret]
    omega
  · rintro ⟨hsafe, hint⟩
    obtain ⟨chunks, hloop, hreports⟩ := parseChunksLoop_exact hfits maxChunks [] bytes rfl hsafe
    rw [length_nil, Nat.add_zero, Nat.zero_add] at hloop
    rw [length_nil, Nat.add_zero] at hreports
    have htake := wireBytes_exactParse maxChunks bytes
    have hle : (wireBytes (exactParse maxChunks bytes).1).length ≤ bytes.length := by
      rw [← htake]
      exact length_take_le' _ _
    refine ⟨(wireBytes (exactParse maxChunks bytes).1).length, chunks, ?_, ⟨by omega, by omega⟩, ?_,
      (exactParse maxChunks bytes).1, hreports, ?_⟩
    · rw [httpParseChunks, hloop]
      exact congrArg (fun ret => Except.ok (ret, chunks)) ((bmod_eq_self_iff _).mpr hint)
    · intro c hc
      obtain ⟨hlower, hupper⟩ := hreports.inside c hc
      exact ⟨hlower, by omega⟩
    · rw [Int.toNat_natCast, htake]

/-- The size line `fffffffffffffffc` makes the address behind the chunk wrap around to the end of
    the line. -/
theorem httpParseChunks_not_sound :
    ¬ ∃ ret chunks, httpParseChunks 32 4096 (ascii "fffffffffffffffc\r\n") = .ok (ret, chunks) ∧
      ParsedSoundly 4096 (ascii "fffffffffffffffc\r\n") ret chunks := by
  have hrun : httpParseChunks 32 4096 (ascii "fffffffffffffffc\r\n") = .ok (16, [⟨2 ^ 64 - 4, 4114⟩]) := by
    decide +kernel
  rintro ⟨ret, chunks, heq, -, hinside, -⟩
  rw [hrun] at heq
  cases heq
  exact absurd (hinside _ mem_cons_self).2 (by decide)

end NsuLabs.HttpProxy
