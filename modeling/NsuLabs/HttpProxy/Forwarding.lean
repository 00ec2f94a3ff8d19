/-
Module: NsuLabs.HttpProxy.Forwarding
Purpose: `http_parse_chunks`, `http_find_header` and the two functions that use it
  (OS-Labs/11-http-proxy/http.c), with what they call of utils.c, buffer.h and the C library, and
  `proxy_send_response_from_host` (proxy.c) for one response: what the receives return, and whether the
  client takes what is sent to it; a receive that nothing is left for does not return. Sizes and addresses
  wrap around. Then one cache entry between its appending side and a client that
  `proxy_send_response_from_cache` serves, cut where the other side can come between: at the locked sections,
  and at each `client_send` of the reader, which keeps the appending side out.
Trusted boundary: Assertions are checked, as in the default build; a byte behind the end
  of a string literal differs from what it is compared with; `phr_parse_response` is a parameter; a receive
  returns no more than it is asked for, and a send takes no more than it is given; `realloc` succeeds if an
  `int` holds the size; a read in front of what `http_parse_chunks` is given is out of bounds;
  `cache_ensure_memory` leaves the data of the entry alone; a crash ends the program; a coroutine that waits
  goes on when it has been signalled
Main exports: httpParseChunks, proxySendResponseFromHost
-/
import NsuLabs.HttpProxy.Cache

namespace NsuLabs.HttpProxy

/-- A failed assertion, or memory that is not there. -/
inductive Crash where
  | assertion
  | outOfBounds
  | outOfMemory
deriving DecidableEq

/-- The value of an expression of type `size_t`, or of a pointer. -/
def wrap (x : Int) : Nat := (x % 2 ^ 64).toNat

def ascii (text : String) : Bytes := text.toList.map fun c => UInt8.ofNat c.toNat

/-! ### utils.c -/

def isSpace (c : UInt8) : Bool := c = 32 || (9 ≤ c && c ≤ 13)

def digitValue (c : UInt8) : Option Nat :=
  if 48 ≤ c && c ≤ 57 then some (c.toNat - 48)
  else if 97 ≤ c && c ≤ 122 then some (c.toNat - 87)
  else if 65 ≤ c && c ≤ 90 then some (c.toNat - 55)
  else none

/-- The number that starts with the digits of `v` and goes on with the digits at the start of the
    text. -/
def readDigits (base : Nat) : (text : Bytes) → (v : Nat) → Nat
  | [], v => v
  | c :: text, v =>
    match digitValue c with
    | some d => if d < base then readDigits base text (v * base + d) else v
    | none => v

def readSign : Bytes → Bool × Bytes
  | 43 :: text => (false, text)
  | 45 :: text => (true, text)
  | text => (false, text)

/-- `0x` in front of a hexadecimal number. -/
def skipHexMark (base : Nat) : Bytes → Bytes
  | 48 :: x :: text => if base = 16 ∧ (x = 120 ∨ x = 88) then text else 48 :: x :: text
  | text => text

/-- `strtoull`: a number that is too large becomes `ULLONG_MAX`, and a negative one wraps around. -/
def strtoull (text : Bytes) (base : Nat) : Nat :=
  let signed := readSign (text.dropWhile isSpace)
  let v := readDigits base (skipHexMark base signed.2) 0
  if v ≥ 2 ^ 64 then 2 ^ 64 - 1
  else if signed.1 then wrap (-v) else v

def strtoullN (text : Bytes) (base : Nat) : Except Crash Nat :=
  if text.length = 0 then .ok 0
  else if text.length < 64 then .ok (strtoull text base)
  else .error .assertion

/-! ### Chunks -/

/-- `memmem(text, length, "\r\n", 2)`: the position that is found. -/
def findCrlf : (text : Bytes) → Option Nat
  | 13 :: 10 :: _ => some 0
  | _ :: text => (findCrlf text).map (· + 1)
  | [] => none

/-- The length and the address of a chunk. -/
structure Chunk where
  len : Nat
  data : Nat
deriving DecidableEq

/-- The `n` bytes at the address `pos`, which must lie in the buffer. -/
def readFrom (buf : Nat) (bytes : Bytes) (pos n : Nat) : Except Crash Bytes :=
  if buf ≤ pos ∧ pos + n ≤ buf + bytes.length then .ok ((bytes.drop (pos - buf)).take n)
  else .error .outOfBounds

/-- The loop of `http_parse_chunks` with the elements of the array that are left: the chunks and the
    bytes consumed. -/
def parseChunksLoop (buf : Nat) (bytes : Bytes) :
    (slots : Nat) → (pos bytesConsumed : Nat) → Except Crash (List Chunk × Nat)
  | 0, _, bytesConsumed => .ok ([], bytesConsumed)
  | slots + 1, pos, bytesConsumed => do
      let rest ← readFrom buf bytes pos (wrap (bytes.length - bytesConsumed))
      match findCrlf rest with
      | none => .ok ([], bytesConsumed)
      | some i => do
          let len ← strtoullN (rest.take i) 16
          -- the address behind the chunk, compared with the end of the buffer after it has wrapped around
          if wrap (pos + i + 2 + len + 2) > wrap (buf + bytes.length) then .ok ([], bytesConsumed)
          else do
            let (chunks, consumed) ←
              parseChunksLoop buf bytes slots (wrap (pos + i + 2 + len + 2))
                (wrap (bytesConsumed + i + 2 + len + 2))
            .ok (⟨len, wrap (pos + i + 2)⟩ :: chunks, consumed)

/-- The `int` that is returned, and the chunks. -/
def httpParseChunks (maxChunks : Nat) (buf : Nat) (bytes : Bytes) : Except Crash (Int × List Chunk) :=
  (parseChunksLoop buf bytes maxChunks buf 0).map fun r => ((r.2 : Int).bmod (2 ^ 32), r.1)

/-! ### Headers -/

/-- A parsed header field. -/
structure Header where
  name : Bytes
  value : Bytes
deriving DecidableEq

/-- `strncmp(slice, str, slice_len) == 0`. -/
def strncmpEqual : (slice str : Bytes) → Bool
  | [], _ => true
  | c :: _, [] => c = 0
  | c :: slice, d :: str => c = d && strncmpEqual slice str

/-- `memcmp(slice, str, slice_len) == 0` with a string literal. -/
def memcmpEqual (slice str : Bytes) : Bool := slice.isPrefixOf (str ++ [0])

/-- The index of the header to which a pointer is returned. -/
def httpFindHeader (headers : List Header) (name : Bytes) : Option Nat :=
  headers.findIdx? fun header => strncmpEqual header.name name

def transferEncoding : Bytes := ascii "Transfer-Encoding"

def contentLength : Bytes := ascii "Content-Length"

/-- The value of the header with this index. -/
def valueAt (headers : List Header) (i : Nat) : Bytes := (headers[i]?.map Header.value).getD []

def httpResponseIsChunked (headers : List Header) : Bool :=
  match httpFindHeader headers transferEncoding with
  | none => false
  | some i => memcmpEqual (valueAt headers i) (ascii "chunked")

/-- `none` is the result `false`. -/
def httpGetContentLength (headers : List Header) : Except Crash (Option Nat) :=
  match httpFindHeader headers contentLength with
  | none => .ok none
  | some i => (strtoullN (valueAt headers i) 10).map some

example : httpParseChunks 32 4096 (ascii "3;a=b\r\nabc\r\n0\r\n\r\n5\r\nab") =
    .ok (17, [⟨3, 4103⟩, ⟨0, 4111⟩]) := by
  decide +kernel

/-! ### buffer.h -/

/-- The bytes up to `pos`, and the number of bytes up to `end`. -/
structure Buffer where
  bytes : Bytes
  size : Nat
deriving DecidableEq

def Buffer.init : Buffer := ⟨[], 0⟩

/-- The sizes are computed as `int`; a negative one is more than `realloc` can give. -/
def bufferEnsure (buf : Buffer) (size : Nat) : Except Crash Buffer :=
  if (buf.size : Int) - buf.bytes.length ≥ size then .ok buf
  else
    let sz := ((buf.size * 2 : Nat) : Int).bmod (2 ^ 32)
    let actual := ((buf.bytes.length + size : Nat) : Int).bmod (2 ^ 32)
    let sz := if actual > sz then actual else sz
    if sz < 0 then .error .outOfMemory
    else if sz - buf.bytes.length ≥ size then .ok { buf with size := sz.toNat }
    else .error .assertion

/-! ### The body -/

/-- What a receive returns, and whether the client takes it. No bytes stand for a closed socket or
    an error. -/
structure Arrival where
  bytes : Bytes
  taken : Bool
deriving DecidableEq

inductive ForwardResult where
  | ok
  | error
  /-- The receive does not return. -/
  | waiting
  | crashed (crash : Crash)
deriving DecidableEq

/-- How a forwarding function ends, what the client has taken (of a send that fails, nothing is
    counted), and what has not been received. -/
structure Forwarded where
  result : ForwardResult
  sent : Bytes
  rest : List Arrival
deriving DecidableEq

/-- The loop of `proxy_forward_chunked`; `alloc size` is the address of the buffer when it has that
    size. -/
def forwardChunkedLoop (alloc : Nat → Nat) (arrivals : List Arrival) (buf : Buffer) (nParsed : Nat)
    (sent : Bytes) : Forwarded :=
  if nParsed > buf.bytes.length then ⟨.crashed .outOfBounds, sent, arrivals⟩
  else
    match httpParseChunks 32 (alloc buf.size + nParsed) (buf.bytes.drop nParsed) with
    | .error crash => ⟨.crashed crash, sent, arrivals⟩
    | .ok (pret, chunks) =>
      if pret = -1 then ⟨.error, sent, arrivals⟩
      -- finish on zero chunk
      else if (chunks.getLast?.map Chunk.len) = some 0 then ⟨.ok, sent, arrivals⟩
      else
        match bufferEnsure buf 16384 with
        | .error crash => ⟨.crashed crash, sent, arrivals⟩
        | .ok buf =>
          match arrivals with
          | [] => ⟨.waiting, sent, []⟩
          | arrival :: rest =>
            if arrival.bytes = [] ∨ ¬ arrival.taken then ⟨.error, sent, rest⟩
            else
              forwardChunkedLoop alloc rest { buf with bytes := buf.bytes ++ arrival.bytes }
                (wrap (nParsed + pret)) (sent ++ arrival.bytes)

/-- The head is everything that was received with the header. -/
def proxyForwardChunked (alloc : Nat → Nat) (buf : Buffer) (headerLen : Nat) (headTaken : Bool)
    (arrivals : List Arrival) : Forwarded :=
  if buf.bytes = [] ∨ ¬ headTaken then ⟨.error, [], arrivals⟩
  else forwardChunkedLoop alloc arrivals buf headerLen buf.bytes

/-- The loop of `proxy_forward_fixed_len`. -/
def forwardFixedLoop (len : Nat) : (arrivals : List Arrival) → (totalSize : Nat) → (sent : Bytes) → Forwarded
  | [], totalSize, sent => if totalSize < len then ⟨.waiting, sent, []⟩ else ⟨.ok, sent, []⟩
  | arrival :: rest, totalSize, sent =>
    if totalSize < len then
      if arrival.bytes = [] ∨ ¬ arrival.taken then ⟨.error, sent, rest⟩
      else forwardFixedLoop len rest (wrap (totalSize + arrival.bytes.length)) (sent ++ arrival.bytes)
    else ⟨.ok, sent, arrival :: rest⟩

def proxyForwardFixedLen (buf : Buffer) (len : Nat) (headTaken : Bool) (arrivals : List Arrival) :
    Forwarded :=
  if buf.bytes = [] ∨ ¬ headTaken then ⟨.error, [], arrivals⟩
  else
    match bufferEnsure { buf with bytes := [] } 65536 with
    | .error crash => ⟨.crashed crash, buf.bytes, arrivals⟩
    | .ok _ => forwardFixedLoop len arrivals 0 buf.bytes

/-- The loop of `proxy_forward_till_sock_close`; a receive without bytes is the closed socket. -/
def forwardTillCloseLoop : (arrivals : List Arrival) → (sent : Bytes) → Forwarded
  | [], sent => ⟨.waiting, sent, []⟩
  | arrival :: rest, sent =>
    if arrival.bytes = [] then ⟨.ok, sent, rest⟩
    else if ¬ arrival.taken then ⟨.error, sent, rest⟩
    else forwardTillCloseLoop rest (sent ++ arrival.bytes)

def proxyForwardTillSockClose (buf : Buffer) (headTaken : Bool) (arrivals : List Arrival) : Forwarded :=
  if buf.bytes = [] ∨ ¬ headTaken then ⟨.error, [], arrivals⟩
  else
    match bufferEnsure { buf with bytes := [] } 65536 with
    | .error crash => ⟨.crashed crash, buf.bytes, arrivals⟩
    | .ok _ => forwardTillCloseLoop arrivals buf.bytes

/-! ### The header -/

/-- What the parser makes of the bytes so far. -/
inductive HeaderResult where
  | complete (headerLen : Nat) (headers : List Header)
  | failed
  | incomplete
deriving DecidableEq

/-- `http_parse_response`: the length of a complete header is that of a part of the buffer. -/
structure HeaderParser where
  parse : Bytes → HeaderResult
  inside : ∀ bytes headerLen headers, parse bytes = .complete headerLen headers →
    0 < headerLen ∧ headerLen ≤ bytes.length

/-- `proxy_recv_response_header` up to a complete header: the buffer, the header and what has not
    been received. -/
def proxyRecvResponseHeader (parser : HeaderParser) :
    (arrivals : List Arrival) → (buf : Buffer) →
      Except ForwardResult (Buffer × Nat × List Header × List Arrival)
  | [], buf =>
    match bufferEnsure buf 256 with
    | .error crash => .error (.crashed crash)
    | .ok _ => .error .waiting
  | arrival :: rest, buf =>
    match bufferEnsure buf 256 with
    | .error crash => .error (.crashed crash)
    | .ok buf =>
      if arrival.bytes = [] then .error .error
      else
        let buf := { buf with bytes := buf.bytes ++ arrival.bytes }
        match parser.parse buf.bytes with
        | .complete headerLen headers => .ok (buf, headerLen, headers, rest)
        | .failed => .error .error
        | .incomplete => proxyRecvResponseHeader parser rest buf

def proxySendResponseFromHost (alloc : Nat → Nat) (parser : HeaderParser) (headTaken : Bool)
    (arrivals : List Arrival) : Forwarded :=
  match proxyRecvResponseHeader parser arrivals .init with
  | .error result => ⟨result, [], []⟩
  | .ok (buf, headerLen, headers, arrivals) =>
    if httpResponseIsChunked headers then proxyForwardChunked alloc buf headerLen headTaken arrivals
    else
      match httpGetContentLength headers with
      | .error crash => ⟨.crashed crash, [], arrivals⟩
      | .ok (some contentLength) =>
        proxyForwardFixedLen buf (wrap (contentLength - (buf.bytes.length - headerLen : Nat)))
          headTaken arrivals
      | .ok none => proxyForwardTillSockClose buf headTaken arrivals

/-! ### Serving from the cache -/

/-- What the two sides share of a `cache_entry_t`. -/
structure SharedEntry where
  data : Buffer
  isFinished : Bool
  refCount : Nat
deriving DecidableEq

/-- Where the appending side is. -/
inductive Appender where
  /-- In front of a call of `cache_entry_append_data` or `cache_entry_finished`. -/
  | calling
  /-- Behind the locked section of a call, in front of its `client_cond_signal`; `last` for
      `cache_entry_finished`. -/
  | signalling (last : Bool)
  | done
deriving DecidableEq

/-- Where `proxy_send_response_from_cache` is. -/
inductive Reader where
  /-- In front of `cache_entry_read_begin`. -/
  | reading
  /-- In the loop of `client_send_all`, behind `sentSize` bytes of the chunk. -/
  | sending (totalDataLen sentSize : Nat)
  /-- In front of the first section of `cache_entry_wait`. -/
  | checking
  /-- In front of `client_cond_wait`. -/
  | registering
  /-- Among the waiters of `data_available`. -/
  | waiting
  /-- In front of the second section of `cache_entry_wait`. -/
  | waking
  /-- `true` stands for `OK` and `false` for `ERROR`. -/
  | returned (ok : Bool)
deriving DecidableEq

/-- Whether the reader has the entry read-locked: an error leaves without `cache_entry_read_end`. -/
def Reader.locks : Reader → Bool
  | .sending _ _ => true
  | .returned ok => !ok
  | _ => false

/-- How the program ends before the two sides do. -/
inductive Halt where
  | crash (crash : Crash)
  /-- The entry is destroyed although the reader has a reference to it. -/
  | destroyed
deriving DecidableEq

/-- One appending side and one reader of an entry. -/
structure Serving where
  entry : SharedEntry
  /-- The references of the map and of other readers. -/
  others : Nat
  appender : Appender
  reader : Reader
  sentTotal : Nat
  /-- What the client has been sent. -/
  sent : Bytes
  halted : Option Halt
deriving DecidableEq

/-- A new entry, which the reader has just been handed. -/
def Serving.initial (others : Nat) : Serving where
  entry := { data := .init, isFinished := false, refCount := others + 2 }
  others := others
  appender := .calling
  reader := .reading
  sentTotal := 0
  sent := []
  halted := none

/-! ### The appending side -/

/-- `buffer_ensure` takes the length as an `int`, and has room for any negative number of bytes. -/
def bufferEnsureLen (buf : Buffer) (len : Nat) : Except Crash Buffer :=
  if 2 ^ 31 ≤ len % 2 ^ 32 then .ok buf else bufferEnsure buf (len % 2 ^ 32)

/-- The locked section of `cache_entry_append_data`. -/
def appendSection (entry : SharedEntry) (bytes : Bytes) : Except Crash SharedEntry := do
  let data ← bufferEnsureLen entry.data bytes.length
  if data.size < data.bytes.length + bytes.length then .error .outOfBounds
  else return { entry with data := { data with bytes := data.bytes ++ bytes } }

def Serving.append (s : Serving) (bytes : Bytes) : Serving :=
  match appendSection s.entry bytes with
  | .error crash => { s with halted := some (.crash crash) }
  | .ok entry => { s with entry := entry, appender := .signalling false }

/-- `ref_count--`, with `cache_entry_destroy` when no reference is left. -/
def Serving.dropRef (s : Serving) : Serving :=
  if s.entry.refCount - 1 = 0 then { s with halted := some .destroyed }
  else { s with entry := { s.entry with refCount := s.entry.refCount - 1 } }

/-- The locked section of `cache_entry_finished`. -/
def Serving.finish (s : Serving) : Serving :=
  { s with entry := { s.entry with isFinished := true }, appender := .signalling true }.dropRef

/-- `client_cond_signal`: a reader that is on its way to the waiters is not woken up. -/
def Serving.signal (s : Serving) (last : Bool) : Serving :=
  { s with
    appender := if last then .done else .calling
    reader := if s.reader = .waiting then .waking else s.reader }

/-! ### The reader -/

/-- From `cache_entry_read_end` to the next place where the appending side can come between. -/
def Serving.readEnd (s : Serving) (totalDataLen : Nat) : Serving :=
  { s with reader := if s.sentTotal = totalDataLen then .checking else .reading }

/-- `cache_entry_read_begin` and `cache_entry_get_data`. -/
def Serving.readBegin (s : Serving) : Serving :=
  let totalDataLen := s.entry.data.bytes.length
  if totalDataLen < s.sentTotal then { s with halted := some (.crash .outOfBounds) }
  else if totalDataLen - s.sentTotal ≠ 0 then { s with reader := .sending totalDataLen 0 }
  else s.readEnd totalDataLen

/-- A `client_send` returns: `n` bytes, or none if the socket is closed or fails. -/
def Serving.clientSend (s : Serving) (totalDataLen sentSize n : Nat) : Serving :=
  let chunkSize := totalDataLen - s.sentTotal
  if n = 0 then { s with reader := .returned false }
  else
    let s := { s with sent := s.sent ++ (s.entry.data.bytes.drop (s.sentTotal + sentSize)).take n }
    if sentSize + n < chunkSize then { s with reader := .sending totalDataLen (sentSize + n) }
    else { s with sentTotal := s.sentTotal + chunkSize }.readEnd totalDataLen

/-- The first section of `cache_entry_wait`, and what follows when it is the last one. -/
def Serving.check (s : Serving) : Serving :=
  if s.entry.isFinished then
    { s with reader := if s.sentTotal = s.entry.data.bytes.length then .returned true else .reading }
  else { s with reader := .registering }

/-! ### The interleavings -/

/-- The steps of a reader and of what it runs beside. -/
inductive ServingEvent where
  | append (bytes : Bytes)
  | finish
  | signal
  /-- Somebody else gets a reference, or gives one back. -/
  | retain
  | release
  | readBegin
  | send (n : Nat)
  | check
  | register
  /-- The second section of `cache_entry_wait`. -/
  | wakeUp
deriving DecidableEq

/-- An event of the entry, if it can happen: nobody locks the entry for writing while the reader has
    it locked. -/
def Serving.step (s : Serving) (event : ServingEvent) : Option Serving :=
  if s.halted ≠ none then none
  else
    match event with
    | .append bytes => if s.appender = .calling ∧ ¬ s.reader.locks then some (s.append bytes) else none
    | .finish => if s.appender = .calling ∧ ¬ s.reader.locks then some s.finish else none
    | .signal =>
      match s.appender with
      | .signalling last => some (s.signal last)
      | _ => none
    | .retain =>
      if s.reader.locks then none
      else some { s with entry := { s.entry with refCount := s.entry.refCount + 1 }, others := s.others + 1 }
    | .release =>
      if s.reader.locks ∨ s.others = 0 then none else some { s with others := s.others - 1 }.dropRef
    | .readBegin => if s.reader = .reading then some s.readBegin else none
    | .send n =>
      match s.reader with
      | .sending totalDataLen sentSize =>
        if n ≤ totalDataLen - s.sentTotal - sentSize then some (s.clientSend totalDataLen sentSize n)
        else none
      | _ => none
    | .check => if s.reader = .checking then some s.check else none
    | .register => if s.reader = .registering then some { s with reader := .waiting } else none
    | .wakeUp => if s.reader = .waking then some { s with reader := .reading } else none

end NsuLabs.HttpProxy
