/-
Module: NsuLabs.HttpProxy.Proofs.FixedLength
Purpose: When a client gets the header of a response and as many bytes as its Content-Length header
  announces.
Trusted boundary: none
Main exports: proxySendResponseFromHost_exact_iff
-/
import NsuLabs.HttpProxy.Proofs.ChunkParsing

namespace NsuLabs.HttpProxy

open List

def received (arrivals : List Arrival) : Bytes := (arrivals.map Arrival.bytes).flatten

/-- The count of received bytes is below `len` before each of these receives and not below it behind
    the last one, and the client takes all of them. -/
def Reaches (len : Nat) : (total : Nat) → List Arrival → Prop
  | total, [] => len ≤ total
  | total, arrival :: front =>
    total < len ∧ arrival.bytes ≠ [] ∧ arrival.taken = true ∧
      Reaches len (wrap (total + arrival.bytes.length)) front

theorem received_cons (arrival : Arrival) (rest : List Arrival) :
    received (arrival :: rest) = arrival.bytes ++ received rest := rfl

theorem received_append (front rest : List Arrival) :
    received (front ++ rest) = received front ++ received rest := by
  rw [received, map_append, flatten_append, received, received]

/-! ### The loop -/

section

variable {len : Nat}

theorem forwardFixedLoop_of_reaches (front : List Arrival) :
    ∀ (total : Nat) (sent : Bytes) (rest : List Arrival),
    Reaches len total front →
      forwardFixedLoop len (front ++ rest) total sent = ⟨.ok, sent ++ received front, rest⟩ := by
  induction front with
  | nil =>
    intro total sent rest hlen
    rw [nil_append, received, map_nil, flatten_nil, append_nil]
    cases rest with
    | nil | cons arrival rest => rw [forwardFixedLoop, if_neg (not_lt.mpr hlen)]
  | cons arrival front ih =>
    rintro total sent rest ⟨hlt, hbytes, htaken, hfront⟩
    rw [cons_append, forwardFixedLoop, if_pos hlt, if_neg (by simp [hbytes, htaken]), ih _ _ _ hfront,
      received_cons, append_assoc]

theorem forwardFixedLoop_ok (arrivals : List Arrival) : ∀ (total : Nat) (sent : Bytes),
    (forwardFixedLoop len arrivals total sent).result = .ok →
      ∃ front rest, arrivals = front ++ rest ∧ Reaches len total front := by
  induction arrivals with
  | nil =>
    intro total sent h
    rw [forwardFixedLoop] at h
    split at h
    · cases h
    · exact ⟨[], [], rfl, not_lt.mp ‹_›⟩
  | cons arrival arrivals ih =>
    intro total sent h
    rw [forwardFixedLoop] at h
    split at h
    · rename_i hlt
      split at h
      · cases h
      · rename_i htaken
        rw [not_or, not_not] at htaken
        obtain ⟨front, rest, rfl, hfront⟩ := ih _ _ h
        exact ⟨arrival :: front, rest, rfl, hlt, htaken.1, htaken.2, hfront⟩
    · exact ⟨[], arrival :: arrivals, rfl, not_lt.mp ‹_›⟩

end

/-! ### The buffer -/

theorem bufferEnsure_bytes {buf buf' : Buffer} {size : Nat} (h : bufferEnsure buf size = .ok buf') :
    buf'.bytes = buf.bytes := by
  unfold bufferEnsure at h
  extract_lets sz actual sz' at h
  split at h
  · cases h
    rfl
  · split at h
    · cases h
    · split at h
      · cases h
        rfl
      · cases h

theorem bmod_of_lt {n : Nat} (hn : n < 2 ^ 32) :
    (n : Int).bmod (2 ^ 32) = if n < 2 ^ 31 then (n : Int) else n - 2 ^ 32 := by
  rw [Int.bmod_def]
  simp only [Nat.reducePow, Nat.cast_ofNat, Int.reduceAdd, Int.reduceDiv]
  split <;> split <;> omega

/-- Room for `size` more bytes, as long as an `int` holds the sum. -/
theorem bufferEnsure_spec {buf : Buffer} {size : Nat} (hused : buf.bytes.length ≤ buf.size)
    (hint : buf.size < 2 ^ 31) (hsize : size ≤ 2 ^ 30) :
    bufferEnsure buf size = .error .outOfMemory ∧ 2 ^ 31 ≤ buf.bytes.length + size ∨
      ∃ size', bufferEnsure buf size = .ok { buf with size := size' } ∧ buf.bytes.length + size ≤ size' ∧
        size' < 2 ^ 31 := by
  have hdouble : buf.size * 2 < 2 ^ 32 := by omega
  have hactual : buf.bytes.length + size < 2 ^ 32 := by omega
  rw [bufferEnsure]
  by_cases hroom : (buf.size : Int) - buf.bytes.length ≥ size
  · rw [if_pos hroom]
    exact .inr ⟨buf.size, rfl, by omega, hint⟩
  · rw [if_neg hroom, bmod_of_lt hdouble, bmod_of_lt hactual]
    by_cases hsum : buf.bytes.length + size < 2 ^ 31
    · -- the larger one of the two sizes has room
      have hgrow : ∀ sz : Int, (buf.bytes.length + size : Nat) ≤ sz → sz < 2 ^ 31 → ∃ size',
          (if sz < 0 then .error .outOfMemory
            else if sz - buf.bytes.length ≥ size then .ok { buf with size := sz.toNat }
            else (.error .assertion : Except Crash Buffer)) = .ok { buf with size := size' } ∧
            buf.bytes.length + size ≤ size' ∧ size' < 2 ^ 31 := by
        intro sz hlower hupper
        refine ⟨sz.toNat, ?_, by omega, by omega⟩
        rw [if_neg (by omega), if_pos (by omega)]
      rw [if_pos hsum]
      refine .inr (hgrow _ ?_ ?_)
      · split <;> split <;> omega
      · split <;> split <;> omega
    · refine .inl ⟨?_, by omega⟩
      rw [if_neg hsum, if_neg (by omega : ¬ buf.size * 2 < 2 ^ 31)]
      refine if_pos ?_
      split <;> omega

theorem bufferEnsure_reset (size : Nat) : ∃ buf, bufferEnsure ⟨[], size⟩ 65536 = .ok buf := by
  by_cases hsize : size < 2 ^ 31
  · rcases @bufferEnsure_spec ⟨[], size⟩ 65536 (Nat.zero_le _) hsize
      (by decide) with ⟨-, hfull⟩ | ⟨size', hok, -⟩
    · rw [length_nil] at hfull
      omega
    · exact ⟨_, hok⟩
  · refine ⟨⟨[], size⟩, ?_⟩
    rw [bufferEnsure, if_pos]
    dsimp only [length_nil]
    omega

/-! ### The whole response -/

/-- What is read up to a complete header is what has arrived. -/
theorem proxyRecvResponseHeader_ok {parser : HeaderParser} (arrivals : List Arrival) :
    ∀ {start buf : Buffer} {headerLen : Nat} {headers : List Header} {rest : List Arrival},
      proxyRecvResponseHeader parser arrivals start = .ok (buf, headerLen, headers, rest) →
      start.bytes ++ received arrivals = buf.bytes ++ received rest ∧
        parser.parse buf.bytes = .complete headerLen headers := by
  induction arrivals with
  | nil =>
    intro start buf headerLen headers rest h
    rw [proxyRecvResponseHeader] at h
    split at h <;> cases h
  | cons arrival arrivals ih =>
    intro start buf headerLen headers rest h
    rw [proxyRecvResponseHeader] at h
    split at h
    · cases h
    · rename_i grown hgrown
      have hbytes := bufferEnsure_bytes hgrown
      split at h
      · cases h
      · dsimp only at h
        split at h
        · rename_i hparse
          cases h
          rw [← hbytes, received_cons, ← append_assoc]
          exact ⟨rfl, hparse⟩
        · cases h
        · obtain ⟨hrest, hparse⟩ := ih h
          rw [← hbytes, received_cons, ← append_assoc]
          exact ⟨hrest, hparse⟩

/-- The remaining length does not wrap around, and on success the client has got exactly the header
    and `contentLength` bytes of the body. -/
@[mk_iff]
structure ForwardsExactly (run : Forwarded) (arrivals : List Arrival) (buf : Buffer)
    (headerLen contentLength : Nat) : Prop where
  no_wrap : buf.bytes.length - headerLen ≤ contentLength
  on_success : run.result = .ok → headerLen + contentLength ≤ (received arrivals).length ∧
    run.sent = (received arrivals).take (headerLen + contentLength)

/-- No more than the announced bytes arrive with the header, and the receive that reaches their
    number ends there. -/
@[mk_iff]
structure ArrivesExactly (headTaken : Bool) (buf : Buffer) (headerLen contentLength : Nat)
    (rest : List Arrival) : Prop where
  no_surplus : buf.bytes.length - headerLen ≤ contentLength
  ends : headTaken = true → ∀ front behind, rest = front ++ behind →
    Reaches (contentLength - (buf.bytes.length - headerLen)) 0 front →
    (received front).length = contentLength - (buf.bytes.length - headerLen)

/-- For every response that announces a body of `contentLength` bytes, in headers that are spelled
    as expected. -/
theorem proxySendResponseFromHost_exact_iff (alloc : Nat → Nat) (parser : HeaderParser) (headTaken : Bool)
    (arrivals : List Arrival) {buf : Buffer} {headerLen contentLength : Nat} {headers : List Header}
    {rest : List Arrival}
    (hheader : proxyRecvResponseHeader parser arrivals .init = .ok (buf, headerLen, headers, rest))
    (hannounced : announced headers = (false, .ok (some contentLength)))
    (hspelled : Spelled headers transferEncoding ∧ Spelled headers HttpProxy.contentLength) :
    ForwardsExactly (proxySendResponseFromHost alloc parser headTaken arrivals) arrivals buf
      headerLen contentLength ↔ ArrivesExactly headTaken buf headerLen contentLength rest := by
  obtain ⟨hchunked, hlength⟩ := Prod.mk.inj ((framed_eq_announced hspelled.1 hspelled.2).trans hannounced)
  rw [forwardsExactly_iff, arrivesExactly_iff]
  refine and_congr_right fun hsurplus => ?_
  obtain ⟨hreceived, hparse⟩ := proxyRecvResponseHeader_ok arrivals hheader
  obtain ⟨hpos, hinside⟩ := parser.inside _ _ _ hparse
  rw [Buffer.init, nil_append] at hreceived
  have hsmall := httpGetContentLength_lt hlength
  have hwrap : wrap ((contentLength : Int) - (buf.bytes.length - headerLen : Nat)) =
      contentLength - (buf.bytes.length - headerLen) := by
    rw [← Nat.cast_sub hsurplus]
    exact wrap_natCast (by omega)
  obtain ⟨buf', hensure⟩ := bufferEnsure_reset buf.size
  have hnonempty : buf.bytes ≠ [] := by
    intro hempty
    rw [hempty, length_nil] at hinside
    omega
  have hrun : proxySendResponseFromHost alloc parser headTaken arrivals =
      if headTaken = true then
        forwardFixedLoop (contentLength - (buf.bytes.length - headerLen)) rest 0 buf.bytes
      else ⟨.error, [], rest⟩ := by
    rw [proxySendResponseFromHost, hheader]
    simp only [hchunked, hlength, hwrap, proxyForwardFixedLen, hensure, hnonempty, false_or,
      Bool.false_eq_true, if_false]
    cases headTaken <;> rfl
  rw [hrun, hreceived]
  generalize hlen : contentLength - (buf.bytes.length - headerLen) = len
  cases headTaken with
  | false =>
    refine iff_of_true (fun h => ?_) fun h => ?_
    · cases h
    · cases h
  | true =>
    simp only [if_true, true_implies]
    constructor
    · rintro h front behind rfl hreaches
      rw [forwardFixedLoop_of_reaches front 0 buf.bytes behind hreaches] at h
      obtain ⟨hle, hsent⟩ := h rfl
      have hcount := congrArg List.length hsent
      rw [length_take_of_le hle, length_append] at hcount
      omega
    · intro h hok
      obtain ⟨front, behind, rfl, hreaches⟩ := forwardFixedLoop_ok rest 0 buf.bytes hok
      have hfront := h front behind rfl hreaches
      have htotal : headerLen + contentLength = (buf.bytes ++ received front).length := by
        rw [length_append]
        omega
      rw [forwardFixedLoop_of_reaches front 0 buf.bytes behind hreaches, received_append,
        ← append_assoc, htotal, take_left]
      refine ⟨?_, rfl⟩
      exact (prefix_append _ _).length_le

/-! ### Two bytes -/

/-- The parser that knows one header. -/
def headerParserOf (text : Bytes) (headers : List Header) (htext : text ≠ []) : HeaderParser where
  parse bytes := if text <+: bytes then .complete text.length headers else .incomplete
  inside bytes headerLen headers' h := by
    split at h
    · rename_i hstarts
      cases h
      exact ⟨length_pos_iff.mpr htext, hstarts.length_le⟩
    · cases h

def twoBytesHeader : Bytes := ascii "HTTP/1.1 200 OK\r\nContent-Length: 2\r\n\r\n"

def twoBytesHeaders : List Header := [⟨ascii "Content-Length", ascii "2"⟩]

def twoBytesParser : HeaderParser := headerParserOf twoBytesHeader twoBytesHeaders (by decide +kernel)

/-- One byte of the body with the header, and the other one in a receive of its own. -/
theorem proxySendResponseFromHost_exact_split :
    ForwardsExactly
      (proxySendResponseFromHost (fun _ => 4096) twoBytesParser true
        [⟨twoBytesHeader ++ ascii "a", true⟩, ⟨ascii "b", true⟩])
      [⟨twoBytesHeader ++ ascii "a", true⟩, ⟨ascii "b", true⟩] ⟨twoBytesHeader ++ ascii "a", 256⟩ 38 2 := by
  have hspelled : Spelled twoBytesHeaders transferEncoding ∧ Spelled twoBytesHeaders contentLength := by
    simp only [← httpFindHeader_eq_iff]
    decide +kernel
  refine (@proxySendResponseFromHost_exact_iff (fun _ => 4096) twoBytesParser true _
    ⟨twoBytesHeader ++ ascii "a", 256⟩
    38 2 twoBytesHeaders [⟨ascii "b", true⟩] (by decide +kernel) (by decide +kernel) hspelled).mpr
      ⟨by decide, ?_⟩
  rintro - (_ | ⟨arrival, front⟩) behind hrest hreaches
  · exact absurd hreaches (by unfold Reaches; decide +kernel)
  · obtain ⟨rfl, hnil⟩ := cons_eq_cons.mp hrest
    obtain ⟨rfl, rfl⟩ := nil_eq_append_iff.mp hnil
    decide +kernel

/-- Three bytes of the body with a header that announces two of them: the remaining length wraps
    around. In a receive of their own all three are forwarded. -/
theorem proxySendResponseFromHost_surplus :
    ¬ ForwardsExactly
        (proxySendResponseFromHost (fun _ => 4096) twoBytesParser true
          [⟨twoBytesHeader ++ ascii "abc", true⟩])
        [⟨twoBytesHeader ++ ascii "abc", true⟩] ⟨twoBytesHeader ++ ascii "abc", 256⟩ 38 2 ∧
      proxySendResponseFromHost (fun _ => 4096) twoBytesParser true
          [⟨twoBytesHeader, true⟩, ⟨ascii "abc", true⟩] =
        ⟨.ok, twoBytesHeader ++ ascii "abc", []⟩ := by
  constructor
  · intro h
    exact absurd h.no_wrap (by decide +kernel)
  · decide +kernel

end NsuLabs.HttpProxy
