/-
Module: NsuLabs.FileTransfer.SendFile
Purpose: `send_file` and `client_thread_main` with what they call, in `Networks/2-tcp_file_transfer`
  (client/send_file.c, server/client_thread.c, common.c); of the latter, what happens to the file. The
  outcomes of the calls of `send` and `recv` are lists; a run that needs more of them is still going on,
  which is `none`. The progress bar, speeds, reports, the list of clients and the clean-up without a file are
  left out.
Trusted boundary: The file does not change while it is sent, `fread` reads it in full
  chunks, a `uint64_t` is stored with its low byte first, and the file is closed and unlinked without errors
Main exports: ok_delivered_iff, keepsOnlyComplete_iff, receiveBuffer_ends_iff
-/
import Mathlib

namespace NsuLabs.FileTransfer

inductive Result where
  | ok
  | error
  | timedOut
  | interrupted
deriving DecidableEq

inductive Errno where
  | eintr
  | eagain
  | other
deriving DecidableEq

/-- The outcome of a call of `send`. -/
inductive SendOutcome where
  /-- The socket takes so many bytes, or all if there are fewer. -/
  | sent (count : Nat)
  | failed (errno : Errno)
deriving DecidableEq

/-- The outcome of a call of `recv`. -/
inductive RecvOutcome where
  /-- The bytes that were received, of which no more are taken than asked for; none if the peer has
      closed the connection. -/
  | received (bytes : List UInt8)
  | failed (errno : Errno)
deriving DecidableEq

/-- The outcomes of the calls to come, and what was taken. -/
structure Socket where
  sends : List SendOutcome
  recvs : List RecvOutcome
  /-- All bytes that the socket has taken. -/
  passed : List UInt8 := []
  /-- The outcomes of the calls of `send` for a chunk of the file. -/
  chunkSends : List SendOutcome := []
deriving DecidableEq

/-- How `send_buffer` and `receive_buffer` report an error. -/
def Errno.toResult : Errno → Result
  | .eintr => .interrupted
  | .eagain => .timedOut
  | .other => .error

/-! ### Buffers -/

/-- The loop of `send_buffer`, by the outcomes that are left. -/
def sendBufferLoop (buf : List UInt8) : (sentSize : Nat) → List SendOutcome → Socket →
    Option (Result × Socket)
  | sentSize, sends, socket =>
    if sentSize < buf.length then
      match sends with
      | [] => none
      | .failed errno :: sends => some (errno.toResult, { socket with sends })
      | .sent count :: sends =>
        let taken := (buf.drop sentSize).take count
        sendBufferLoop buf (sentSize + taken.length) sends { socket with passed := socket.passed ++ taken }
    else some (.ok, { socket with sends })

def sendBuffer (buf : List UInt8) (socket : Socket) : Option (Result × Socket) :=
  sendBufferLoop buf 0 socket.sends socket

/-- The loop of `receive_buffer`, by the outcomes that are left; the bytes of the buffer that were
    received. -/
def receiveBufferLoop (size : Nat) :
    (buf : List UInt8) → List RecvOutcome → Socket → Option (Result × List UInt8 × Socket)
  | buf, recvs, socket =>
    if buf.length < size then
      match recvs with
      | [] => none
      | .failed errno :: recvs => some (errno.toResult, buf, { socket with recvs })
      | .received bytes :: recvs =>
        receiveBufferLoop size (buf ++ bytes.take (size - buf.length)) recvs socket
    else some (.ok, buf, { socket with recvs })

def receiveBuffer (size : Nat) (socket : Socket) : Option (Result × List UInt8 × Socket) :=
  receiveBufferLoop size [] socket.recvs socket

/-! ### Messages -/

/-- The bytes of a `uint64_t`. -/
def uint64Bytes (value : Nat) : List UInt8 := (List.range 8).map fun i => UInt8.ofNat (value / 256 ^ i % 256)

/-- The `uint64_t` of its bytes. -/
def uint64OfBytes (bytes : List UInt8) : Nat := bytes.foldr (fun byte value => byte.toNat + 256 * value) 0

def beginFileTransferMagic : Nat := 0x1fab1fab

def fileAcceptedMagic : Nat := 0x3fbc3fbc

def beginFileTransferDTO (filenameSize fileSize : Nat) : List UInt8 :=
  uint64Bytes beginFileTransferMagic ++ uint64Bytes filenameSize ++ uint64Bytes fileSize

/-! ### The file -/

def fileChunkSize : Nat := 4 * 1024

/-- What the calls of `fread` read, one after the other; no more than `fuel` chunks. -/
def freadChunks : (fuel : Nat) → List UInt8 → List (List UInt8)
  | 0, _ => []
  | fuel + 1, file => if file = [] then []
    else file.take fileChunkSize :: freadChunks fuel (file.drop fileChunkSize)

/-- How sending the chunks ends. -/
inductive ChunkResult where
  | sent
  | cancelSend
  | error
deriving DecidableEq

/-- The loop over a chunk, by the outcomes that are left. -/
def sendChunk (fileChunk : List UInt8) : (sent : Nat) → List SendOutcome → Socket →
    Option (ChunkResult × Socket)
  | sent, sends, socket =>
    if sent < fileChunk.length then
      match sends with
      | [] => none
      | .failed errno :: sends =>
        let socket := { socket with sends, chunkSends := socket.chunkSends ++ [.failed errno] }
        if errno = .eintr then some (.cancelSend, socket) else some (.error, socket)
      | .sent count :: sends =>
        let taken := (fileChunk.drop sent).take count
        sendChunk fileChunk (sent + taken.length) sends
          { socket with passed := socket.passed ++ taken, chunkSends := socket.chunkSends ++ [.sent count] }
    else some (.sent, { socket with sends })

/-- The loop over the file. Behind the last chunk `fread` reads nothing, and the loop would go on
    for ever. -/
def sendChunks (fileSize : Nat) : (totalSentSize : Nat) → List (List UInt8) → Socket →
    Option (ChunkResult × Socket)
  | totalSentSize, chunks, socket =>
    if totalSentSize < fileSize then
      match chunks with
      | [] => none
      | fileChunk :: chunks =>
        match sendChunk fileChunk 0 socket.sends socket with
        | some (.sent, socket) => sendChunks fileSize (totalSentSize + fileChunk.length) chunks socket
        | result => result
    else some (.sent, socket)

/-! ### Sending a file -/

/-- What the calls of `send_file` find: the file if it can be opened, whether the timer can be set
    up, and the outcomes of the calls on the socket. -/
structure Machine where
  file : Option (List UInt8)
  timer : Bool
  sends : List SendOutcome
  recvs : List RecvOutcome

/-- What `send_file` returns, what the socket has then taken, and what was received. -/
structure Transfer where
  result : Result
  socket : Socket
  received : List UInt8
deriving DecidableEq

/-- `filename` is the base name of the path without the byte that ends it. -/
def sendFile (filename : List UInt8) (machine : Machine) : Option Transfer :=
  let socket : Socket := { sends := machine.sends, recvs := machine.recvs }
  match machine.file with
  | none => some ⟨.error, socket, []⟩
  | some file =>
    let beginDto := beginFileTransferDTO (filename.length + 1) file.length
    (sendBuffer beginDto socket).bind fun (status, socket) =>
      if status ≠ .ok then some ⟨.error, socket, []⟩
      else
        (sendBuffer (filename ++ [0]) socket).bind fun (status, socket) =>
          if status ≠ .ok then some ⟨.error, socket, []⟩
          else if !machine.timer then some ⟨.error, socket, []⟩
          else
            (sendChunks file.length 0 (freadChunks file.length file) socket).bind
              fun (chunkResult, socket) =>
              match chunkResult with
              | .error => some ⟨.error, socket, []⟩
              | .cancelSend => some ⟨.ok, socket, []⟩
              | .sent =>
                (receiveBuffer 8 socket).map fun (status, fileAccepted, socket) =>
                  if status ≠ .ok ∨ uint64OfBytes fileAccepted ≠ fileAcceptedMagic then
                    ⟨.error, socket, fileAccepted⟩
                  else ⟨.ok, socket, fileAccepted⟩

def spdUpdateMsecs : Nat := 100

/-- The outcome of a call of `recv`, and the time in milliseconds behind it. -/
structure Poll where
  outcome : RecvOutcome
  now : Nat
deriving DecidableEq

/-- The bytes since the last update of the speed, and its time. -/
structure Speed where
  recvdSinceSpdUpdate : Nat
  lastSpdUpdate : Nat
deriving DecidableEq

/-- The update of the speed; none if the client has sent nothing for too long. -/
def Speed.update (speed : Speed) (now : Nat) : Option Speed :=
  if now - speed.lastSpdUpdate ≥ spdUpdateMsecs then
    if speed.recvdSinceSpdUpdate = 0 then none else some ⟨0, now⟩
  else some speed

/-- The loop over a chunk, by the polls that are left. -/
def receiveChunk (chunkSz : Nat) :
    (fileChunk : List UInt8) → List Poll → Speed → Option (Result × List UInt8 × List Poll × Speed)
  | fileChunk, polls, speed =>
    if fileChunk.length < chunkSz then
      match polls with
      | [] => none
      | ⟨.failed .eintr, _⟩ :: polls => some (.interrupted, fileChunk, polls, speed)
      | ⟨.failed .other, _⟩ :: polls => some (.error, fileChunk, polls, speed)
      | ⟨.failed .eagain, now⟩ :: polls =>
        match speed.update now with
        | none => some (.interrupted, fileChunk, polls, speed)
        | some speed => receiveChunk chunkSz fileChunk polls speed
      | ⟨.received bytes, now⟩ :: polls =>
        let taken := bytes.take (chunkSz - fileChunk.length)
        match { speed with recvdSinceSpdUpdate := speed.recvdSinceSpdUpdate + taken.length }.update now with
        | none => some (.interrupted, fileChunk ++ taken, polls, speed)
        | some speed => receiveChunk chunkSz (fileChunk ++ taken) polls speed
    else some (.ok, fileChunk, polls, speed)

/-- What was received of the file, what of it `fwrite` has written, and the outcomes that no call
    has taken. -/
structure Received where
  status : Result
  received : List UInt8
  written : List UInt8
  pollsLeft : List Poll
  fwritesLeft : List Bool
deriving DecidableEq

/-- The loop of `receive_file`, by the outcomes of `fwrite` that are left. -/
def receiveFile (size : Nat) : (written : List UInt8) → (fwrites : List Bool) → List Poll → Speed →
    Option Received
  | written, fwrites, polls, speed =>
    if written.length < size then
      match receiveChunk (min (size - written.length) fileChunkSize) [] polls speed with
      | none => none
      | some (.ok, fileChunk, polls, speed) =>
        match fwrites with
        | [] => none
        | false :: fwrites => some ⟨.error, written ++ fileChunk, written, polls, fwrites⟩
        | true :: fwrites => receiveFile size (written ++ fileChunk) fwrites polls speed
      | some (status, fileChunk, polls, _) => some ⟨status, written ++ fileChunk, written, polls, fwrites⟩
    else some ⟨.ok, written, written, polls, fwrites⟩

/-- The file of a connection in the storage directory. -/
inductive FileFate where
  | notCreated
  | removed
  | kept
deriving DecidableEq

/-- What the calls for a connection find. -/
structure Connection where
  socket : Socket
  /-- The name can be allocated, and the file can be created. -/
  malloc : Bool
  fopen : Bool
  polls : List Poll
  begin : Nat
  fwrites : List Bool

/-- How a connection ends. -/
structure Closed where
  succeeded : Bool
  fate : FileFate
  fileSize : Nat
  file : Option Received
deriving DecidableEq

def clientThreadMain (c : Connection) : Option Closed :=
  (receiveBuffer 24 c.socket).bind fun (status, dto, socket) =>
    let fileSize := uint64OfBytes (dto.drop 16)
    if status ≠ .ok ∨ uint64OfBytes (dto.take 8) ≠ beginFileTransferMagic ∨ c.malloc = false then
      some ⟨false, .notCreated, fileSize, none⟩
    else
      (receiveBuffer (uint64OfBytes ((dto.drop 8).take 8)) socket).bind fun (status, _, socket) =>
        if status ≠ .ok ∨ c.fopen = false then some ⟨false, .notCreated, fileSize, none⟩
        else
          (receiveFile fileSize [] c.fwrites c.polls ⟨0, c.begin⟩).bind fun file =>
            match file.status with
            | .interrupted => some ⟨true, .removed, fileSize, some file⟩
            | .ok => (sendBuffer (uint64Bytes fileAcceptedMagic) socket).map fun (status, _) =>
                ⟨status = .ok, .kept, fileSize, some file⟩
            | _ => some ⟨false, .kept, fileSize, some file⟩

open List Option

variable {socket socket' : Socket}

/-! ### Buffers -/

/-- Behind a partial send the rest of the buffer is left. -/
theorem take_append_drop_sent (buf : List UInt8) (sent count : Nat) :
    (buf.drop sent).take count ++ buf.drop (sent + ((buf.drop sent).take count).length) = buf.drop sent := by
  rw [← drop_drop, length_take]
  rcases le_total count (buf.drop sent).length with hcount | hcount
  · rw [min_eq_left hcount, take_append_drop]
  · rw [min_eq_right hcount, take_of_length_le hcount, drop_length, append_nil]

/-- A buffer was sent completely if `send_buffer` returns `OK`; the sends of chunks are others. -/
theorem sendBufferLoop_spec {buf : List UInt8} {sentSize : Nat} {sends : List SendOutcome} {result : Result}
    (h : sendBufferLoop buf sentSize sends socket = some (result, socket')) :
    socket'.chunkSends = socket.chunkSends ∧
      (result = .ok → socket'.passed = socket.passed ++ buf.drop sentSize) := by
  fun_induction sendBufferLoop buf sentSize sends socket with
  | case1 => cases h
  | case2 _ _ _ errno =>
    cases h
    exact ⟨rfl, by cases errno <;> nofun⟩
  | case3 _ _ _ _ _ taken ih =>
    obtain ⟨hchunks, hpassed⟩ := ih h
    refine ⟨hchunks, fun hok => (hpassed hok).trans ?_⟩
    rw [append_assoc, take_append_drop_sent]
  | case4 _ _ _ hsent =>
    cases h
    rw [drop_eq_nil_of_le (not_lt.mp hsent), append_nil]
    exact ⟨rfl, fun _ => rfl⟩

theorem receiveBufferLoop_spec {size : Nat} {buf received : List UInt8} {recvs : List RecvOutcome}
    {result : Result} (h : receiveBufferLoop size buf recvs socket = some (result, received, socket'))
    (hbuf : buf.length ≤ size) :
    socket'.passed = socket.passed ∧ socket'.chunkSends = socket.chunkSends ∧
      (result = .ok → received.length = size) := by
  fun_induction receiveBufferLoop size buf recvs socket with
  | case1 => cases h
  | case2 _ _ _ errno =>
    cases h
    exact ⟨rfl, rfl, by cases errno <;> nofun⟩
  | case3 _ _ _ _ _ ih =>
    apply ih h
    rw [length_append, length_take]
    omega
  | case4 _ _ _ hsize =>
    cases h
    exact ⟨rfl, rfl, fun _ => le_antisymm hbuf (not_lt.mp hsize)⟩

/-! ### Chunks -/

/-- The outcomes of the sends of a chunk that were made in addition, and what they mean. -/
structure ChunkSent (chunk : List UInt8) (result : ChunkResult) (socket socket' : Socket) : Prop where
  made : ∃ outcomes, socket'.chunkSends = socket.chunkSends ++ outcomes ∧
    (.failed .eintr ∈ outcomes ↔ result = .cancelSend)
  sent : result = .sent → socket'.passed = socket.passed ++ chunk
  /-- Something of the chunk was left when the send was cancelled. -/
  cancelled : result = .cancelSend → socket'.passed.length < (socket.passed ++ chunk).length

theorem sendChunk_spec {chunk : List UInt8} {sent : Nat} {sends : List SendOutcome} {result : ChunkResult}
    (h : sendChunk chunk sent sends socket = some (result, socket')) :
    ChunkSent (chunk.drop sent) result socket socket' := by
  fun_induction sendChunk chunk sent sends socket with
  | case1 => cases h
  | case2 sent socket hsent sends _ =>
    obtain ⟨rfl, rfl⟩ := Prod.mk.inj (some.inj h)
    refine ⟨⟨[.failed .eintr], rfl, by simp⟩, nofun, fun _ => ?_⟩
    change socket.passed.length < _
    rw [length_append, length_drop]
    omega
  | case3 _ _ _ errno _ _ heintr =>
    obtain ⟨rfl, rfl⟩ := Prod.mk.inj (some.inj h)
    exact ⟨⟨[.failed errno], rfl, by simp [eq_comm, heintr]⟩, nofun, nofun⟩
  | case4 sent socket _ count _ taken ih =>
    obtain ⟨⟨outcomes, hmade, heintr⟩, hsentAll, hcancelled⟩ := ih h
    have hrest : socket.passed ++ taken ++ chunk.drop (sent + taken.length) =
        socket.passed ++ chunk.drop sent := by
      rw [append_assoc, take_append_drop_sent]
    rw [hrest] at hsentAll hcancelled
    refine ⟨⟨.sent count :: outcomes, ?_, ?_⟩, hsentAll, hcancelled⟩
    · rw [hmade, append_assoc]
      rfl
    · rw [← heintr]
      simp
  | case5 _ _ _ hsent =>
    cases h
    rw [drop_eq_nil_of_le (not_lt.mp hsent)]
    exact ⟨⟨[], by simp, by simp⟩, fun _ => by simp, nofun⟩

/-- The chunks that are left are the rest of the file. -/
theorem sendChunks_spec {fileSize totalSentSize : Nat} {chunks : List (List UInt8)} {result : ChunkResult}
    (h : sendChunks fileSize totalSentSize chunks socket = some (result, socket'))
    (hsize : totalSentSize + chunks.flatten.length = fileSize) :
    ChunkSent chunks.flatten result socket socket' := by
  fun_induction sendChunks fileSize totalSentSize chunks socket with
  | case1 => cases h
  | case2 _ _ _ chunk chunks socket₁ hchunk ih =>
    rw [flatten_cons, length_append] at hsize
    obtain ⟨⟨outcomes₁, hmade₁, heintr₁⟩, hsent₁, -⟩ := sendChunk_spec hchunk
    obtain ⟨⟨outcomes, hmade, heintr⟩, hsent, hcancelled⟩ := ih h (by omega)
    rw [hsent₁ rfl, drop_zero, append_assoc, ← flatten_cons] at hsent hcancelled
    refine ⟨⟨outcomes₁ ++ outcomes, by rw [hmade, hmade₁, append_assoc], ?_⟩, hsent, hcancelled⟩
    rw [mem_append, heintr₁, heintr]
    simp
  | case3 _ _ _ chunk chunks hother =>
    obtain ⟨hmade, hsent, hcancelled⟩ := sendChunk_spec h
    rw [drop_zero] at hsent hcancelled
    refine ⟨hmade, fun hresult => absurd (hresult ▸ h) (hother _), fun hresult => ?_⟩
    have := hcancelled hresult
    rw [flatten_cons, length_append, length_append]
    rw [length_append] at this
    omega
  | case4 _ chunks _ hdone =>
    cases h
    have hnil : chunks.flatten = [] := length_eq_zero_iff.mp (by omega)
    rw [hnil]
    exact ⟨⟨[], by simp, by simp⟩, fun _ => by simp, nofun⟩

theorem flatten_freadChunks (fuel : Nat) (file : List UInt8) (hfuel : file.length ≤ fuel) :
    (freadChunks fuel file).flatten = file := by
  induction fuel generalizing file with
  | zero => exact (length_eq_zero_iff.mp (Nat.le_zero.mp hfuel)).symm
  | succ fuel ih =>
    rw [freadChunks]
    split
    case isTrue hnil =>
      rw [hnil]
      rfl
    case isFalse hne =>
      have hpos := length_pos_iff.mpr hne
      have hdrop : (file.drop fileChunkSize).length ≤ fuel := by
        rw [length_drop, fileChunkSize]
        omega
      rw [flatten_cons, ih _ hdrop, take_append_drop]

/-! ### Sending a file -/

/-- All bytes of the file were passed to the socket in order, behind the description and the name of
    the file, and the confirmation with the right magic was received. -/
def Delivered (filename : List UInt8) (machine : Machine) (transfer : Transfer) : Prop :=
  ∃ file, machine.file = some file ∧
    transfer.socket.passed =
      beginFileTransferDTO (filename.length + 1) file.length ++ (filename ++ [0]) ++ file ∧
    transfer.received.length = 8 ∧ uint64OfBytes transfer.received = fileAcceptedMagic

/-- For every file and all outcomes of the calls: a transfer that ends is reported as `OK` only if
    the file was delivered, exactly if no call of `send` for a chunk of the file was interrupted. -/
theorem ok_delivered_iff (filename : List UInt8) (machine : Machine) (transfer : Transfer)
    (h : sendFile filename machine = some transfer) :
    (transfer.result = .ok → Delivered filename machine transfer) ↔
      .failed .eintr ∉ transfer.socket.chunkSends := by
  unfold sendFile at h
  simp only at h
  split at h
  case h_1 =>
    cases h
    exact iff_of_true nofun nofun
  case h_2 file hfile =>
    obtain ⟨⟨status₁, socket₁⟩, hbegin, h⟩ := bind_eq_some_iff.mp h
    obtain ⟨hchunks₁, hpassed₁⟩ := sendBufferLoop_spec hbegin
    by_cases hok₁ : status₁ = .ok
    case neg =>
      rw [if_pos hok₁] at h
      cases h
      exact iff_of_true nofun (by rw [hchunks₁]; nofun)
    case pos =>
      rw [if_neg (not_not.mpr hok₁)] at h
      obtain ⟨⟨status₂, socket₂⟩, hname, h⟩ := bind_eq_some_iff.mp h
      obtain ⟨hchunks₂, hpassed₂⟩ := sendBufferLoop_spec hname
      rw [hchunks₁] at hchunks₂
      by_cases hok₂ : status₂ = .ok
      case neg =>
        rw [if_pos hok₂] at h
        cases h
        exact iff_of_true nofun (by rw [hchunks₂]; nofun)
      case pos =>
        rw [if_neg (not_not.mpr hok₂)] at h
        split at h
        case isTrue =>
          cases h
          exact iff_of_true nofun (by rw [hchunks₂]; nofun)
        case isFalse =>
          obtain ⟨⟨chunkResult, socket₃⟩, hchunks, h⟩ := bind_eq_some_iff.mp h
          have hflatten := flatten_freadChunks file.length file le_rfl
          obtain ⟨⟨outcomes, hmade, heintr⟩, hsent, hcancelled⟩ :=
            sendChunks_spec hchunks (by rw [hflatten, Nat.zero_add])
          rw [hchunks₂, nil_append] at hmade
          have hpassed : socket₂.passed ++ file =
              beginFileTransferDTO (filename.length + 1) file.length ++ (filename ++ [0]) ++ file := by
            rw [hpassed₂ hok₂, hpassed₁ hok₁, nil_append, drop_zero, drop_zero]
          rw [hflatten, hpassed] at hsent hcancelled
          cases chunkResult with
          | error =>
            cases h
            exact iff_of_true nofun (by rw [hmade, heintr]; nofun)
          | cancelSend =>
            cases h
            refine iff_of_false (fun hdelivered => ?_) (by rw [hmade, heintr]; simp)
            obtain ⟨file', hfile', hall, -⟩ := hdelivered rfl
            cases hfile.symm.trans hfile'
            exact absurd (congrArg List.length hall) (hcancelled rfl).ne
          | sent =>
            obtain ⟨⟨status, fileAccepted, socket₄⟩, hreceive, h⟩ := map_eq_some_iff.mp h
            obtain ⟨hpassed₄, hchunks₄, hlength⟩ := receiveBufferLoop_spec hreceive (Nat.zero_le 8)
            have hnot : .failed .eintr ∉ socket₄.chunkSends := by
              rw [hchunks₄, hmade, heintr]
              nofun
            split at h
            case isTrue =>
              cases h
              exact iff_of_true nofun hnot
            case isFalse haccepted =>
              obtain ⟨hstatus, hmagic⟩ := not_or.mp haccepted
              cases h
              refine iff_of_true (fun _ => ⟨file, hfile, ?_, ?_, ?_⟩) hnot
              · rw [hpassed₄, hsent rfl]
              · exact hlength (not_not.mp hstatus)
              · exact not_not.mp hmagic

/-- A file of three bytes that is sent in two parts. -/
def partialMachine : Machine where
  file := some [1, 2, 3]
  timer := true
  sends := [.sent 24, .sent 2, .sent 1, .sent 2]
  recvs := [.received [0xbc, 0x3f, 0xbc, 0x3f], .received [0, 0, 0, 0]]

/-- The file was delivered in parts. -/
theorem ok_delivered_iff_partial :
    ∃ transfer, sendFile [0x61] partialMachine = some transfer ∧ transfer.result = .ok ∧
      ((transfer.result = .ok → Delivered [0x61] partialMachine transfer) ↔
        .failed .eintr ∉ transfer.socket.chunkSends) := by
  have hrun : (sendFile [0x61] partialMachine).map Transfer.result = some .ok := by decide +kernel
  obtain ⟨transfer, htransfer, hresult⟩ := map_eq_some_iff.mp hrun
  exact ⟨transfer, htransfer, hresult, ok_delivered_iff [0x61] partialMachine transfer htransfer⟩

/-- The first call of `send` for the file is interrupted by the timer: nothing of the file was
    passed, and the result is `OK`. -/
theorem cancelled_send_ok :
    ∃ transfer,
      sendFile [0x61] ⟨some [1, 2, 3], true, [.sent 24, .sent 2, .failed .eintr], []⟩ = some transfer ∧
        transfer.result = .ok ∧ transfer.socket.passed = beginFileTransferDTO 2 3 ++ [0x61, 0] ∧
        ¬ Delivered [0x61] ⟨some [1, 2, 3], true, [.sent 24, .sent 2, .failed .eintr], []⟩ transfer := by
  have hrun : (sendFile [0x61] ⟨some [1, 2, 3], true, [.sent 24, .sent 2, .failed .eintr], []⟩).map
      (fun transfer => (transfer.result, transfer.socket.passed, transfer.received)) =
        some (.ok, beginFileTransferDTO 2 3 ++ [0x61, 0], []) := by decide +kernel
  obtain ⟨transfer, htransfer, hall⟩ := map_eq_some_iff.mp hrun
  obtain ⟨hresult, hpassed, hreceived⟩ : transfer.result = .ok ∧
      transfer.socket.passed = beginFileTransferDTO 2 3 ++ [0x61, 0] ∧ transfer.received = [] := by
    simpa only [Prod.mk.injEq] using hall
  refine ⟨transfer, htransfer, hresult, hpassed, ?_⟩
  rintro ⟨file, -, -, hlength, -⟩
  rw [hreceived] at hlength
  cases hlength

open List

/-! ### The stored file -/

/-- A file that is kept was received completely, and all of it was written. -/
def KeepsOnlyComplete (e : Closed) : Prop :=
  e.fate = .kept → ∃ file, e.file = some file ∧ file.received.length = e.fileSize ∧
    file.written = file.received

variable {polls polls' : List Poll} {speed speed' : Speed} {status : Result} {chunkSz : Nat}

/-- The connection is lost in one of the polls. -/
def Lost (polls : List Poll) : Prop := ∃ poll ∈ polls, poll.outcome = .failed .other

theorem lost_append : Lost (polls ++ polls') ↔ Lost polls ∨ Lost polls' := by
  simp only [Lost, mem_append, or_and_right, exists_or]

/-- The loop over a chunk fails exactly if the connection is lost in one of its polls. -/
theorem receiveChunk_lost {fileChunk chunk : List UInt8}
    (h : receiveChunk chunkSz fileChunk polls speed = some (status, chunk, polls', speed')) :
    ∃ made, polls = made ++ polls' ∧ (status = .error ↔ Lost made) := by
  fun_induction receiveChunk chunkSz fileChunk polls speed with
  | case1 => cases h
  | case2 | case3 | case4 | case6 =>
    cases h
    exact ⟨[_], rfl, by simp [Lost]⟩
  | case5 _ _ _ now _ _ _ ih | case7 _ _ _ bytes now _ _ _ _ ih =>
    obtain ⟨made, rfl, hlost⟩ := ih h
    exact ⟨_ :: made, rfl, by simp [hlost, Lost]⟩
  | case8 =>
    cases h
    exact ⟨[], rfl, by simp [Lost]⟩

/-- `receive_file` fails exactly if the connection is lost in one of its polls or one of its writes
    fails. -/
theorem receiveFile_lost {size : Nat} {written : List UInt8} {fwrites : List Bool} {file : Received}
    (h : receiveFile size written fwrites polls speed = some file) :
    ∃ made writes, polls = made ++ file.pollsLeft ∧ fwrites = writes ++ file.fwritesLeft ∧
      (file.status = .error ↔ Lost made ∨ false ∈ writes) := by
  fun_induction receiveFile size written fwrites polls speed with
  | case1 | case2 => cases h
  | case3 _ _ _ _ _ _ _ hreceive =>
    cases h
    obtain ⟨made, hmade, -⟩ := receiveChunk_lost hreceive
    exact ⟨made, [false], hmade, rfl, by simp⟩
  | case4 _ _ _ _ _ _ _ hreceive _ ih =>
    obtain ⟨made, hmade, hlost⟩ := receiveChunk_lost hreceive
    obtain ⟨made', writes, hmade', rfl, hlost'⟩ := ih h
    refine ⟨made ++ made', true :: writes, by rw [hmade, hmade', append_assoc], rfl, hlost'.trans ?_⟩
    simp [lost_append, ← hlost]
  | case5 _ _ _ _ _ _ _ _ _ _ hreceive =>
    cases h
    obtain ⟨made, hmade, hlost⟩ := receiveChunk_lost hreceive
    exact ⟨made, [], hmade, rfl, by simp [hlost]⟩
  | case6 =>
    cases h
    exact ⟨[], [], rfl, rfl, by simp [Lost]⟩

theorem receiveChunk_spec {fileChunk chunk : List UInt8} (hle : fileChunk.length ≤ chunkSz)
    (h : receiveChunk chunkSz fileChunk polls speed = some (status, chunk, polls', speed')) :
    (status = .ok ∧ chunk.length = chunkSz) ∨ status = .interrupted ∨
      (status = .error ∧ chunk.length < chunkSz) := by
  fun_induction receiveChunk chunkSz fileChunk polls speed with
  | case1 => cases h
  | case2 | case4 | case6 =>
    cases h
    exact .inr (.inl rfl)
  | case3 _ _ hlt =>
    cases h
    exact .inr (.inr ⟨rfl, hlt⟩)
  | case5 _ _ _ _ _ _ _ ih => exact ih hle h
  | case7 fileChunk _ _ bytes _ _ taken _ _ ih =>
    apply ih _ h
    rw [length_append, length_take]
    omega
  | case8 _ _ _ hge =>
    cases h
    exact .inl ⟨rfl, by omega⟩

theorem receiveChunk_next {size : Nat} {written chunk : List UInt8} (hlt : written.length < size)
    (h : receiveChunk (min (size - written.length) fileChunkSize) [] polls speed =
      some (status, chunk, polls', speed')) :
    (status = .ok ∧ 0 < chunk.length ∧ (written ++ chunk).length ≤ size) ∨ status = .interrupted ∨
      (status = .error ∧ (written ++ chunk).length < size) := by
  have hspec := receiveChunk_spec (Nat.zero_le _) h
  rw [length_append]
  simp only [fileChunkSize] at hspec
  rcases hspec with ⟨rfl, hlength⟩ | rfl | ⟨rfl, hlength⟩
  · exact .inl ⟨rfl, by omega, by omega⟩
  · exact .inr (.inl rfl)
  · exact .inr (.inr ⟨rfl, by omega⟩)

theorem receiveFile_spec {size : Nat} {written : List UInt8} {fwrites : List Bool} {file : Received}
    (hle : written.length ≤ size) (h : receiveFile size written fwrites polls speed = some file) :
    (file.status = .ok ∧ file.received.length = size ∧ file.written = file.received) ∨
      file.status = .interrupted ∨
      (file.status = .error ∧
        (file.received.length < size ∨ file.written.length < file.received.length)) := by
  fun_induction receiveFile size written fwrites polls speed with
  | case1 | case2 => cases h
  | case3 written _ _ hlt fileChunk _ _ hreceive =>
    cases h
    obtain ⟨-, hpos, -⟩ | hstatus | ⟨hstatus, -⟩ := receiveChunk_next hlt hreceive
    · exact .inr (.inr ⟨rfl, .inr (by simpa using hpos)⟩)
    · cases hstatus
    · cases hstatus
  | case4 written _ _ hlt fileChunk _ _ hreceive _ ih =>
    obtain ⟨-, -, hle'⟩ | hstatus | ⟨hstatus, -⟩ := receiveChunk_next hlt hreceive
    · exact ih hle' h
    · cases hstatus
    · cases hstatus
  | case5 written _ _ _ hlt status fileChunk _ _ hne hreceive =>
    cases h
    obtain ⟨hstatus, -⟩ | hstatus | hstatus := receiveChunk_next hlt hreceive
    · exact absurd hstatus hne
    · exact .inr (.inl hstatus)
    · exact .inr (.inr ⟨hstatus.1, .inl hstatus.2⟩)
  | case6 written _ _ _ hge =>
    cases h
    exact .inl ⟨rfl, by simp only; omega, rfl⟩

/-- The polls that were made for the file do not lose the connection, and the writes do not fail. -/
def Connection.Sound (c : Connection) (file : Received) : Prop :=
  ∃ polls fwrites, c.polls = polls ++ file.pollsLeft ∧ c.fwrites = fwrites ++ file.fwritesLeft ∧
    ¬ Lost polls ∧ false ∉ fwrites

/-- A connection keeps only complete files if and only if no `recv` that is made for the file finds
    the connection lost and no `fwrite` that is made for it fails; a client that stops sending does
    no harm. -/
theorem keepsOnlyComplete_iff (c : Connection) (e : Closed) (h : clientThreadMain c = some e) :
    KeepsOnlyComplete e ↔ ∀ file, e.file = some file → c.Sound file := by
  obtain ⟨⟨status, dto, socket⟩, -, h⟩ := Option.bind_eq_some_iff.mp h
  simp only at h
  split at h
  · cases h
    simp [KeepsOnlyComplete]
  · obtain ⟨⟨status, name, socket⟩, -, h⟩ := Option.bind_eq_some_iff.mp h
    simp only at h
    split at h
    · cases h
      simp [KeepsOnlyComplete]
    · obtain ⟨file, hreceive, h⟩ := Option.bind_eq_some_iff.mp h
      obtain ⟨made, writes, hmade, hwrites, hlost⟩ := receiveFile_lost hreceive
      -- the outcomes that were taken are determined by those that are left
      have hsound : c.Sound file ↔ file.status ≠ .error := by
        simp only [Connection.Sound, ne_eq, hlost, not_or, hmade, hwrites, append_cancel_right_eq]
        simp
      obtain ⟨hstatus, hcomplete⟩ | hstatus | ⟨hstatus, hpartial⟩ :=
        receiveFile_spec (Nat.zero_le _) hreceive
      · rw [hstatus] at h hsound
        obtain ⟨-, -, rfl⟩ := Option.map_eq_some_iff.mp h
        simp [KeepsOnlyComplete, hcomplete, hsound]
      · rw [hstatus] at h hsound
        cases h
        simp [KeepsOnlyComplete, hsound]
      · rw [hstatus] at h hsound
        cases h
        simp only [KeepsOnlyComplete, hsound, forall_const, Option.some.injEq, exists_eq_left',
          ne_eq, not_true, iff_false, forall_eq']
        rintro ⟨hlength, heq⟩
        rw [heq] at hpartial
        omega

/-- The two bytes of a file come one by one, with a pause between them. -/
def pausedConnection : Connection where
  socket := { sends := [.sent 8], recvs := [.received (beginFileTransferDTO 1 2), .received [0]] }
  malloc := true
  fopen := true
  polls := [⟨.received [7], 10⟩, ⟨.failed .eagain, 110⟩, ⟨.received [8, 9], 150⟩]
  begin := 0
  fwrites := [true]

def pausedFile : Received := ⟨.ok, [7, 8], [7, 8], [], []⟩

theorem keepsOnlyComplete_iff_paused :
    clientThreadMain pausedConnection = some ⟨true, .kept, 2, some pausedFile⟩ ∧
      KeepsOnlyComplete ⟨true, .kept, 2, some pausedFile⟩ := by
  have hclosed : clientThreadMain pausedConnection = some ⟨true, .kept, 2, some pausedFile⟩ := by
    decide +kernel
  refine ⟨hclosed, (keepsOnlyComplete_iff _ _ hclosed).mpr ?_⟩
  rintro _ ⟨⟩
  exact ⟨pausedConnection.polls, [true], rfl, rfl, by simp [Lost, pausedConnection], by simp⟩

/-- A connection that is lost before the only byte of its file is there. -/
def lostConnection : Connection where
  socket := { sends := [], recvs := [.received (beginFileTransferDTO 1 1), .received [0]] }
  malloc := true
  fopen := true
  polls := [⟨.failed .other, 0⟩]
  begin := 0
  fwrites := []

theorem lostConnection_keeps_file :
    clientThreadMain lostConnection = some ⟨false, .kept, 1, some ⟨.error, [], [], [], []⟩⟩ ∧
      ¬ KeepsOnlyComplete ⟨false, .kept, 1, some ⟨.error, [], [], [], []⟩⟩ :=
  ⟨by decide +kernel, by simp [KeepsOnlyComplete]⟩

/-! ### Waiting for a message -/

/-- How the outcomes of `recv` go on: the peer has closed the connection, or there is an error. -/
inductive Ending where
  | closed
  | failed (errno : Errno)

def Ending.outcomes (n : Nat) : Ending → List RecvOutcome
  | closed => replicate n (.received [])
  | failed errno => replicate n (.failed errno)

def RecvOutcome.bytes : RecvOutcome → List UInt8
  | received bytes => bytes
  | failed _ => []

/-- `receive_buffer` returns in the end, and `OK` means that all bytes were received. -/
def EndsWell (size : Nat) (recvs : List RecvOutcome) (ending : Ending) : Prop :=
  (∃ n, receiveBuffer size { sends := [], recvs := recvs ++ ending.outcomes n } ≠ none) ∧
    ∀ n buf socket, receiveBuffer size { sends := [], recvs := recvs ++ ending.outcomes n } =
      some (.ok, buf, socket) → buf.length = size

theorem receiveBufferLoop_complete {size : Nat} {buf : List UInt8} (h : size ≤ buf.length)
    (recvs : List RecvOutcome) (socket : Socket) : receiveBufferLoop size buf recvs socket ≠ none := by
  unfold receiveBufferLoop
  simp [not_lt.mpr h]

/-- A closed connection gives no bytes, again and again. -/
theorem receiveBufferLoop_closed {size : Nat} {buf : List UInt8} (h : buf.length < size) (n : Nat)
    (socket : Socket) : receiveBufferLoop size buf (Ending.closed.outcomes n) socket = none := by
  induction n with
  | zero => simp [receiveBufferLoop, Ending.outcomes, h]
  | succ n ih =>
    unfold receiveBufferLoop
    simpa [Ending.outcomes, replicate_succ, h] using ih

theorem receiveBufferLoop_returns_iff {size : Nat} {ending : Ending} (socket : Nat → Socket)
    (recvs : List RecvOutcome) (buf : List UInt8) :
    (∃ n, receiveBufferLoop size buf (recvs ++ ending.outcomes n) (socket n) ≠ none) ↔
      ending ≠ .closed ∨ (∃ errno, .failed errno ∈ recvs) ∨
        size ≤ buf.length + (recvs.flatMap RecvOutcome.bytes).length := by
  induction recvs generalizing buf with
  | nil =>
    cases ending with
    | failed errno =>
      refine iff_of_true ⟨1, ?_⟩ (.inl nofun)
      unfold receiveBufferLoop
      split <;> simp [Ending.outcomes]
    | closed =>
      rcases Nat.lt_or_ge buf.length size with hlt | hge
      · simpa [receiveBufferLoop_closed hlt] using hlt
      · simpa [receiveBufferLoop_complete hge] using hge
  | cons outcome recvs ih =>
    rcases Nat.lt_or_ge buf.length size with hlt | hge
    · cases outcome with
      | failed errno =>
        refine iff_of_true ⟨0, ?_⟩ (.inr (.inl ⟨errno, mem_cons_self⟩))
        unfold receiveBufferLoop
        simp [hlt]
      | received bytes =>
        have hnext (rest : List RecvOutcome) (socket : Socket) :
            receiveBufferLoop size buf (.received bytes :: rest) socket =
              receiveBufferLoop size (buf ++ bytes.take (size - buf.length)) rest socket := by
          rw [receiveBufferLoop, if_pos hlt]
        have henough : size ≤ (buf ++ bytes.take (size - buf.length)).length +
          (recvs.flatMap RecvOutcome.bytes).length ↔
            size ≤ buf.length + (bytes ++ recvs.flatMap RecvOutcome.bytes).length := by
          simp only [length_append, length_take]
          omega
        simp only [cons_append, hnext, ih, henough]
        simp [RecvOutcome.bytes]
    · exact iff_of_true ⟨0, receiveBufferLoop_complete hge _ _⟩ (.inr (.inr (by omega)))

/-- Waiting for a message ends as it should unless the peer closes the connection before all bytes
    were received. -/
theorem receiveBuffer_ends_iff (size : Nat) (recvs : List RecvOutcome) (ending : Ending) :
    EndsWell size recvs ending ↔
      ending ≠ .closed ∨ (∃ errno, .failed errno ∈ recvs) ∨
        size ≤ (recvs.flatMap RecvOutcome.bytes).length := by
  have hall : ∀ n buf socket, receiveBuffer size { sends := [], recvs := recvs ++ ending.outcomes n } =
      some (.ok, buf, socket) → buf.length = size :=
    fun n buf socket h => (receiveBufferLoop_spec h (Nat.zero_le _)).2.2 rfl
  rw [EndsWell, and_iff_left hall]
  simpa [receiveBuffer] using receiveBufferLoop_returns_iff
    (fun n => { sends := [], recvs := recvs ++ ending.outcomes n }) recvs []

/-- The peer closes the connection before it has sent anything. -/
theorem receiveBuffer_never_ends : ¬ EndsWell 1 [] .closed := by
  rintro ⟨⟨n, h⟩, -⟩
  exact h (receiveBufferLoop_closed Nat.zero_lt_one n _)

end NsuLabs.FileTransfer
