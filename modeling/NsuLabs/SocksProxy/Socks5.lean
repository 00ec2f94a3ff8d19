/-
Module: NsuLabs.SocksProxy.Socks5
Purpose: The reception of a command and the connection to its address in `Networks/5-socks_proxy/socks5.c`
  (receive_domain_name, receive_cmd_request, domain_name_connect, ipv4_connect, cmd_connect), and
  `client_recv_buf`. What the client sends is the list of its bytes, behind which it closes the connection; a
  client that is dropped leaves the monad.
Trusted boundary: Every allocation and every call of `socket` succeeds, and the machine
  stores the low byte of a number first
Main exports: request_served_iff
-/
import Mathlib

namespace NsuLabs.SocksProxy

def socksVersion5 : UInt8 := 0x05

namespace Cmd

def connect : UInt8 := 0x01

end Cmd

namespace AddressType

def ipv4 : UInt8 := 0x01

def domainName : UInt8 := 0x03

def ipv6 : UInt8 := 0x04

end AddressType

namespace CmdResponseType

def addressTypeNotSupported : UInt8 := 0x08

end CmdResponseType

/-- Why the client was dropped. -/
inductive Dropped where
  | ioError
  | wrongVersion
  | commandError (err : UInt8)
deriving DecidableEq

/-- The bytes that were not received yet are the state. -/
abbrev Client := StateT (List UInt8) (Except Dropped)

/-- `client_recv_buf` and the check of its result: also a buffer of no bytes counts as a closed
    connection. -/
def clientRecvBuf (size : Nat) : Client (List UInt8) := fun stream =>
  if size = 0 ∨ stream.length < size then .error .ioError else .ok (stream.take size, stream.drop size)

/-! ### The request -/

/-- The union of the addresses. -/
inductive DstAddr where
  | ipv4 (bytes : List UInt8)
  /-- The buffer without the byte that ends it. -/
  | domainName (name : List UInt8)
  | ipv6 (bytes : List UInt8)
deriving DecidableEq

/-- A request as it was received. -/
structure CmdRequest where
  ver : UInt8
  cmd : UInt8
  rsv : UInt8
  atyp : UInt8
  dstAddr : DstAddr
  /-- As it was received. -/
  dstPort : List UInt8
deriving DecidableEq

def receiveDomainName : Client (List UInt8) := do
  let len ← clientRecvBuf 1
  clientRecvBuf (len.headD 0).toNat

/-- The branches of `receive_cmd_request` over the address type. -/
def receiveDstAddr (atyp : UInt8) : Client DstAddr :=
  if atyp = AddressType.ipv4 then DstAddr.ipv4 <$> clientRecvBuf 4
  else if atyp = AddressType.domainName then DstAddr.domainName <$> receiveDomainName
  else if atyp = AddressType.ipv6 then do
    let bytes ← clientRecvBuf 6
    -- the rest of the array was cleared before
    return .ipv6 (bytes ++ List.replicate 10 0)
  else throw (.commandError CmdResponseType.addressTypeNotSupported)

def receiveCmdRequest : Client CmdRequest := do
  let start ← clientRecvBuf 4
  let ver := start.getD 0 0
  let cmd := start.getD 1 0
  let rsv := start.getD 2 0
  let atyp := start.getD 3 0
  if ver ≠ socksVersion5 then throw .wrongVersion
  let dstAddr ← receiveDstAddr atyp
  let dstPort ← clientRecvBuf 2
  return { ver, cmd, rsv, atyp, dstAddr, dstPort }

/-! ### The connection -/

/-- What a connection is attempted to. -/
inductive Attempt where
  /-- The bytes of `sin_addr` and of `sin_port`. -/
  | sockaddrIn (address port : List UInt8)
  /-- The name and the port as they are given to the resolver. -/
  | resolve (domain : List UInt8) (port : String)
deriving DecidableEq

/-- The number of a port in network byte order. -/
def ntohs (port : List UInt8) : Nat := (port.getD 0 0).toNat * 256 + (port.getD 1 0).toNat

/-- The bytes of a `uint32_t`. -/
def uint32Bytes (value : Nat) : List UInt8 :=
  [UInt8.ofNat value, UInt8.ofNat (value / 256), UInt8.ofNat (value / 256 ^ 2),
    UInt8.ofNat (value / 256 ^ 3)]

/-- The C string at the start of a buffer that ends with a zero byte. -/
def cString (buffer : List UInt8) : List UInt8 := buffer.takeWhile (· ≠ 0)

def domainNameConnect (domain : List UInt8) (port : List UInt8) : Attempt :=
  .resolve (cString domain) (toString (ntohs port))

def ipv4Connect (ipv4 : Nat) (port : List UInt8) : Attempt := .sockaddrIn (uint32Bytes ipv4) port

def cmdConnect (cmd : CmdRequest) : Except Dropped Attempt :=
  match cmd.dstAddr with
  | .domainName name => .ok (domainNameConnect name cmd.dstPort)
  -- `(uint32_t) *cmd->dst_addr.ipv4`
  | .ipv4 bytes => .ok (ipv4Connect (bytes.getD 0 0).toNat cmd.dstPort)
  | .ipv6 _ => .error (.commandError CmdResponseType.addressTypeNotSupported)

open List

/-! ### Requests as RFC 1928 has them -/

inductive Address where
  | ipv4 (a b c d : UInt8)
  | domainName (name : List UInt8) (hpos : 0 < name.length) (hlen : name.length < 256)
  | ipv6 (bytes : List UInt8) (hlen : bytes.length = 16)

/-- The type and the bytes of an address. -/
def Address.wire : Address → List UInt8
  | .ipv4 a b c d => [0x01, a, b, c, d]
  | .domainName name _ _ => 0x03 :: UInt8.ofNat name.length :: name
  | .ipv6 bytes _ => 0x04 :: bytes

/-- A port, with its high byte first. -/
def portBytes (port : UInt16) : List UInt8 :=
  [UInt8.ofNat (port.toNat / 256), UInt8.ofNat (port.toNat % 256)]

/-- A request to connect. -/
def wire (address : Address) (port : UInt16) : List UInt8 :=
  [0x05, 0x01, 0x00] ++ address.wire ++ portBytes port

/-- The address of the request is that of the message; a name is read as a C string. -/
def DstAddr.Yields : DstAddr → Address → Prop
  | .ipv4 bytes, .ipv4 a b c d => bytes = [a, b, c, d]
  | .domainName buffer, .domainName name _ _ => cString buffer = name
  | .ipv6 bytes, .ipv6 bytes' _ => bytes = bytes'
  | _, _ => False

/-- The connection is attempted to what the message names; nothing is asked for an IPv6 address. -/
def Attempted (attempt : Except Dropped Attempt) : Address → UInt16 → Prop
  | .ipv4 a b c d, port => attempt = .ok (.sockaddrIn [a, b, c, d] (portBytes port))
  | .domainName name _ _, port => attempt = .ok (.resolve name (toString port.toNat))
  | .ipv6 _ _, _ => True

/-- The message is received up to its last byte, whatever follows it, with its address and port, and
    served. -/
def Served (address : Address) (port : UInt16) : Prop :=
  ∀ rest : List UInt8, ∃ request, receiveCmdRequest.run (wire address port ++ rest) = .ok (request, rest) ∧
    request.cmd = Cmd.connect ∧ request.dstAddr.Yields address ∧ ntohs request.dstPort = port.toNat ∧
    Attempted (cmdConnect request) address port

/-! ### Reception -/

theorem run_clientRecvBuf {buf : List UInt8} (hbuf : buf ≠ []) (rest : List UInt8) :
    (clientRecvBuf buf.length).run (buf ++ rest) = .ok (buf, rest) := by
  have hpos := length_pos_iff.mpr hbuf
  have hcond : ¬ (buf.length = 0 ∨ (buf ++ rest).length < buf.length) := by
    rw [length_append]
    omega
  show (if _ then _ else _) = _
  rw [if_neg hcond, take_left, drop_left]

theorem ntohs_portBytes (port : UInt16) : ntohs (portBytes port) = port.toNat := by
  have := port.toNat_lt
  simp only [ntohs, portBytes, getD_cons_zero, getD_cons_succ, UInt8.toNat_ofNat']
  omega

/-- What is received behind the first four bytes. -/
theorem run_receiveCmdRequest {atyp p₀ p₁ : UInt8} {stream rest : List UInt8} {dstAddr : DstAddr}
    (h : (receiveDstAddr atyp).run stream = .ok (dstAddr, p₀ :: p₁ :: rest)) :
    receiveCmdRequest.run ([0x05, 0x01, 0x00, atyp] ++ stream) =
      .ok (⟨0x05, 0x01, 0x00, atyp, dstAddr, [p₀, p₁]⟩, rest) := by
  have hstart : receiveCmdRequest.run ([0x05, 0x01, 0x00, atyp] ++ stream) =
      (do
        let dstAddr ← receiveDstAddr atyp
        let dstPort ← clientRecvBuf 2
        return (⟨0x05, 0x01, 0x00, atyp, dstAddr, dstPort⟩ : CmdRequest) :
          Client CmdRequest).run stream := rfl
  rw [hstart, StateT.run_bind, h]
  rfl

theorem run_ipv4 (a b c d : UInt8) (port : UInt16) (rest : List UInt8) :
    receiveCmdRequest.run (wire (.ipv4 a b c d) port ++ rest) =
      .ok (⟨0x05, 0x01, 0x00, 0x01, .ipv4 [a, b, c, d], portBytes port⟩, rest) := rfl

theorem run_receiveDomainName {name : List UInt8} (hpos : 0 < name.length)
    (hlen : name.length < 256) (rest : List UInt8) :
    receiveDomainName.run (UInt8.ofNat name.length :: (name ++ rest)) = .ok (name, rest) := by
  have hstart : receiveDomainName.run (UInt8.ofNat name.length :: (name ++ rest)) =
      (clientRecvBuf (UInt8.ofNat name.length).toNat).run (name ++ rest) := rfl
  have hnat : (UInt8.ofNat name.length).toNat = name.length := by
    rw [UInt8.toNat_ofNat']
    exact Nat.mod_eq_of_lt hlen
  rw [hstart, hnat, run_clientRecvBuf (length_pos_iff.mp hpos)]

theorem run_domainName {name : List UInt8} (hpos : 0 < name.length) (hlen : name.length < 256)
    (port : UInt16) (rest : List UInt8) :
    receiveCmdRequest.run (wire (.domainName name hpos hlen) port ++ rest) =
      .ok (⟨0x05, 0x01, 0x00, 0x03, .domainName name, portBytes port⟩, rest) := by
  have hwire : wire (.domainName name hpos hlen) port ++ rest =
      [0x05, 0x01, 0x00, 0x03] ++ UInt8.ofNat name.length :: (name ++ (portBytes port ++ rest)) := by
    simp only [wire, Address.wire, append_assoc, cons_append, nil_append]
  have haddress : (receiveDstAddr 0x03).run (UInt8.ofNat name.length :: (name ++ (portBytes port ++ rest))) =
      .ok (.domainName name, portBytes port ++ rest) := by
    have hbranch : receiveDstAddr 0x03 = DstAddr.domainName <$> receiveDomainName := rfl
    rw [hbranch, StateT.run_map, run_receiveDomainName hpos hlen]
    rfl
  rw [hwire]
  exact run_receiveCmdRequest haddress

/-- Of an IPv6 address only the first eight bytes are taken from the stream, two of them as the
    port. -/
theorem run_ipv6 (bytes : List UInt8) (hlen : bytes.length = 16) (port : UInt16) (rest : List UInt8) :
    ∃ request, receiveCmdRequest.run (wire (.ipv6 bytes hlen) port ++ rest) =
      .ok (request, bytes.drop 8 ++ (portBytes port ++ rest)) := by
  obtain ⟨b₀, b₁, b₂, b₃, b₄, b₅, b₆, b₇, last, rfl⟩ : ∃ b₀ b₁ b₂ b₃ b₄ b₅ b₆ b₇ last,
      bytes = b₀ :: b₁ :: b₂ :: b₃ :: b₄ :: b₅ :: b₆ :: b₇ :: last := by
    match bytes, hlen with
    | b₀ :: b₁ :: b₂ :: b₃ :: b₄ :: b₅ :: b₆ :: b₇ :: last, _ => exact ⟨_, _, _, _, _, _, _, _, _, rfl⟩
  refine ⟨⟨0x05, 0x01, 0x00, 0x04, .ipv6 ([b₀, b₁, b₂, b₃, b₄, b₅] ++ List.replicate 10 0), [b₆, b₇]⟩, ?_⟩
  have hwire : wire (.ipv6 (b₀ :: b₁ :: b₂ :: b₃ :: b₄ :: b₅ :: b₆ :: b₇ :: last) hlen) port ++ rest =
      [0x05, 0x01, 0x00, 0x04] ++
        ([b₀, b₁, b₂, b₃, b₄, b₅] ++ (b₆ :: b₇ :: (last ++ (portBytes port ++ rest)))) := by
    simp only [wire, Address.wire, append_assoc, cons_append, nil_append]
  rw [hwire]
  apply run_receiveCmdRequest
  have hbranch : receiveDstAddr 0x04 = (do
      let bytes ← clientRecvBuf 6
      return .ipv6 (bytes ++ List.replicate 10 0)) := rfl
  have hsix := run_clientRecvBuf (cons_ne_nil b₀ [b₁, b₂, b₃, b₄, b₅])
    (b₆ :: b₇ :: (last ++ (portBytes port ++ rest)))
  have hlength : [b₀, b₁, b₂, b₃, b₄, b₅].length = 6 := rfl
  rw [hlength] at hsix
  rw [hbranch, StateT.run_bind, hsix]
  rfl

/-! ### The connection -/

theorem cString_eq_self_iff (name : List UInt8) : cString name = name ↔ 0 ∉ name := by
  rw [cString, takeWhile_eq_self_iff]
  constructor
  · intro h hmem
    simpa using h 0 hmem
  · intro h c hc
    exact decide_eq_true fun heq => h (heq ▸ hc)

theorem uint32Bytes_first (a : UInt8) : uint32Bytes a.toNat = [a, 0, 0, 0] := by
  have := a.toNat_lt
  rw [uint32Bytes, UInt8.ofNat_toNat, Nat.div_eq_of_lt this, Nat.div_eq_of_lt (by omega),
    Nat.div_eq_of_lt (by omega)]
  rfl

/-- A well-formed request to connect is received and served as it was meant exactly if its address
    is an IPv4 address with three zero bytes at the end, or a name without a zero byte. -/
theorem request_served_iff (address : Address) (port : UInt16) :
    Served address port ↔
      match address with
      | .ipv4 _ b c d => b = 0 ∧ c = 0 ∧ d = 0
      | .domainName name _ _ => 0 ∉ name
      | .ipv6 _ _ => False := by
  cases address with
  | ipv4 a b c d =>
    have hconnect : Attempted (cmdConnect ⟨0x05, 0x01, 0x00, 0x01, .ipv4 [a, b, c, d], portBytes port⟩)
        (.ipv4 a b c d) port ↔ b = 0 ∧ c = 0 ∧ d = 0 := by
      have hattempt : cmdConnect ⟨0x05, 0x01, 0x00, 0x01, .ipv4 [a, b, c, d], portBytes port⟩ =
          .ok (.sockaddrIn [a, 0, 0, 0] (portBytes port)) := by
        rw [← uint32Bytes_first]
        rfl
      rw [Attempted, hattempt]
      simp [eq_comm]
    constructor
    · intro hserved
      obtain ⟨request, hrun, -, -, -, hattempted⟩ := hserved []
      rw [run_ipv4] at hrun
      cases hrun
      exact hconnect.mp hattempted
    · intro hzero rest
      exact ⟨_, run_ipv4 a b c d port rest, rfl, rfl, ntohs_portBytes port, hconnect.mpr hzero⟩
  | domainName name hpos hlen =>
    constructor
    · intro hserved
      obtain ⟨request, hrun, -, hyields, -⟩ := hserved []
      rw [run_domainName] at hrun
      cases hrun
      exact (cString_eq_self_iff name).mp hyields
    · intro hzero rest
      have hname := (cString_eq_self_iff name).mpr hzero
      refine ⟨_, run_domainName hpos hlen port rest, rfl, hname, ntohs_portBytes port, ?_⟩
      show Except.ok (Attempt.resolve (cString name) (toString (ntohs (portBytes port)))) = _
      rw [hname, ntohs_portBytes]
  | ipv6 bytes hlen =>
    refine iff_of_false (fun hserved => ?_) id
    obtain ⟨request, hrun, -⟩ := hserved []
    obtain ⟨request', hrun'⟩ := run_ipv6 bytes hlen port []
    rw [hrun] at hrun'
    have hrest := congrArg List.length (Prod.mk.inj (Except.ok.inj hrun')).2
    rw [length_append, length_drop, hlen, length_nil] at hrest
    omega

/-- The request to connect to 127.0.0.1:80 leads to 127.0.0.0:80. -/
theorem loopback_misdirected :
    receiveCmdRequest.run [0x05, 0x01, 0x00, 0x01, 127, 0, 0, 1, 0, 80] =
        .ok (⟨0x05, 0x01, 0x00, 0x01, .ipv4 [127, 0, 0, 1], [0, 80]⟩, []) ∧
      cmdConnect ⟨0x05, 0x01, 0x00, 0x01, .ipv4 [127, 0, 0, 1], [0, 80]⟩ =
      .ok (.sockaddrIn [127, 0, 0, 0] [0, 80]) ∧ ¬ Served (.ipv4 127 0 0 1) 80 := by
  refine ⟨by decide +kernel, by decide +kernel, fun hserved => ?_⟩
  obtain ⟨request, hrun, -, -, -, hattempted⟩ := hserved []
  rw [run_ipv4] at hrun
  cases hrun
  revert hattempted
  rw [Attempted]
  decide +kernel

end NsuLabs.SocksProxy
