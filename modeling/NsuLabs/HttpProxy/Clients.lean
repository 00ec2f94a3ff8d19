/-
Module: NsuLabs.HttpProxy.Clients
Purpose: The clients (`proxy_main` and the forwarding functions of proxy.c, OS-Labs/11-http-proxy) over the
  shared cache: any number of them, in any interleaving of their steps, each of which may end in any way. How
  the body of a response is delimited is read from its headers by the functions of http.c, and where a
  chunked one ends is what `http_parse_chunks` finds in the bytes received.
Trusted boundary: A call of the cache is atomic, and one that waits for a lock that its
  own chain holds never returns; the headers are any that `phr_parse_response` finds in a part of what was
  read; a buffer ends below the address 2^63; `none` also stands for a crash, which ends the program
Main exports: Client.step, ProxyWorld.step
-/
import NsuLabs.HttpProxy.Forwarding

namespace NsuLabs.HttpProxy

/-- How the body of a response is delimited. -/
inductive Mode where
  | chunked
  | fixedLen (len : UInt64)
  | tillSockClose
deriving DecidableEq

/-- A response as far as it has been received. -/
structure Response where
  headers : List Header
  headerLen : Nat
  /-- What was read up to the end of the header, and perhaps some of the body. -/
  head : Bytes
  /-- What has been received behind it. -/
  tail : Bytes
  /-- `n_parsed` of `proxy_forward_chunked`. -/
  nParsed : Nat
  /-- The host has closed the connection. -/
  closed : Bool
deriving DecidableEq

/-- A response of which `proxy_recv_response_header` has read the header. -/
def Response.read (headers : List Header) (headerLen : Nat) (head : Bytes) : Response :=
  ⟨headers, headerLen, head, [], headerLen, false⟩

/-- How `proxy_send_response_from_host` delimits the body; reading the length may crash. -/
def Response.mode (r : Response) : Except Crash Mode :=
  if httpResponseIsChunked r.headers then .ok .chunked
  else
    (httpGetContentLength r.headers).map fun
      | some contentLength =>
          .fixedLen (UInt64.ofNat (wrap (contentLength - (r.head.length - r.headerLen : Nat))))
      | none => .tillSockClose

/-- How `proxy_recv` ends: with -1, with 0 (socket closed), or with some bytes. -/
inductive RecvResult where
  | failed
  | closed
  | received (bytes : Bytes)
deriving DecidableEq

/-- Where a forwarding function is; `totalSize` is what it has received of the body. -/
inductive Stage where
  | sendingHead
  /-- In front of `cache_entry_append_data`. -/
  | appending (bytes : Bytes) (totalSize : UInt64)
  /-- In front of the condition of the loop or of the parser of the chunks. -/
  | testing (totalSize : UInt64)
  | receiving (totalSize : UInt64)
  | sending (bytes : Bytes) (totalSize : UInt64)
deriving DecidableEq

/-- How a `proxy_main` has ended. -/
inductive Ending where
  /-- No request, an unsupported one, or one that was answered from the cache. -/
  | withoutHost
  /-- `connect_domain_name` has failed. -/
  | connectFailed
  /-- The request could not be sent to the host. -/
  | requestFailed
  /-- `proxy_recv_response_header` has failed. -/
  | headerFailed
  /-- A forwarding function has returned; `complete` if it was `OK`. -/
  | forwarded (complete : Bool) (response : Response)
deriving DecidableEq

/-- Where a `proxy_main` is; `entry` is the cache entry that it has added, if its request is
    cacheable. -/
inductive Client where
  | receivingRequest
  | lookingUp (key : Bytes)
  | adding (key : Bytes)
  | serving (id : EntryId)
  | connecting (entry : Option EntryId) (key : Bytes)
  | sendingRequest (entry : Option EntryId) (key : Bytes)
  | receivingHeader (entry : Option EntryId) (key : Bytes)
  | forwarding (entry : Option EntryId) (key : Bytes) (mode : Mode) (response : Response) (stage : Stage)
  /-- In front of `cache_entry_finished`. -/
  | finishing (entry : Option EntryId) (key : Bytes) (complete : Bool) (response : Response)
  /-- In front of `cache_remove_entry`. -/
  | removing (entry : Option EntryId) (key : Bytes) (ending : Ending)
  | done (entry : Option EntryId) (ending : Ending)
deriving DecidableEq

/-- A parsed request. -/
structure Request where
  /-- The text of the request, which is its key in the cache. -/
  key : Bytes
  isConnect : Bool
  isCacheable : Bool
deriving DecidableEq

/-- The next step of the handling of a client. -/
inductive Event where
  /-- `proxy_recv_request_header` returns. -/
  | request (request : Option Request)
  | lookUp
  | add
  /-- `proxy_send_response_from_cache` has returned `OK` and `cache_entry_put` follows; if it fails,
      `cache_entry_put` does not return. -/
  | serve
  | connect (ok : Bool)
  | sendRequest (ok : Bool)
  /-- `proxy_recv_response_header` returns: the headers, `header_len` and what has been read so far. -/
  | header (header : Option (List Header × Nat × Bytes))
  | sendHead (ok : Bool)
  | append
  /-- The condition of the loop, or the parser of the chunks with the buffer at this address. -/
  | test (buf : Nat)
  | recv (result : RecvResult)
  | send (ok : Bool)
  | finish
  | remove
deriving DecidableEq

/-- Behind the forwarding function: an entry whose response has failed is removed. -/
def Client.behindForward (entry : Option EntryId) (key : Bytes) (complete : Bool) (response : Response) :
    Client :=
  match entry, complete with
  | some id, false => removing (some id) key (.forwarded false response)
  | _, _ => done entry (.forwarded complete response)

/-- The condition of the loop of the forwarding function. -/
def Stage.afterTest (entry : Option EntryId) (key : Bytes) (mode : Mode) (r : Response)
    (totalSize : UInt64) (buf : Nat) : Option Client :=
  match mode with
  | .chunked =>
    if r.nParsed > (r.head ++ r.tail).length ∨ buf + (r.head ++ r.tail).length > 2 ^ 63 then none
    else
      match httpParseChunks 32 (buf + r.nParsed) ((r.head ++ r.tail).drop r.nParsed) with
      | .error _ => none
      | .ok (pret, chunks) =>
        if pret = -1 then some (.finishing entry key false r)
        -- finish on zero chunk
        else if chunks.getLast?.map Chunk.len = some 0 then some (.finishing entry key true r)
        else
          some (.forwarding entry key mode { r with nParsed := wrap (r.nParsed + pret) }
            (.receiving totalSize))
  | .fixedLen len =>
    if totalSize < len then some (.forwarding entry key mode r (.receiving totalSize))
    else some (.finishing entry key true r)
  | .tillSockClose => some (.forwarding entry key mode r (.receiving totalSize))

/-- The next step of a client. -/
def Client.step (u : Usage) : Client → Event → Option (Usage × Client)
  | .receivingRequest, .request request =>
    match request with
    | none => some (u, .done none .withoutHost)
    | some request =>
      if request.isConnect then some (u, .done none .withoutHost)
      else if request.isCacheable then some (u, .lookingUp request.key)
      else some (u, .connecting none request.key)
  | .lookingUp key, .lookUp =>
    match cacheGetEntry u.cache key with
    | none => none
    | some (found, _) =>
      (u.step (.get key)).map fun u =>
        (u, match found with
          | some id => .serving id
          | none => .adding key)
  | .adding key, .add => (u.step (.add key)).map fun u' => (u', .connecting (some u.cache.next) key)
  | .serving id, .serve => (u.step (.put id)).map fun u => (u, .done none .withoutHost)
  | .connecting entry key, .connect ok =>
    some (u, if ok then .sendingRequest entry key else .done entry .connectFailed)
  | .sendingRequest entry key, .sendRequest ok =>
    some (u, if ok then .receivingHeader entry key else .done entry .requestFailed)
  | .receivingHeader entry key, .header header =>
    match header with
    | some (headers, headerLen, head) =>
      if head.length < headerLen then none
      else
        match (Response.read headers headerLen head).mode with
        | .error _ => none
        | .ok mode => some (u, .forwarding entry key mode (.read headers headerLen head) .sendingHead)
    -- the error path of proxy_send_response_from_host does not finish the entry
    | none =>
      some (u, match entry with
        | some id => .removing (some id) key .headerFailed
        | none => .done none .headerFailed)
  | .forwarding entry key mode r .sendingHead, .sendHead ok =>
    some (u, if ok then .forwarding entry key mode r (.appending r.head 0) else .finishing entry key false r)
  | .forwarding entry key mode r (.appending bytes totalSize), .append =>
    match entry with
    | none => some (u, .forwarding entry key mode r (.testing totalSize))
    | some id =>
      -- the first eviction waits for the lock of the cache for ever
      if MustEvict u.cache (UInt64.ofNat bytes.length) then none
      else (u.step (.append id bytes)).map fun u => (u, .forwarding entry key mode r (.testing totalSize))
  | .forwarding entry key mode r (.testing totalSize), .test buf =>
    (Stage.afterTest entry key mode r totalSize buf).map fun client => (u, client)
  | .forwarding entry key mode r (.receiving totalSize), .recv result =>
    match result with
    | .failed => some (u, .finishing entry key false r)
    | .closed => some (u, .finishing entry key (mode = .tillSockClose) { r with closed := true })
    | .received bytes =>
      some (u, .forwarding entry key mode { r with tail := r.tail ++ bytes } (.sending bytes totalSize))
  | .forwarding entry key mode r (.sending bytes totalSize), .send ok =>
    some (u,
      if ok then .forwarding entry key mode r (.appending bytes (totalSize + UInt64.ofNat bytes.length))
      else .finishing entry key false r)
  | .finishing entry key complete r, .finish =>
    match entry with
    | none => some (u, Client.behindForward entry key complete r)
    | some id => (u.step (.finished id)).map fun u => (u, Client.behindForward entry key complete r)
  | .removing entry key ending, .remove => (u.step (.remove key)).map fun u => (u, .done entry ending)
  | _, _ => none

/-- The cache and all clients of the proxy. -/
structure ProxyWorld where
  usage : Usage
  clients : List Client

inductive ProxyAction where
  /-- A client connects to the proxy. -/
  | accept
  | client (i : Nat) (event : Event)
deriving DecidableEq

def ProxyWorld.initial (maxSizeBytes : UInt64) : ProxyWorld where
  usage := .initial maxSizeBytes
  clients := []

def ProxyWorld.step (w : ProxyWorld) : ProxyAction → Option ProxyWorld
  | .accept => some { w with clients := w.clients ++ [.receivingRequest] }
  | .client i event =>
    match w.clients[i]? with
    | none => none
    | some client =>
      (client.step w.usage event).map fun r => { usage := r.1, clients := w.clients.set i r.2 }

end NsuLabs.HttpProxy
