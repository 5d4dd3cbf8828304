import AxiomeOS.Net.Mbuf

/-!
# The TCP layer

The socket table and the operations of `tcp.c` over the buffer pool.

The code around `tcp.c` — drivers, IP, the callers of `mbuf_alloc` — appears as the list `held`
of the packets it holds, and as the operations `LowerOp` it performs on those.  `ipv4_send` takes
the packet over in every case; what the lower layers do before it returns, and what it returns,
is the `Wire` argument of the operation that sends.

An operation that sleeps in `tcp_wait_for` is two definitions: the part before the wait and the
part after it.  The latter is entered in whatever state the socket is in by then.
-/

namespace AxiomeOS.Net

open Bytes Chains Function

scoped instance socks_ne : NeZero 32 := ⟨by decide⟩

/-! ### Sockets -/

/-- The `TCP_STATE_` constants. -/
inductive TcpState
  | closed | listen | synSent | synReceived | established | finWait1 | finWait2 | timeWait
  | closeWait | lastAck | closing
  deriving DecidableEq

/-- `struct tcp_seg`; `tcp_send` makes no entry when the clone fails, so `m` is never null. -/
structure TcpSeg where
  seq : UInt32
  len : UInt32
  m : MbufPtr
  rexmitTime : UInt32
  rexmitCount : ℕ

/-- `struct tcp_sock`.  `dev` is null or one of the network devices; `wait_recv` is never set
and `rcv_wnd` never read. -/
structure Sock where
  inUse : Bool
  state : TcpState
  localPort : UInt16
  remotePort : UInt16
  remoteIp : UInt32
  dev : Option ℕ
  sndNxt : UInt32
  sndUna : UInt32
  rcvNxt : UInt32
  sndWnd : UInt32
  rxBuf : Option MbufPtr
  rxLen : ℕ
  txQueue : List TcpSeg
  txQueueLen : ℕ
  parent : Option (Fin 32)

/-- A socket after `memset`. -/
def zeroSock : Sock :=
  ⟨false, .closed, 0, 0, 0, none, 0, 0, 0, 0, none, 0, [], 0, none⟩

/-- The pool, `g_tcp_socks`, `g_tcp_isn`, the port counter of `tcp_ephemeral_port`, the counters
of `tcp_tick`, and the packets held outside `tcp.c`. -/
structure Stack where
  pool : Pool
  socks : Fin 32 → Sock
  isn : UInt32
  ephemeral : UInt16
  synWait : Fin 32 → ℕ
  held : List MbufPtr

/-- The state after `net_init`. -/
def netInit (page : MbufPtr → Option Buffer) : Stack where
  pool := mbufInit page
  socks := fun _ => zeroSock
  isn := 0x12345678
  ephemeral := 49152
  synWait := fun _ => 0
  held := []

namespace Stack

/-- Write to the socket `i`. -/
def modifySock (n : Stack) (i : Fin 32) (f : Sock → Sock) : Stack :=
  { n with socks := update n.socks i (f (n.socks i)) }

/-- Writes to the counters. -/
def withIsn (n : Stack) (isn : UInt32) : Stack := { n with isn := isn }

def withEphemeral (n : Stack) (port : UInt16) : Stack := { n with ephemeral := port }

def withSynWait (n : Stack) (i : Fin 32) (c : ℕ) : Stack :=
  { n with synWait := update n.synWait i c }

/-- `mbuf_free`, for a pointer that may be null. -/
def freeMbuf (n : Stack) : Option MbufPtr → Stack
  | none => n
  | some k => { n with pool := mbufFree n.pool k }

theorem modifySock_socks_self (n : Stack) (i : Fin 32) (f : Sock → Sock) :
    (n.modifySock i f).socks i = f (n.socks i) := update_self ..

theorem modifySock_socks_of_ne (n : Stack) {i j : Fin 32} (f : Sock → Sock) (h : j ≠ i) :
    (n.modifySock i f).socks j = n.socks j := update_of_ne h ..

end Stack

/-- The test `sock < 0 || sock >= TCP_SOCK_MAX`. -/
def sockIndex (sock : ℤ) : Option (Fin 32) :=
  if h : sock.toNat < 32 then if sock < 0 then none else some ⟨sock.toNat, h⟩ else none

/-! ### The layers below -/

/-- What code outside `tcp.c` does with the packets it holds: allocate one, give one back, clone
one, write to its first mbuf, and put one in front of another. -/
inductive LowerOp
  | alloc
  | free (h : MbufPtr)
  | clone (h : MbufPtr)
  | write (h : MbufPtr) (m : Mbuf)
  | link (a b : MbufPtr)

/-- A write to an mbuf that leaves it in its packet. -/
def Mbuf.overwrite (m old : Mbuf) : Mbuf :=
  { m with refcount := old.refcount, nextSeg := old.nextSeg }

/-- Code outside `tcp.c` only touches packets it holds. -/
def lowerOp (n : Stack) : LowerOp → Stack
  | .alloc =>
    match mbufAlloc n.pool with
    | none => n
    | some (k, p) => { n with pool := p, held := k :: n.held }
  | .free h =>
    if h ∈ n.held then { n with pool := mbufFree n.pool h, held := n.held.erase h } else n
  | .clone h =>
    if h ∈ n.held then
      match mbufClone n.pool h with
      | (p, none) => { n with pool := p }
      | (p, some c) => { n with pool := p, held := c :: n.held }
    else n
  | .write h m =>
    if h ∈ n.held then { n with pool := n.pool.modify h m.overwrite } else n
  | .link a b =>
    if a ∈ n.held ∧ b ∈ n.held ∧ a ≠ b ∧ n.pool.nextSeg a = none then
      { n with pool := n.pool.setNextSeg a (some b), held := n.held.erase b }
    else n

/-- One call of `ipv4_send`: what happens below before it returns, and whether it succeeds. -/
structure Wire where
  ops : List LowerOp
  ok : Bool

/-- The packet `h` is handed to `ipv4_send`. -/
def ipv4Send (n : Stack) (h : MbufPtr) (w : Wire) : Stack :=
  w.ops.foldl lowerOp { n with held := h :: n.held }

/-! ### Segments -/

def tcpFin : UInt8 := 0x01
def tcpSyn : UInt8 := 0x02
def tcpRst : UInt8 := 0x04
def tcpPsh : UInt8 := 0x08
def tcpAck : UInt8 := 0x10

/-- `TCP_WND_SIZE`. -/
def tcpWndSize : UInt16 := 65535

/-- The test `flags & bit`. -/
def hasFlag (flags bit : UInt8) : Bool := flags &&& bit != 0

/-- `tcp_seq_leq`: `a` is not after `b` in the sequence space. -/
def tcpSeqLeq (a b : UInt32) : Bool := (b - a).toNat < 2 ^ 31

/-- Big-endian reads of packet fields. -/
def be16 (b : Buffer) (off : ℕ) : UInt16 :=
  UInt16.ofNat ((b off).toNat * 256 + (b (off + 1)).toNat)

def be32 (b : Buffer) (off : ℕ) : UInt32 :=
  UInt32.ofNat ((be16 b off).toNat * 65536 + (be16 b (off + 2)).toNat)

/-- The header fields `tcp_rx` reads; `ihl` is the header length in bytes. -/
structure TcpHdr where
  sport : UInt16
  dport : UInt16
  seq : UInt32
  ack : UInt32
  flags : UInt8
  wnd : UInt16
  ihl : ℕ

/-- The header at the start of a received packet. -/
def Mbuf.tcpHdr (m : Mbuf) : TcpHdr :=
  let th : Buffer := fun j => m.data (m.dataOff + j)
  { sport := be16 th 0, dport := be16 th 2, seq := be32 th 4, ack := be32 th 8
    flags := th 13, wnd := be16 th 14, ihl := (th 12).toNat / 16 % 16 * 4 }

/-- The bytes of the header `tcp_send_seg` writes, without the checksum, which no receiver in
this kernel looks at. -/
def tcpHdrBytes (s : Sock) (flags : UInt8) (seq ack : UInt32) (wnd : UInt16) : List UInt8 :=
  let be16 (v : UInt16) : List UInt8 := [UInt8.ofNat (v.toNat / 256), UInt8.ofNat v.toNat]
  let be32 (v : UInt32) : List UInt8 :=
    be16 (UInt16.ofNat (v.toNat / 65536)) ++ be16 (UInt16.ofNat v.toNat)
  be16 s.localPort ++ be16 s.remotePort ++ be32 seq ++ be32 ack ++ [0x50, flags] ++ be16 wnd ++
    [0, 0, 0, 0]

/-- The packet content of an mbuf set to `bytes`, at the place the data starts. -/
def Mbuf.fill (bytes : List UInt8) (m : Mbuf) : Mbuf :=
  { m with
    data := blit m.data m.dataOff (fun j => bytes.getD j 0) bytes.length, len := bytes.length }

/-- The payload, if there is one, hung behind the header. -/
def Pool.chainData (p : Pool) (hdr : MbufPtr) : Option MbufPtr → Pool
  | none => p
  | some d => p.setNextSeg hdr (some d)

/-- `tcp_send_seg`; the payload, if there is one, is consumed in every case. -/
def tcpSendSeg (n : Stack) (i : Fin 32) (flags : UInt8) (seq ack : UInt32) (wnd : UInt16)
    (data : Option MbufPtr) (w : Wire) : Stack × Bool :=
  match (n.socks i).dev with
  | none => (n.freeMbuf data, false)
  | some _ =>
    match mbufAlloc0 n.pool with
    | none => (n.freeMbuf data, false)
    | some (hdr, p) =>
      let p := p.modify hdr (Mbuf.fill (tcpHdrBytes (n.socks i) flags seq ack wnd))
      (ipv4Send { n with pool := p.chainData hdr data } hdr w, w.ok)

/-! ### Calls of the socket layer -/

/-- The free slot `tcp_alloc_sock` takes. -/
def tcpAllocSlot (n : Stack) : Option (Fin 32) :=
  (List.finRange 32).find? fun i => !(n.socks i).inUse

/-- The socket `tcp_alloc_sock` returns. -/
def newSock : Sock := { zeroSock with inUse := true, sndWnd := 65535 }

/-- `tcp_socket`; `dev` is what `netdev_first` returns. -/
def tcpSocket (n : Stack) (dev : Option ℕ) : Stack :=
  match tcpAllocSlot n with
  | none => n
  | some i => n.modifySock i fun _ => { newSock with dev := dev }

/-- The operations that begin with `sock` in range and in use. -/
def withSock (n : Stack) (sock : ℤ) (f : Fin 32 → Stack) : Stack :=
  match sockIndex sock with
  | none => n
  | some i => if (n.socks i).inUse then f i else n

/-- `tcp_bind`. -/
def tcpBind (n : Stack) (sock : ℤ) (port : UInt16) : Stack :=
  withSock n sock fun i => n.modifySock i fun s => { s with localPort := port }

/-- `tcp_listen`. -/
def tcpListen (n : Stack) (sock : ℤ) : Stack :=
  withSock n sock fun i => n.modifySock i fun s => { s with state := .listen }

/-- `tcp_ephemeral_port`, for the remaining number of tries: the port and the counter. -/
def tcpEphemeralPort (taken : UInt16 → Bool) : ℕ → UInt16 → UInt16 × UInt16
  | 0, next => (0, next)
  | tries + 1, next =>
    let next := (if next ≥ 65535 then 49152 else next) + 1
    if taken next then tcpEphemeralPort taken tries next else (next, next)

/-- The local port `tcp_connect` gives an unbound socket. -/
def choosePort (n : Stack) (i : Fin 32) : Stack :=
  let taken (port : UInt16) : Bool :=
    (List.finRange 32).any fun j => (n.socks j).inUse && (n.socks j).localPort == port
  if (n.socks i).localPort = 0 then
    let r := tcpEphemeralPort taken 16383 n.ephemeral
    (n.modifySock i fun s => { s with localPort := r.1 }).withEphemeral r.2
  else n

/-- The `SYN` of `tcp_connect`. -/
def sendSyn (n : Stack) (i : Fin 32) (dstIp : UInt32) (dstPort : UInt16) (w : Wire) : Stack :=
  let isn := n.isn
  let n := n.modifySock i fun s =>
    { s with
      remoteIp := dstIp, remotePort := dstPort, sndNxt := isn, sndUna := isn, state := .synSent }
  let n := n.withIsn (isn + 1000)
  let n := (tcpSendSeg n i tcpSyn isn 0 tcpWndSize none w).1
  n.modifySock i fun s => { s with sndNxt := s.sndNxt + 1 }

/-- `tcp_connect` up to its wait; `dev` is what `netdev_for_ip` returns. -/
def tcpConnect (n : Stack) (sock : ℤ) (dstIp : UInt32) (dstPort : UInt16) (dev : Option ℕ)
    (w : Wire) : Stack :=
  withSock n sock fun i =>
    match dev with
    | none => n
    | some d =>
      let n := choosePort (n.modifySock i fun s => { s with dev := some d }) i
      if (n.socks i).localPort = 0 then n else sendSyn n i dstIp dstPort w

/-- `tcp_connect` after its wait. -/
def tcpConnectWoken (n : Stack) (i : Fin 32) : Stack :=
  if (n.socks i).state = .established then n
  else n.modifySock i fun s => { s with state := .closed }

/-- The copy `tcp_send` keeps for retransmission, if there is memory for its entry. -/
def keepCopy (kmalloc : Bool) (p : Pool) (m : MbufPtr) : Pool × Option MbufPtr :=
  if kmalloc then mbufClone p m else (p, none)

/-- One round of the loop of `tcp_send`, up to its wait, and whether the chunk was sent. -/
def tcpSendChunk (n : Stack) (i : Fin 32) (chunk : List UInt8) (kmalloc : Bool) (w : Wire) :
    Stack × Bool :=
  match mbufAlloc0 n.pool with
  | none => (n, false)
  | some (m, p) =>
    let p := p.modify m (Mbuf.fill chunk)
    let pc := keepCopy kmalloc p m
    let seq := (n.socks i).sndNxt
    let r := tcpSendSeg { n with pool := pc.1 } i (tcpAck ||| tcpPsh) seq (n.socks i).rcvNxt
      tcpWndSize (some m) w
    if r.2 then
      let n := r.1.modifySock i fun s =>
        { s with sndNxt := s.sndNxt + UInt32.ofNat chunk.length }
      match pc.2 with
      | none => (n, true)
      | some c =>
        (n.modifySock i fun s =>
          { s with
            txQueue := ⟨seq, UInt32.ofNat chunk.length, c, 0, 0⟩ :: s.txQueue
            txQueueLen := s.txQueueLen + 1 }, true)
    else (r.1.freeMbuf pc.2, false)

/-- The loop of `tcp_send` entered with `rest` still to send, up to its next wait: chunks of at
most `TCP_MSS` bytes. -/
def tcpSendLoop (n : Stack) (i : Fin 32) (rest : List UInt8) (kmalloc : Bool) (w : Wire) : Stack :=
  if rest = [] then n else (tcpSendChunk n i (rest.take 1460) kmalloc w).1

/-- `tcp_send` up to its first wait. -/
def tcpSend (n : Stack) (sock : ℤ) (buf : List UInt8) (kmalloc : Bool) (w : Wire) : Stack :=
  withSock n sock fun i =>
    if (n.socks i).state = .established then tcpSendLoop n i buf kmalloc w else n

/-- `pred_tcp_recv`, what `tcp_recv` waits for. -/
def predTcpRecv (s : Sock) : Bool := 0 < s.rxLen || s.state != .established

/-- An mbuf with its first `c` bytes taken off. -/
def Mbuf.advance (c : ℕ) (m : Mbuf) : Mbuf :=
  { m with dataOff := m.dataOff + c, len := m.len - c }

/-- The loop of `tcp_recv` that consumes from the receive chain. -/
def consume : ℕ → Pool → Option MbufPtr → ℕ → Pool × Option MbufPtr
  | 0, p, rx, _ => (p, rx)
  | _ + 1, p, none, _ => (p, none)
  | fuel + 1, p, some k, consumed =>
    if consumed = 0 then (p, some k)
    else if (p.mbuf k).len ≤ consumed then
      consume fuel (mbufFree p k) (p.nextSeg k) (consumed - (p.mbuf k).len)
    else (p.modify k (Mbuf.advance consumed), some k)

/-- `tcp_recv` after its wait, with the bytes it copies to the caller. -/
def tcpRecvWoken (n : Stack) (i : Fin 32) (max : ℕ) : Stack × List UInt8 :=
  let s := n.socks i
  if s.rxLen = 0 then (n, [])
  else
    let out := mbufCopyout 256 n.pool (min s.rxLen max) s.rxBuf 0
    let r := consume 256 n.pool s.rxBuf out.length
    ({ n with pool := r.1 }.modifySock i fun s =>
      { s with rxBuf := r.2, rxLen := s.rxLen - out.length }, out)

/-- The loop of `tcp_close` over the receive chain. -/
def freeRx : ℕ → Pool → Option MbufPtr → Pool
  | 0, p, _ => p
  | _ + 1, p, none => p
  | fuel + 1, p, some k => freeRx fuel (mbufFree p k) (p.nextSeg k)

/-- `tcp_flush_tx_queue`. -/
def flushTxQueue (p : Pool) (q : List TcpSeg) : Pool := q.foldl (fun p s => mbufFree p s.m) p

/-- The end of `tcp_close`: the buffers of the socket are given back. -/
def closeSock (n : Stack) (i : Fin 32) : Stack :=
  { n with
    pool := flushTxQueue (freeRx 256 n.pool (n.socks i).rxBuf) (n.socks i).txQueue }.modifySock i
      fun s => { s with rxBuf := none, rxLen := 0, txQueue := [], txQueueLen := 0, inUse := false }

/-- `tcp_close` once its `FIN` has been sent. -/
def finSent (n : Stack) (i : Fin 32) : Stack :=
  closeSock (n.modifySock i fun s => { s with sndNxt := s.sndNxt + 1, state := .finWait1 }) i

/-- `tcp_close`. -/
def tcpClose (n : Stack) (sock : ℤ) (w : Wire) : Stack :=
  withSock n sock fun i =>
    if (n.socks i).state = .established then
      finSent (tcpSendSeg n i (tcpAck ||| tcpFin) (n.socks i).sndNxt (n.socks i).rcvNxt
        tcpWndSize none w).1 i
    else closeSock n i

/-! ### Arriving segments -/

/-- The socket of the connection a segment belongs to. -/
def findSock (n : Stack) (h : TcpHdr) (src : UInt32) : Option (Fin 32) :=
  (List.finRange 32).find? fun i =>
    (n.socks i).inUse && (n.socks i).localPort == h.dport &&
      (n.socks i).remotePort == h.sport && (n.socks i).remoteIp == src

/-- The listening socket for a port. -/
def findListener (n : Stack) (h : TcpHdr) : Option (Fin 32) :=
  (List.finRange 32).find? fun i =>
    (n.socks i).inUse && (n.socks i).state == .listen && (n.socks i).localPort == h.dport

/-- A passive open in the slot `c`, for the listening socket `l`. -/
def passiveOpen (n : Stack) (l c : Fin 32) (h : TcpHdr) (dev : ℕ) (src : UInt32) (w : Wire) :
    Stack :=
  let isn := n.isn
  let n := n.modifySock c fun _ =>
    { newSock with
      localPort := h.dport, remotePort := h.sport, remoteIp := src, dev := some dev
      parent := some l, sndNxt := isn, rcvNxt := h.seq + 1, state := .synReceived }
  let n := n.withIsn (isn + 1000)
  let n := (tcpSendSeg n c (tcpSyn ||| tcpAck) isn (h.seq + 1) tcpWndSize none w).1
  n.modifySock c fun s => { s with sndNxt := s.sndNxt + 1 }

/-- The loop that drops the acknowledged segments from the front of the retransmission queue. -/
def dropAcked (ack : UInt32) : List TcpSeg → ℕ → Pool → List TcpSeg × ℕ × Pool
  | [], len, p => ([], len, p)
  | s :: q, len, p =>
    if tcpSeqLeq (s.seq + s.len) ack then dropAcked ack q (len - 1) (mbufFree p s.m)
    else (s :: q, len, p)

/-- The acknowledgement of a segment, on an established connection. -/
def ackArrived (n : Stack) (i : Fin 32) (h : TcpHdr) : Stack :=
  let s := n.socks i
  let r := dropAcked h.ack s.txQueue s.txQueueLen n.pool
  { n with pool := r.2.2 }.modifySock i fun s =>
    { s with
      sndUna := h.ack, sndWnd := UInt32.ofNat h.wnd.toNat, txQueue := r.1, txQueueLen := r.2.1 }

/-- An mbuf with its links cleared. -/
def Mbuf.unlinked (b : Mbuf) : Mbuf := { b with next := none, nextSeg := none }

/-- The mbuf hung behind the receive chain. -/
def appendRx (p : Pool) (rx : Option MbufPtr) (m : MbufPtr) : Pool × Option MbufPtr :=
  let p := p.modify m Mbuf.unlinked
  match rx with
  | none => (p, some m)
  | some r => (p.setNextSeg (walkEnd p.nextSeg 256 r) (some m), some r)

/-- The test `rx_len + payload_len <= 65536`, in 64-bit arithmetic. -/
def dataFits (s : Sock) (payloadLen : ℕ) : Bool := (s.rxLen + payloadLen) % 2 ^ 64 ≤ 65536

/-- The payload of a segment, on an established connection: `rcv_nxt` moves on in any case, the
mbuf is queued if the receive buffer has room. -/
def dataArrived (n : Stack) (i : Fin 32) (m : MbufPtr) (payloadLen : ℕ) : Stack :=
  let fits := dataFits (n.socks i) payloadLen
  let n := n.modifySock i fun s => { s with rcvNxt := s.rcvNxt + UInt32.ofNat payloadLen }
  if fits then
    let r := appendRx n.pool (n.socks i).rxBuf m
    { n with pool := r.1 }.modifySock i fun s =>
      { s with rxBuf := r.2, rxLen := (s.rxLen + payloadLen) % 2 ^ 64 }
  else n

/-- The acknowledgement the receiver sends. -/
def sendAck (n : Stack) (i : Fin 32) (w : Wire) : Stack :=
  (tcpSendSeg n i tcpAck (n.socks i).sndNxt (n.socks i).rcvNxt tcpWndSize none w).1

/-- The peer closes its side: `rcv_nxt` moves on by one and is acknowledged. -/
def finArrived (n : Stack) (i : Fin 32) (w : Wire) (state : TcpState) : Stack :=
  let n := sendAck (n.modifySock i fun s => { s with rcvNxt := s.rcvNxt + 1 }) i w
  n.modifySock i fun s => { s with state := state }

/-- The case `TCP_STATE_ESTABLISHED`; `w₁` and `w₂` are the acknowledgements of data and `FIN`. -/
def rxEstablished (n : Stack) (i : Fin 32) (h : TcpHdr) (m : MbufPtr) (payloadLen : ℕ)
    (w₁ w₂ : Wire) : Stack :=
  let n := if hasFlag h.flags tcpAck then ackArrived n i h else n
  let stored := 0 < payloadLen && dataFits (n.socks i) payloadLen
  let n := if 0 < payloadLen then sendAck (dataArrived n i m payloadLen) i w₁ else n
  let n := if hasFlag h.flags tcpFin then finArrived n i w₂ .closeWait else n
  if stored then n else n.freeMbuf (some m)

/-- The cases of the state machine that look at the header only. -/
def rxControl (n : Stack) (i : Fin 32) (h : TcpHdr) (w : Wire) : Stack :=
  match (n.socks i).state with
  | .closed => n
  | .listen =>
    if hasFlag h.flags tcpSyn then
      let n := n.modifySock i fun s => { s with rcvNxt := h.seq + 1, state := .synReceived }
      let n := (tcpSendSeg n i (tcpSyn ||| tcpAck) (n.socks i).sndNxt (n.socks i).rcvNxt
        tcpWndSize none w).1
      n.modifySock i fun s => { s with sndNxt := s.sndNxt + 1 }
    else n
  | .synSent =>
    if hasFlag h.flags tcpSyn && hasFlag h.flags tcpAck then
      sendAck (n.modifySock i fun s =>
        { s with rcvNxt := h.seq + 1, sndUna := h.ack, state := .established }) i w
    else if hasFlag h.flags tcpRst then n.modifySock i fun s => { s with state := .closed }
    else n
  | .synReceived =>
    if hasFlag h.flags tcpAck then
      n.modifySock i fun s =>
        { s with
          sndUna := h.ack, sndWnd := UInt32.ofNat h.wnd.toNat, state := .established }
    else n
  | .established => n
  | .finWait1 =>
    if hasFlag h.flags tcpAck then
      let n := n.modifySock i fun s => { s with sndUna := h.ack }
      if hasFlag h.flags tcpFin then finArrived n i w .timeWait
      else n.modifySock i fun s => { s with state := .finWait2 }
    else n
  | .finWait2 => if hasFlag h.flags tcpFin then finArrived n i w .timeWait else n
  | .timeWait => n.modifySock i fun s => { s with state := .closed }
  | .closeWait => n
  | .lastAck =>
    if hasFlag h.flags tcpAck then
      n.modifySock i fun s => { s with sndUna := h.ack, state := .closed }
    else n
  | .closing =>
    if hasFlag h.flags tcpAck then
      n.modifySock i fun s => { s with sndUna := h.ack, state := .timeWait }
    else n

/-- `m->len - ihl`, in 64-bit arithmetic. -/
def payloadLength (len ihl : ℕ) : ℕ := (len + 2 ^ 64 - ihl) % 2 ^ 64

/-- A received packet without its header. -/
def Mbuf.strip (ihl : ℕ) (b : Mbuf) : Mbuf :=
  { b with dataOff := b.dataOff + ihl, len := payloadLength b.len ihl }

/-- `tcp_rx` once the header has been read and taken off: the socket is looked up, then a
listening one. -/
def rxSegment (n : Stack) (h : TcpHdr) (dev : ℕ) (src : UInt32) (m : MbufPtr) (payloadLen : ℕ)
    (w₁ w₂ : Wire) : Stack :=
  match findSock n h src with
  | none =>
    match findListener n h with
    | none => n.freeMbuf (some m)
    | some l =>
      match tcpAllocSlot n with
      | none => n.freeMbuf (some m)
      | some c => (passiveOpen n l c h dev src w₁).freeMbuf (some m)
  | some i =>
    if (n.socks i).state = .established then rxEstablished n i h m payloadLen w₁ w₂
    else (rxControl n i h w₁).freeMbuf (some m)

/-- `tcp_rx`. -/
def tcpRx (n : Stack) (dev : ℕ) (src : UInt32) (m : MbufPtr) (w₁ w₂ : Wire) : Stack :=
  let b := n.pool.mbuf m
  if b.len < 20 then n.freeMbuf (some m)
  else
    let h := b.tcpHdr
    rxSegment { n with pool := n.pool.modify m (Mbuf.strip h.ihl) } h dev src m
      (payloadLength b.len h.ihl) w₁ w₂

/-! ### Retransmission -/

/-- The walk of `tcp_tick` over a retransmission queue; `ws` are the sends it makes. -/
def retransmit (n : Stack) (i : Fin 32) (ticks : UInt32) :
    List TcpSeg → List Wire → Stack × List TcpSeg
  | [], _ => (n, [])
  | s :: q, ws =>
    if s.rexmitCount < 5 ∧ 200 < (ticks - s.rexmitTime).toNat ∧
        (ticks - s.rexmitTime).toNat < 2 ^ 31 then
      let pc := mbufClone n.pool s.m
      let r := tcpSendSeg { n with pool := pc.1 } i (tcpAck ||| tcpPsh) s.seq
        (n.socks i).rcvNxt tcpWndSize pc.2 (ws.headD ⟨[], true⟩)
      let r' := retransmit r.1 i ticks q ws.tail
      (r'.1, { s with rexmitTime := ticks, rexmitCount := s.rexmitCount + 1 } :: r'.2)
    else
      let r' := retransmit n i ticks q ws
      (r'.1, s :: r'.2)

/-- The part of `tcp_tick` about the socket `i`. -/
def tickSock (n : Stack) (ticks : UInt32) (i : Fin 32) (w : Wire) (ws : List Wire) : Stack :=
  if (n.socks i).inUse then
    let n := if (n.socks i).state = .synSent then
        let c := n.synWait i + 1
        let n := n.withSynWait i c
        if 20 < c then
          let n := (tcpSendSeg n i tcpSyn ((n.socks i).sndNxt - 1) 0 tcpWndSize none w).1
          if 60 < c then
            (n.modifySock i fun s => { s with state := .closed }).withSynWait i 0
          else n
        else n
      else n
    let r := retransmit n i ticks (n.socks i).txQueue ws
    r.1.modifySock i fun s => { s with txQueue := r.2 }
  else n

/-! ### Events -/

/-- What can happen: an operation outside `tcp.c`, a call of the socket layer, a call that goes
on after its wait, an arriving segment, the timer reaching a socket. -/
inductive Event
  | lower (op : LowerOp)
  | tcpSocket (dev : Option ℕ)
  | tcpBind (sock : ℤ) (port : UInt16)
  | tcpListen (sock : ℤ)
  | tcpConnect (sock : ℤ) (dstIp : UInt32) (dstPort : UInt16) (dev : Option ℕ) (w : Wire)
  | tcpConnectWoken (i : Fin 32)
  | tcpSend (sock : ℤ) (buf : List UInt8) (kmalloc : Bool) (w : Wire)
  | tcpSendWoken (i : Fin 32) (rest : List UInt8) (kmalloc : Bool) (w : Wire)
  | tcpRecv (i : Fin 32) (max : ℕ)
  | tcpClose (sock : ℤ) (w : Wire)
  | tcpRx (dev : ℕ) (src : UInt32) (m : MbufPtr) (w₁ w₂ : Wire)
  | tick (ticks : UInt32) (i : Fin 32) (w : Wire) (ws : List Wire)

/-- One event.  `tcp_recv` looks at `in_use` before its wait only, so it goes on in any state in
which what it waits for holds.  A segment is a packet held below, handed to `tcp_rx`. -/
def netStep (n : Stack) : Event → Stack
  | .lower op => lowerOp n op
  | .tcpSocket dev => tcpSocket n dev
  | .tcpBind sock port => tcpBind n sock port
  | .tcpListen sock => tcpListen n sock
  | .tcpConnect sock dstIp dstPort dev w => tcpConnect n sock dstIp dstPort dev w
  | .tcpConnectWoken i => tcpConnectWoken n i
  | .tcpSend sock buf kmalloc w => tcpSend n sock buf kmalloc w
  | .tcpSendWoken i rest kmalloc w => tcpSendLoop n i rest kmalloc w
  | .tcpRecv i max => if predTcpRecv (n.socks i) then (tcpRecvWoken n i max).1 else n
  | .tcpClose sock w => tcpClose n sock w
  | .tcpRx dev src m w₁ w₂ =>
    if m ∈ n.held then tcpRx { n with held := n.held.erase m } dev src m w₁ w₂ else n
  | .tick ticks i w ws => tickSock n ticks i w ws

end AxiomeOS.Net
