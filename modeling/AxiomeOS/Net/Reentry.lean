import AxiomeOS.Net.Safety

/-!
# Segments that arrive while one is sent

`ipv4_send` may have to ask for a hardware address, and `arp_resolve` polls the devices while it
waits; a packet for the host itself is delivered by `loopback_tx` before the call returns.  So
`tcp_rx`, and with it any other operation of `tcp.c`, can run in the middle of an operation that
sends.

Here each operation is cut at its calls of `ipv4_send`: `Rest` is what a call still has to do when
its send returns, and a state carries the calls that are inside a send.  They may return in any
order, and anything may happen in between.  An operation of `Net.Tcp` is the run in which only the
layers below act during its sends (`exists_actions`).

`tcp_tick` is left out: it walks over a retransmission queue, and goes on from an entry that a
segment handled during the send may have freed.  Between two sends a call is one step: `kmain` calls
`tcp_rx` with interrupts on, and a system call that goes on after a wait has them on too; both are
taken not to be switched away from there.
-/

namespace AxiomeOS.Net

open Bytes Chains Function List Runs Stack

/-! ### Calls inside a send -/

/-- What is done to the socket when a send has returned. -/
inductive Update
  | none
  | sndNxt
  | closeWait
  | timeWait
  deriving DecidableEq

def Update.set : Update → Sock → Sock
  | .none, s => s
  | .sndNxt, s => { s with sndNxt := s.sndNxt + 1 }
  | .closeWait, s => { s with state := .closeWait }
  | .timeWait, s => { s with state := .timeWait }

/-- What a call has to do when its `ipv4_send` returns. -/
inductive Rest
  /-- Update the socket, and give back the segment that is being handled. -/
  | tail (i : Fin 32) (u : Update) (m : Option MbufPtr)
  /-- Handle the `FIN` of a segment whose data has been acknowledged, and give it back. -/
  | fin (i : Fin 32) (fin : Bool) (m : Option MbufPtr)
  /-- Count the bytes `tcp_send` has sent and queue the copy. -/
  | chunk (i : Fin 32) (seq : UInt32) (len : ℕ) (copy : Option MbufPtr)
  /-- Give up the socket, after the `FIN` of `tcp_close`. -/
  | close (i : Fin 32)
  deriving DecidableEq

/-- The packets a call holds while it is inside its send. -/
def Rest.packets : Rest → List MbufPtr
  | .tail _ _ m => m.toList
  | .fin _ _ m => m.toList
  | .chunk _ _ _ copy => copy.toList
  | .close _ => []

/-- A segment is put together and handed to `ipv4_send`, or it is not. -/
def handOver (n : Stack) (i : Fin 32) (flags : UInt8) (seq ack : UInt32) (data : Option MbufPtr) :
    Stack × Bool :=
  tcpSendSeg n i flags seq ack tcpWndSize data ⟨[], true⟩

/-- A segment without data is sent; after that the socket is updated and `m` given back. -/
def sendThen (n : Stack) (i : Fin 32) (flags : UInt8) (seq ack : UInt32) (u : Update)
    (m : Option MbufPtr) : Stack × List Rest :=
  let r := handOver n i flags seq ack none
  if r.2 then (r.1, [.tail i u m]) else ((r.1.modifySock i u.set).freeMbuf m, [])

/-- The acknowledgement of the peer's `FIN`, in `finArrived`. -/
def ackFin (n : Stack) (i : Fin 32) (u : Update) (m : Option MbufPtr) : Stack × List Rest :=
  let n := n.modifySock i fun s => { s with rcvNxt := s.rcvNxt + 1 }
  sendThen n i tcpAck (n.socks i).sndNxt (n.socks i).rcvNxt u m

def handleFin (n : Stack) (i : Fin 32) (fin : Bool) (m : Option MbufPtr) : Stack × List Rest :=
  if fin then ackFin n i .closeWait m else (n.freeMbuf m, [])

/-- The end of one round of `tcp_send`. -/
def chunkSent (n : Stack) (i : Fin 32) (seq : UInt32) (len : ℕ) (copy : Option MbufPtr) : Stack :=
  let n := n.modifySock i fun s => { s with sndNxt := s.sndNxt + UInt32.ofNat len }
  match copy with
  | none => n
  | some c =>
    n.modifySock i fun s =>
      { s with
        txQueue := ⟨seq, UInt32.ofNat len, c, 0, 0⟩ :: s.txQueue, txQueueLen := s.txQueueLen + 1 }

/-- What follows when `ipv4_send` returns; `ok` is what it returns. -/
def Rest.after (n : Stack) (ok : Bool) : Rest → Stack × List Rest
  | .tail i u m => ((n.modifySock i u.set).freeMbuf m, [])
  | .fin i f m => handleFin n i f m
  | .chunk i seq len copy =>
    if ok then (chunkSent n i seq len copy, []) else (n.freeMbuf copy, [])
  | .close i => (finSent n i, [])

/-! ### The operations up to their first send -/

/-- The operations that begin with `sock` in range and in use. -/
def onSock (n : Stack) (sock : ℤ) (f : Fin 32 → Stack × List Rest) : Stack × List Rest :=
  match sockIndex sock with
  | none => (n, [])
  | some i => if (n.socks i).inUse then f i else (n, [])

/-- The state in which `tcp_connect` sends its `SYN`. -/
def synReady (n : Stack) (i : Fin 32) (dstIp : UInt32) (dstPort : UInt16) : Stack :=
  (n.modifySock i fun s =>
    { s with
      remoteIp := dstIp, remotePort := dstPort, sndNxt := n.isn, sndUna := n.isn
      state := .synSent }).withIsn (n.isn + 1000)

def beginConnect (n : Stack) (sock : ℤ) (dstIp : UInt32) (dstPort : UInt16) (dev : Option ℕ) :
    Stack × List Rest :=
  onSock n sock fun i =>
    match dev with
    | none => (n, [])
    | some d =>
      let n := choosePort (n.modifySock i fun s => { s with dev := some d }) i
      if (n.socks i).localPort = 0 then (n, [])
      else sendThen (synReady n i dstIp dstPort) i tcpSyn n.isn 0 .sndNxt none

def beginChunk (n : Stack) (i : Fin 32) (chunk : List UInt8) (kmalloc : Bool) : Stack × List Rest :=
  match mbufAlloc0 n.pool with
  | none => (n, [])
  | some (m, p) =>
    let pc := keepCopy kmalloc (p.modify m (Mbuf.fill chunk)) m
    let r := handOver { n with pool := pc.1 } i (tcpAck ||| tcpPsh) (n.socks i).sndNxt
      (n.socks i).rcvNxt (some m)
    if r.2 then (r.1, [.chunk i (n.socks i).sndNxt chunk.length pc.2])
    else (r.1.freeMbuf pc.2, [])

def beginSendLoop (n : Stack) (i : Fin 32) (rest : List UInt8) (kmalloc : Bool) :
    Stack × List Rest :=
  if rest = [] then (n, []) else beginChunk n i (rest.take 1460) kmalloc

def beginSend (n : Stack) (sock : ℤ) (buf : List UInt8) (kmalloc : Bool) : Stack × List Rest :=
  onSock n sock fun i =>
    if (n.socks i).state = .established then beginSendLoop n i buf kmalloc else (n, [])

def beginClose (n : Stack) (sock : ℤ) : Stack × List Rest :=
  onSock n sock fun i =>
    if (n.socks i).state = .established then
      let r := handOver n i (tcpAck ||| tcpFin) (n.socks i).sndNxt (n.socks i).rcvNxt none
      if r.2 then (r.1, [.close i]) else (finSent r.1 i, [])
    else (closeSock n i, [])

/-- The state in which a passive open sends its `SYN`. -/
def childReady (n : Stack) (l c : Fin 32) (h : TcpHdr) (dev : ℕ) (src : UInt32) : Stack :=
  (n.modifySock c fun _ =>
    { newSock with
      localPort := h.dport, remotePort := h.sport, remoteIp := src, dev := some dev
      parent := some l, sndNxt := n.isn, rcvNxt := h.seq + 1
      state := .synReceived }).withIsn (n.isn + 1000)

def beginEstablished (n : Stack) (i : Fin 32) (h : TcpHdr) (m : MbufPtr) (payloadLen : ℕ) :
    Stack × List Rest :=
  let n := acked n i h
  let back := if 0 < payloadLen && dataFits (n.socks i) payloadLen then none else some m
  if 0 < payloadLen then
    let n := dataArrived n i m payloadLen
    let r := handOver n i tcpAck (n.socks i).sndNxt (n.socks i).rcvNxt none
    if r.2 then (r.1, [.fin i (hasFlag h.flags tcpFin) back])
    else handleFin r.1 i (hasFlag h.flags tcpFin) back
  else handleFin n i (hasFlag h.flags tcpFin) back

/-- The cases of the state machine that look at the header only. -/
def beginControl (n : Stack) (i : Fin 32) (h : TcpHdr) (m : MbufPtr) : Stack × List Rest :=
  let silent := ((rxControl n i h ⟨[], true⟩).freeMbuf (some m), [])
  match (n.socks i).state with
  | .listen =>
    if hasFlag h.flags tcpSyn then
      let n := n.modifySock i fun s => { s with rcvNxt := h.seq + 1, state := .synReceived }
      sendThen n i (tcpSyn ||| tcpAck) (n.socks i).sndNxt (n.socks i).rcvNxt .sndNxt (some m)
    else silent
  | .synSent =>
    if hasFlag h.flags tcpSyn && hasFlag h.flags tcpAck then
      let n := n.modifySock i fun s =>
        { s with rcvNxt := h.seq + 1, sndUna := h.ack, state := .established }
      sendThen n i tcpAck (n.socks i).sndNxt (n.socks i).rcvNxt .none (some m)
    else silent
  | .finWait1 =>
    if hasFlag h.flags tcpAck && hasFlag h.flags tcpFin then
      ackFin (n.modifySock i fun s => { s with sndUna := h.ack }) i .timeWait (some m)
    else silent
  | .finWait2 => if hasFlag h.flags tcpFin then ackFin n i .timeWait (some m) else silent
  | _ => silent

def beginSegment (n : Stack) (h : TcpHdr) (dev : ℕ) (src : UInt32) (m : MbufPtr) (payloadLen : ℕ) :
    Stack × List Rest :=
  match findSock n h src with
  | none =>
    match findListener n h with
    | none => (n.freeMbuf (some m), [])
    | some l =>
      match tcpAllocSlot n with
      | none => (n.freeMbuf (some m), [])
      | some c =>
        sendThen (childReady n l c h dev src) c (tcpSyn ||| tcpAck) n.isn (h.seq + 1) .sndNxt
          (some m)
  | some i =>
    if (n.socks i).state = .established then beginEstablished n i h m payloadLen
    else beginControl n i h m

def beginRx (n : Stack) (dev : ℕ) (src : UInt32) (m : MbufPtr) : Stack × List Rest :=
  let b := n.pool.mbuf m
  if b.len < 20 then (n.freeMbuf (some m), [])
  else
    let h := b.tcpHdr
    beginSegment { n with pool := n.pool.modify m (Mbuf.strip h.ihl) } h dev src m
      (payloadLength b.len h.ihl)

/-! ### Events -/

/-- The stack, and the calls that are inside a send. -/
structure Active where
  n : Stack
  calls : List Rest

/-- What can happen: the operations of `Event` other than `tcp_tick`, those that send up to their
first send, and the return of a send. -/
inductive Action
  | lower (op : LowerOp)
  | tcpSocket (dev : Option ℕ)
  | tcpBind (sock : ℤ) (port : UInt16)
  | tcpListen (sock : ℤ)
  | tcpConnect (sock : ℤ) (dstIp : UInt32) (dstPort : UInt16) (dev : Option ℕ)
  | tcpConnectWoken (i : Fin 32)
  | tcpSend (sock : ℤ) (buf : List UInt8) (kmalloc : Bool)
  | tcpSendWoken (i : Fin 32) (rest : List UInt8) (kmalloc : Bool)
  | tcpRecv (i : Fin 32) (max : ℕ)
  | tcpClose (sock : ℤ)
  | tcpRx (dev : ℕ) (src : UInt32) (m : MbufPtr)
  | returns (j : ℕ) (ok : Bool)

/-- The outcome of an operation is added to the calls inside a send. -/
def Active.enter (a : Active) (r : Stack × List Rest) : Active := ⟨r.1, r.2 ++ a.calls⟩

def actStep (a : Active) : Action → Active
  | .lower op => { a with n := lowerOp a.n op }
  | .tcpSocket dev => { a with n := tcpSocket a.n dev }
  | .tcpBind sock port => { a with n := tcpBind a.n sock port }
  | .tcpListen sock => { a with n := tcpListen a.n sock }
  | .tcpConnect sock dstIp dstPort dev => a.enter (beginConnect a.n sock dstIp dstPort dev)
  | .tcpConnectWoken i => { a with n := tcpConnectWoken a.n i }
  | .tcpSend sock buf kmalloc => a.enter (beginSend a.n sock buf kmalloc)
  | .tcpSendWoken i rest kmalloc => a.enter (beginSendLoop a.n i rest kmalloc)
  | .tcpRecv i max => { a with n := netStep a.n (.tcpRecv i max) }
  | .tcpClose sock => a.enter (beginClose a.n sock)
  | .tcpRx dev src m =>
    if m ∈ a.n.held then a.enter (beginRx { a.n with held := a.n.held.erase m } dev src m) else a
  | .returns j ok =>
    match a.calls[j]? with
    | none => a
    | some k => Active.enter { a with calls := a.calls.eraseIdx j } (k.after a.n ok)

/-! ### The operations as one step -/

variable {n n' : Stack} {ks ks' : List MbufPtr} {m : MbufPtr} {i : Fin 32}

/-- What is left of an operation ends in `n'` if nothing but the layers below acts until its sends
return. -/
def Ends (r : Stack × List Rest) (n' : Stack) : Prop :=
  ∀ ks, ∃ es : List Action, es.foldl actStep ⟨r.1, r.2 ++ ks⟩ = ⟨n', ks⟩

theorem Ends.done (n : Stack) : Ends (n, []) n := fun _ => ⟨[], rfl⟩

theorem Ends.returns {k : Rest} (w : Wire) (h : Ends (k.after (w.ops.foldl lowerOp n) w.ok) n') :
    Ends (n, [k]) n' := by
  intro ks
  obtain ⟨es, hes⟩ := h ks
  have hlower : ∀ (ops : List LowerOp) (n : Stack), (ops.map Action.lower).foldl actStep
      ⟨n, k :: ks⟩ = ⟨ops.foldl lowerOp n, k :: ks⟩ := by
    intro ops
    induction ops with
    | nil => exact fun _ => rfl
    | cons op ops ih => exact fun n => ih (lowerOp n op)
  refine ⟨w.ops.map .lower ++ .returns 0 w.ok :: es, ?_⟩
  rw [foldl_append, foldl_cons, singleton_append, hlower]
  exact hes

/-- `tcp_send_seg` is the handing over of the segment, then what happens below. -/
theorem tcpSendSeg_eq (n : Stack) (i : Fin 32) (flags : UInt8) (seq ack : UInt32)
    (data : Option MbufPtr) (w : Wire) : tcpSendSeg n i flags seq ack tcpWndSize data w =
      if (handOver n i flags seq ack data).2 then
        (w.ops.foldl lowerOp (handOver n i flags seq ack data).1, w.ok)
      else ((handOver n i flags seq ack data).1, false) := by
  rw [handOver, tcpSendSeg, tcpSendSeg]
  cases (n.socks i).dev with
  | none => rfl
  | some d => cases mbufAlloc0 n.pool <;> rfl

theorem sendThen_ends (n : Stack) (i : Fin 32) (flags : UInt8) (seq ack : UInt32) (u : Update)
    (m : Option MbufPtr) (w : Wire) : Ends (sendThen n i flags seq ack u m)
      (((tcpSendSeg n i flags seq ack tcpWndSize none w).1.modifySock i u.set).freeMbuf m) := by
  rw [tcpSendSeg_eq, sendThen]
  split
  · exact .returns w (.done _)
  · exact .done _

theorem handleFin_ends (n : Stack) (i : Fin 32) (h : TcpHdr) (m : Option MbufPtr) (w : Wire) :
    Ends (handleFin n i (hasFlag h.flags tcpFin) m) ((finished n i h w).freeMbuf m) := by
  rw [handleFin, finished]
  split
  · exact sendThen_ends _ _ _ _ _ _ _ w
  · exact .done _

theorem onSock_ends (n : Stack) (sock : ℤ) {f : Fin 32 → Stack × List Rest} {g : Fin 32 → Stack}
    (h : ∀ i, Ends (f i) (g i)) : Ends (onSock n sock f) (withSock n sock g) := by
  rw [onSock, withSock]
  cases sockIndex sock with
  | none => exact .done _
  | some i =>
    dsimp only
    split
    · exact h i
    · exact .done _

theorem beginSendLoop_ends (n : Stack) (i : Fin 32) (rest : List UInt8) (kmalloc : Bool)
    (w : Wire) : Ends (beginSendLoop n i rest kmalloc) (tcpSendLoop n i rest kmalloc w) := by
  rw [beginSendLoop, tcpSendLoop]
  split
  · exact .done _
  rw [beginChunk, tcpSendChunk]
  cases mbufAlloc0 n.pool with
  | none => exact .done _
  | some r =>
    dsimp only
    rw [tcpSendSeg_eq]
    split
    · refine .returns w ?_
      rw [Rest.after]
      dsimp only
      split
      · rw [chunkSent.eq_def]
        cases (keepCopy kmalloc (r.2.modify r.1 (Mbuf.fill (rest.take 1460))) r.1).2 <;>
          exact .done _
      · exact .done _
    · exact .done _

theorem modifySock_update_none (n : Stack) (i : Fin 32) :
    n.modifySock i Update.none.set = n := by
  rw [modifySock, show Update.none.set (n.socks i) = n.socks i from rfl, update_eq_self]

theorem beginControl_ends (n : Stack) (i : Fin 32) (h : TcpHdr) (m : MbufPtr) (w : Wire) :
    Ends (beginControl n i h m) ((rxControl n i h w).freeMbuf (some m)) := by
  rw [beginControl]
  cases hst : (n.socks i).state with
  | listen | finWait2 =>
    simp only [rxControl, hst]
    split
    · exact sendThen_ends _ _ _ _ _ _ _ w
    · exact .done _
  | synSent =>
    simp only [rxControl, hst]
    split
    · have hsend := sendThen_ends (n.modifySock i fun s =>
        { s with rcvNxt := h.seq + 1, sndUna := h.ack, state := .established }) i tcpAck
        (n.socks i).sndNxt (h.seq + 1) .none (some m) w
      rw [modifySock_update_none] at hsend
      simpa [sendAck, modifySock_socks_self] using hsend
    · exact .done _
  | finWait1 =>
    simp only [rxControl, hst]
    by_cases hack : hasFlag h.flags tcpAck = true
    · by_cases hfin : hasFlag h.flags tcpFin = true
      · simp only [hack, hfin, Bool.and_self, if_true]
        exact sendThen_ends _ _ _ _ _ _ _ w
      · simp only [hack, hfin, Bool.and_false, Bool.false_eq_true, if_true, if_false]
        exact .done _
    · simp only [hack, Bool.false_and, Bool.false_eq_true, if_false]
      exact .done _
  | _ =>
    simp only [rxControl, hst]
    exact .done _

theorem beginEstablished_ends (n : Stack) (i : Fin 32) (h : TcpHdr) (m : MbufPtr) (payloadLen : ℕ)
    (w₁ w₂ : Wire) : Ends (beginEstablished n i h m payloadLen)
      (rxEstablished n i h m payloadLen w₁ w₂) := by
  -- The segment is given back at the end, unless it has been queued.
  have hback : rxEstablished n i h m payloadLen w₁ w₂ =
      (finished (if 0 < payloadLen then sendAck (dataArrived (acked n i h) i m payloadLen) i w₁
        else acked n i h) i h w₂).freeMbuf
        (if (decide (0 < payloadLen) && dataFits ((acked n i h).socks i) payloadLen) = true
          then none else some m) := by
    rw [dataFits_acked]
    by_cases hq : 0 < payloadLen ∧ dataFits (n.socks i) payloadLen = true
    · rw [rxEstablished_of_fits hq.1 hq.2, if_pos hq.1, if_pos (by simp [hq])]
      rfl
    · have hno : ¬ (decide (0 < payloadLen) && dataFits (n.socks i) payloadLen) = true := by
        simpa using hq
      rw [rxEstablished_of_not_fits hq, if_neg hno]
  rw [hback, beginEstablished]
  dsimp only
  split
  · rw [sendAck, tcpSendSeg_eq]
    split
    · exact .returns w₁ (handleFin_ends _ _ _ _ w₂)
    · exact handleFin_ends _ _ _ _ w₂
  · exact handleFin_ends _ _ _ _ w₂

theorem beginRx_ends (n : Stack) (dev : ℕ) (src : UInt32) (m : MbufPtr) (w₁ w₂ : Wire) :
    Ends (beginRx n dev src m) (tcpRx n dev src m w₁ w₂) := by
  rw [beginRx, tcpRx]
  dsimp only
  split
  · exact .done _
  generalize Stack.mk (n.pool.modify m (Mbuf.strip (n.pool.mbuf m).tcpHdr.ihl)) _ _ _ _ _ = n1
  rw [beginSegment, rxSegment]
  cases findSock n1 (n.pool.mbuf m).tcpHdr src with
  | none =>
    cases findListener n1 (n.pool.mbuf m).tcpHdr with
    | none => exact .done _
    | some l =>
      cases tcpAllocSlot n1 with
      | none => exact .done _
      | some c => exact sendThen_ends _ _ _ _ _ _ _ w₁
  | some i =>
    dsimp only
    split
    · exact beginEstablished_ends _ _ _ _ _ w₁ w₂
    · exact beginControl_ends _ _ _ _ w₁

/-- **The operations of `tcp.c` are runs**: an event of the stack is what happens when nothing but
the layers below acts during its sends. -/
theorem exists_actions (n : Stack) (ks : List Rest) (e : Event)
    (he : ∀ ticks i w ws, e ≠ .tick ticks i w ws) :
    ∃ es : List Action, es.foldl actStep ⟨n, ks⟩ = ⟨netStep n e, ks⟩ := by
  have hbegin {r n'} (e : Action) (he : actStep ⟨n, ks⟩ e = ⟨r.1, r.2 ++ ks⟩) (h : Ends r n') :
      ∃ es : List Action, es.foldl actStep ⟨n, ks⟩ = ⟨n', ks⟩ := by
    obtain ⟨es, hes⟩ := h ks
    exact ⟨e :: es, by rw [foldl_cons, he, hes]⟩
  cases e with
  | lower op => exact ⟨[.lower op], rfl⟩
  | tcpSocket dev => exact ⟨[.tcpSocket dev], rfl⟩
  | tcpBind sock port => exact ⟨[.tcpBind sock port], rfl⟩
  | tcpListen sock => exact ⟨[.tcpListen sock], rfl⟩
  | tcpConnectWoken i => exact ⟨[.tcpConnectWoken i], rfl⟩
  | tcpRecv i max => exact ⟨[.tcpRecv i max], rfl⟩
  | tcpConnect sock dstIp dstPort dev w =>
    refine hbegin (.tcpConnect sock dstIp dstPort dev) rfl (onSock_ends n sock fun i => ?_)
    cases dev with
    | none => exact .done _
    | some d =>
      dsimp only
      split
      · exact .done _
      · exact sendThen_ends _ _ _ _ _ _ _ w
  | tcpSend sock buf kmalloc w =>
    refine hbegin (.tcpSend sock buf kmalloc) rfl (onSock_ends n sock fun i => ?_)
    split
    · exact beginSendLoop_ends _ _ _ _ w
    · exact .done _
  | tcpSendWoken i rest kmalloc w =>
    exact hbegin (.tcpSendWoken i rest kmalloc) rfl (beginSendLoop_ends n i rest kmalloc w)
  | tcpClose sock w =>
    refine hbegin (.tcpClose sock) rfl (onSock_ends n sock fun i => ?_)
    split
    · dsimp only
      rw [tcpSendSeg_eq]
      split
      · exact .returns w (.done _)
      · exact .done _
    · exact .done _
  | tcpRx dev src m w₁ w₂ =>
    rw [netStep]
    split
    case isTrue hm => exact hbegin (.tcpRx dev src m) (if_pos hm) (beginRx_ends _ dev src m w₁ w₂)
    case isFalse => exact ⟨[], rfl⟩
  | tick ticks i w ws => exact absurd rfl (he ticks i w ws)

/-! ### Packets of calls -/

/-- The pool is sound, and each call that is inside a send has its packets for itself. -/
def Guarded (n : Stack) (ks : List MbufPtr) : Prop :=
  ∃ own, Sound n own ∧ ks.Nodup ∧ ∀ k ∈ ks, Holds own (.call k) n.pool.nextSeg (some k)

/-- What touches, of the packets of calls, at most those in `d`. -/
theorem Guarded.frame {d : List MbufPtr} {T : Owner → Prop} (h : Guarded n (d ++ ks))
    (hn' : ∀ own, Sound n own → (∀ k ∈ d, Holds own (.call k) n.pool.nextSeg (some k)) →
      ∃ own', Sound n' own' ∧ Frame T n.pool own n'.pool own')
    (hT : ∀ k, T (.call k) → k ∈ d) : Guarded n' ks := by
  obtain ⟨own, hs, hnd, hk⟩ := h
  obtain ⟨-, hnd', hdisj⟩ := nodup_append.mp hnd
  obtain ⟨own', hs', hf⟩ := hn' own hs fun k hk' => hk k (mem_append_left _ hk')
  refine ⟨own', hs', hnd', fun k hk' => hf.holds ?_ (hk k (mem_append_right _ hk'))⟩
  exact fun ht => hdisj k (hT k ht) k hk' rfl

section

variable (h : Guarded n ks)
include h

theorem Guarded.perm (hp : ks.Perm ks') : Guarded n ks' := by
  obtain ⟨own, hs, hnd, hk⟩ := h
  exact ⟨own, hs, hp.nodup_iff.mp hnd, fun k hk' => hk k (hp.mem_iff.mpr hk')⟩

/-- What leaves the packets of calls alone. -/
theorem Guarded.keeps (hkeep : Keeps Aside n n') : Guarded n' ks :=
  Guarded.frame (d := []) h (fun own hs _ => hkeep own hs) fun k ha => absurd ha (not_aside_call k)

theorem Guarded.modifySock (i : Fin 32) (f : Sock → Sock)
    (hrx : ∀ s, (f s).rxBuf = s.rxBuf := by intro s; rfl)
    (htx : ∀ s, (f s).txQueue = s.txQueue := by intro s; rfl) : Guarded (n.modifySock i f) ks :=
  h.keeps ((Keeps.refl _ n).modifySock i f hrx htx)

/-- A packet held below is handed to a call. -/
theorem Guarded.take (hm : m ∈ n.held) : Guarded { n with held := n.held.erase m } (m :: ks) := by
  obtain ⟨own, hs, hnd, hk⟩ := h
  obtain ⟨own', hp', hf, hnew⟩ := exists_retag hs.part (hs.held m hm) (by simp) (.call m)
  have hnot : m ∉ ks := fun hmem => by
    have hown := (hk m hmem).own_head
    rw [hs.own_held hm] at hown
    cases hown
  refine ⟨own', hs.of_frame hp' hf (by simp) (fun k hk => hs.held_of_ne hf hk)
    (hs.heldNodup.erase m), nodup_cons.mpr ⟨hnot, hnd⟩, ?_⟩
  intro k hk'
  rcases mem_cons.mp hk' with rfl | hk'
  · exact hnew
  · exact hf.holds (by simp) (hk k hk')

/-- A packet is taken from the free list. -/
theorem Guarded.alloc {p : Pool} (halloc : mbufAlloc0 n.pool = some (m, p)) (bytes : List UInt8) :
    Guarded { n with pool := p.modify m (Mbuf.fill bytes) } (m :: ks) := by
  obtain ⟨own, hs, hnd, hk⟩ := h
  obtain ⟨hfree, hp, hf, hnone⟩ := mbufAlloc0_owned hs.part halloc (t := .call m) (by simp)
  have hself : update own m (.call m) m = .call m := update_self ..
  have h1 : Sound { n with pool := p } (update own m (.call m)) :=
    hs.of_frame_pool hp hf (by simp) (by simp)
  have hseg : (p.modify m (Mbuf.fill bytes)).nextSeg = p.nextSeg := p.modify_nextSeg m rfl
  have hnot : m ∉ ks := fun hmem => by
    have hown := (hk m hmem).own_head
    rw [hfree] at hown
    cases hown
  refine ⟨_, h1.modifyMbuf (Mbuf.fill bytes) (by rw [hself]; simp) rfl (hp.refs m),
    nodup_cons.mpr ⟨hnot, hnd⟩, ?_⟩
  intro k hk'
  show Holds _ (Owner.call k) (p.modify m (Mbuf.fill bytes)).nextSeg (some k)
  rw [hseg]
  rcases mem_cons.mp hk' with rfl | hk'
  · exact Holds.single hnone hself
  · exact hf.holds (by simp) (hk k hk')

/-- The copy `tcp_send` keeps, if it gets one. -/
theorem Guarded.keepCopy (kmalloc : Bool) (src : MbufPtr) :
    Guarded { n with pool := (Net.keepCopy kmalloc n.pool src).1 }
      ((Net.keepCopy kmalloc n.pool src).2.toList ++ ks) := by
  rw [Net.keepCopy]
  split
  case isFalse => exact h
  obtain ⟨own, hs, hnd, hk⟩ := h
  obtain ⟨own', hp', hf, hc⟩ := mbufClone_owned hs.part src Owner.call (by simp)
  have hold : ∀ k ∈ ks, ¬ (Owner.call k = .free ∨ ∃ c, own c = .free ∧ Owner.call k = .call c) := by
    rintro k hk' (heq | ⟨c, hfree, heq⟩)
    · cases heq
    · cases Owner.call.inj heq
      rw [(hk k hk').own_head] at hfree
      cases hfree
  refine ⟨own', hs.of_frame_pool hp' hf (by simp) (by simp), ?_, ?_⟩
  · refine nodup_append.mpr ⟨by cases (mbufClone n.pool src).2 <;> simp, hnd, ?_⟩
    rintro c hc' k hk' rfl
    have hfree := (hc c (Option.mem_toList.mp hc')).1
    rw [(hk c hk').own_head] at hfree
    cases hfree
  · intro k hk'
    rcases mem_append.mp hk' with hk' | hk'
    · exact (hc k (Option.mem_toList.mp hk')).2
    · exact hf.holds (hold k hk') (hk k hk')

/-- A segment is put together from a header and possibly a packet of the call. -/
theorem Guarded.handOver (data : Option MbufPtr) (hks : ks = data.toList ++ ks') (i : Fin 32)
    (flags : UInt8) (seq ack : UInt32) : Guarded (Net.handOver n i flags seq ack data).1 ks' := by
  refine (hks ▸ h).frame (fun own hs hd => tcpSendSeg_sound hs i flags seq ack tcpWndSize data
    ⟨[], true⟩ fun k hk => hd k (Option.mem_toList.mpr hk)) ?_
  rintro k (hb | ⟨_, hk, ⟨⟩⟩)
  · exact absurd hb (not_below_call k)
  · exact Option.mem_toList.mpr hk

/-- A packet of a call is given back. -/
theorem Guarded.free (data : Option MbufPtr) (hks : ks = data.toList ++ ks') :
    Guarded (n.freeMbuf data) ks' := by
  refine (hks ▸ h).frame (fun own hs hd => hs.freeCall data fun k hk =>
    hd k (Option.mem_toList.mpr hk)) ?_
  rintro k ⟨_, hk, ⟨⟩⟩
  exact Option.mem_toList.mpr hk

end

/-- A packet of a call joins the receive chain of a socket. -/
theorem Guarded.queueRx (h : Guarded n (m :: ks)) {payloadLen : ℕ}
    (hfits : dataFits (n.socks i) payloadLen = true) :
    Guarded (dataArrived n i m payloadLen) ks := by
  refine Guarded.frame (d := [m]) (T := fun t => t = .rx i ∨ t = .call m) h (fun own hs hd => ?_)
    (by simp)
  obtain ⟨l, hl, -⟩ := hs.rx i
  obtain ⟨own', hs', hf, -⟩ :=
    dataArrived_queued hs (hd m mem_cons_self).own_head hfits hl rfl
  exact ⟨own', hs', hf⟩

/-- A packet of a call joins the retransmission queue of a socket. -/
theorem Guarded.queueTx {c : MbufPtr} (h : Guarded n (c :: ks)) (f : Sock → Sock) {e : TcpSeg}
    (he : e.m = c) (hrx : (f (n.socks i)).rxBuf = (n.socks i).rxBuf)
    (htx : (f (n.socks i)).txQueue = e :: (n.socks i).txQueue) : Guarded (n.modifySock i f) ks := by
  refine Guarded.frame (d := [c]) (T := (· = .call c)) h (fun own hs hd => ?_) (by simp)
  have hc := hd c mem_cons_self
  obtain ⟨own', hp', hf, hnew⟩ := exists_retag hs.part hc (by simp) (.tx i c)
  have hs' : Sound n own' := hs.of_frame_pool hp' hf (by simp) (by simp)
  have hfresh : ∀ s ∈ (n.socks i).txQueue, s.m ≠ c := by
    intro s hsq hsc
    have hown := hs.own_tx hsq
    rw [hsc, hc.own_head] at hown
    cases hown
  exact ⟨own', hs'.queueClone hnew hfresh f he hrx htx, hf⟩

/-- A packet of a call is written to. -/
theorem Guarded.modifyMbuf (h : Guarded n (m :: ks)) (f : Mbuf → Mbuf)
    (hseg : (f (n.pool.mbuf m)).nextSeg = (n.pool.mbuf m).nextSeg)
    (href : (f (n.pool.mbuf m)).refcount = (n.pool.mbuf m).refcount) :
    Guarded { n with pool := n.pool.modify m f } (m :: ks) := by
  obtain ⟨own, hs, hnd, hk⟩ := h
  have hown := (hk m mem_cons_self).own_head
  refine ⟨own, hs.modifyMbuf f (by rw [hown]; simp) hseg (href ▸ hs.part.refs m), hnd,
    fun k hk' => ?_⟩
  show Holds own (Owner.call k) (n.pool.modify m f).nextSeg (some k)
  rw [n.pool.modify_nextSeg m hseg]
  exact hk k hk'

/-- The receive chain and the retransmission queue of a socket are not of a call. -/
theorem Guarded.ofSock (h : Guarded n ks)
    (hn' : ∀ own, Sound n own → ∃ own', Sound n' own' ∧
      Frame (fun t => t = .rx i ∨ ∃ k, t = .tx i k) n.pool own n'.pool own') : Guarded n' ks :=
  Guarded.frame (d := []) h (fun own hs _ => hn' own hs) (by simp)

/-! ### What the operations keep -/

/-- The outcome of an operation, with the packets of the calls that were inside a send before. -/
def Entered (r : Stack × List Rest) (ks : List MbufPtr) : Prop :=
  Guarded r.1 (r.2.flatMap Rest.packets ++ ks)

theorem Guarded.entered (h : Guarded n ks) : Entered (n, []) ks := h

theorem Guarded.update (h : Guarded n ks) (i : Fin 32) (u : Update) :
    Guarded (n.modifySock i u.set) ks := by
  cases u <;> exact h.modifySock i _

theorem Guarded.sendThen {m : Option MbufPtr} (h : Guarded n (m.toList ++ ks)) (i : Fin 32)
    (flags : UInt8) (seq ack : UInt32) (u : Update) :
    Entered (Net.sendThen n i flags seq ack u m) ks := by
  have hsent := h.handOver none rfl i flags seq ack
  rw [Net.sendThen]
  split
  · simpa [Entered, Rest.packets] using hsent
  · exact ((hsent.update i u).free _ rfl).entered

theorem Guarded.ackFin {m : Option MbufPtr} (h : Guarded n (m.toList ++ ks)) (i : Fin 32)
    (u : Update) : Entered (Net.ackFin n i u m) ks :=
  (h.modifySock i _).sendThen i _ _ _ u

theorem Guarded.handleFin {m : Option MbufPtr} (h : Guarded n (m.toList ++ ks)) (i : Fin 32)
    (f : Bool) : Entered (Net.handleFin n i f m) ks := by
  rw [Net.handleFin]
  split
  · exact h.ackFin i _
  · exact (h.free _ rfl).entered

theorem Guarded.onSock (h : Guarded n ks) (sock : ℤ) {f : Fin 32 → Stack × List Rest}
    (hf : ∀ i, sockIndex sock = some i → (n.socks i).inUse = true → Entered (f i) ks) :
    Entered (Net.onSock n sock f) ks := by
  rw [Net.onSock]
  cases hi : sockIndex sock with
  | none => exact h.entered
  | some i =>
    dsimp only
    split
    case isTrue huse => exact hf i hi huse
    case isFalse => exact h.entered

theorem Guarded.beginConnect (h : Guarded n ks) (sock : ℤ) (dstIp : UInt32) (dstPort : UInt16)
    (dev : Option ℕ) : Entered (Net.beginConnect n sock dstIp dstPort dev) ks := by
  refine h.onSock sock fun i _ _ => ?_
  cases dev with
  | none => exact h.entered
  | some d =>
    have hport := (h.modifySock i fun s => { s with dev := some d }).keeps (choosePort_keeps _ i)
    dsimp only
    split
    · exact hport.entered
    · exact Guarded.sendThen (m := none) ((hport.modifySock i _).keeps
        ((Keeps.refl _ _).withIsn _)) i _ _ _ _

theorem Guarded.beginSendLoop (h : Guarded n ks) (i : Fin 32) (rest : List UInt8) (kmalloc : Bool) :
    Entered (Net.beginSendLoop n i rest kmalloc) ks := by
  rw [Net.beginSendLoop]
  split
  · exact h.entered
  rw [beginChunk]
  cases halloc : mbufAlloc0 n.pool with
  | none => exact h.entered
  | some r =>
    obtain ⟨m, p⟩ := r
    have hcopy := (h.alloc halloc (rest.take 1460)).keepCopy kmalloc m
    dsimp only at hcopy ⊢
    generalize Net.keepCopy kmalloc (p.modify m (Mbuf.fill (rest.take 1460))) m = pc at hcopy ⊢
    have hsent := (hcopy.perm perm_middle).handOver (some m) rfl i (tcpAck ||| tcpPsh)
      (n.socks i).sndNxt (n.socks i).rcvNxt
    split
    · simpa [Entered, Rest.packets] using hsent
    · exact (hsent.free _ rfl).entered

theorem Guarded.beginSend (h : Guarded n ks) (sock : ℤ) (buf : List UInt8) (kmalloc : Bool) :
    Entered (Net.beginSend n sock buf kmalloc) ks := by
  refine h.onSock sock fun i _ _ => ?_
  split
  · exact h.beginSendLoop i buf kmalloc
  · exact h.entered

theorem Guarded.beginEstablished (h : Guarded n (m :: ks)) (i : Fin 32) (hdr : TcpHdr)
    (payloadLen : ℕ) : Entered (Net.beginEstablished n i hdr m payloadLen) ks := by
  rw [Net.beginEstablished]
  have hacked := h.keeps (acked_keeps n i hdr)
  generalize acked n i hdr = n1 at hacked ⊢
  dsimp only
  split
  case isFalse hzero =>
    simp only [hzero, decide_false, Bool.false_and, Bool.false_eq_true, if_false]
    exact hacked.handleFin i _
  case isTrue hpos =>
    -- The segment has joined the receive chain, or is still of this call.
    obtain ⟨back, hback⟩ : ∃ back, back =
        if (decide (0 < payloadLen) && dataFits (n1.socks i) payloadLen) = true then none
        else some m := ⟨_, rfl⟩
    have hdata : Guarded (dataArrived n1 i m payloadLen) (back.toList ++ ks) := by
      by_cases hfits : dataFits (n1.socks i) payloadLen = true
      · rw [hback, if_pos (by simp [hpos, hfits])]
        exact hacked.queueRx hfits
      · rw [hback, if_neg (by simp [hfits]), dataArrived_dropped hfits]
        exact hacked.modifySock i _
    rw [← hback]
    have hsent := hdata.handOver none rfl i tcpAck
      ((dataArrived n1 i m payloadLen).socks i).sndNxt
      ((dataArrived n1 i m payloadLen).socks i).rcvNxt
    split
    · simpa [Entered, Rest.packets] using hsent
    · exact hsent.handleFin i _

theorem Guarded.beginControl (h : Guarded n (m :: ks)) (i : Fin 32) (hdr : TcpHdr) :
    Entered (Net.beginControl n i hdr m) ks := by
  have hsilent : Entered ((rxControl n i hdr ⟨[], true⟩).freeMbuf (some m), []) ks :=
    ((h.keeps (rxControl_steers n i hdr _).keeps).free (some m) rfl).entered
  rw [Net.beginControl]
  cases (n.socks i).state with
  | listen | synSent =>
    dsimp only
    split
    · exact Guarded.sendThen (m := some m) (h.modifySock i _) i _ _ _ _
    · exact hsilent
  | finWait1 =>
    dsimp only
    split
    · exact Guarded.ackFin (m := some m) (h.modifySock i _) i _
    · exact hsilent
  | finWait2 =>
    dsimp only
    split
    · exact Guarded.ackFin (m := some m) h i _
    · exact hsilent
  | _ => exact hsilent

theorem Guarded.beginRx (h : Guarded n (m :: ks)) (dev : ℕ) (src : UInt32) :
    Entered (Net.beginRx n dev src m) ks := by
  have hfree {n : Stack} (h : Guarded n (m :: ks)) : Entered (n.freeMbuf (some m), []) ks :=
    (h.free (some m) rfl).entered
  rw [Net.beginRx]
  dsimp only
  split
  · exact hfree h
  have hstrip := h.modifyMbuf (Mbuf.strip (n.pool.mbuf m).tcpHdr.ihl) rfl rfl
  generalize Stack.mk (n.pool.modify m (Mbuf.strip (n.pool.mbuf m).tcpHdr.ihl)) _ _ _ _ _ = n1
    at hstrip ⊢
  rw [beginSegment]
  cases findSock n1 (n.pool.mbuf m).tcpHdr src with
  | none =>
    cases findListener n1 (n.pool.mbuf m).tcpHdr with
    | none => exact hfree hstrip
    | some l =>
      cases tcpAllocSlot n1 with
      | none => exact hfree hstrip
      | some c =>
        exact Guarded.sendThen (m := some m)
          (hstrip.keeps (((Keeps.refl Aside n1).clearSock c _).withIsn _)) c _ _ _ _
  | some i =>
    dsimp only
    split
    · exact hstrip.beginEstablished i _ _
    · exact hstrip.beginControl i _

theorem Guarded.after (k : Rest) (h : Guarded n (k.packets ++ ks)) (ok : Bool)
    (hsafe : ∀ i, k = .close i → CloseSafe n i) : Entered (k.after n ok) ks := by
  cases k with
  | tail i u m => exact ((h.update i u).free _ rfl).entered
  | fin i f m => exact h.handleFin i f
  | chunk i seq len copy =>
    rw [Rest.after]
    split
    · have hnext := h.modifySock i fun s => { s with sndNxt := s.sndNxt + UInt32.ofNat len }
      cases copy with
      | none => exact hnext
      | some c =>
        exact (Guarded.queueTx (e := ⟨seq, UInt32.ofNat len, c, 0, 0⟩) hnext (fun s =>
          { s with
            txQueue := ⟨seq, UInt32.ofNat len, c, 0, 0⟩ :: s.txQueue
            txQueueLen := s.txQueueLen + 1 }) rfl rfl rfl).entered
    · exact (h.free _ rfl).entered
  | close i => exact h.ofSock fun own hs => finSent_sound hs (hsafe i rfl)

/-! ### Runs -/

/-- The segment can be put together: there is a device and a free mbuf. -/
def Sends (n : Stack) (i : Fin 32) : Bool := (n.socks i).dev.isSome && (mbufAlloc0 n.pool).isSome

theorem handOver_snd (n : Stack) (i : Fin 32) (flags : UInt8) (seq ack : UInt32)
    (data : Option MbufPtr) : (handOver n i flags seq ack data).2 = Sends n i := by
  rw [handOver, tcpSendSeg, Sends]
  cases (n.socks i).dev with
  | none => rfl
  | some d => cases mbufAlloc0 n.pool <;> rfl

theorem handOver_of_not_sends (hno : ¬ Sends n i = true) (flags : UInt8) (seq ack : UInt32)
    (data : Option MbufPtr) : (handOver n i flags seq ack data).1 = n.freeMbuf data := by
  rw [Sends] at hno
  rw [handOver, tcpSendSeg]
  cases hdev : (n.socks i).dev with
  | none => rfl
  | some d =>
    cases halloc : mbufAlloc0 n.pool with
    | none => rfl
    | some r => simp [hdev, halloc] at hno

/-- The calls that take from a receive chain free no mbuf with another one behind it.  `tcp_close`
frees the chain when its `FIN` has been sent, and at once if it sends none. -/
def Active.Careful (a : Active) : Action → Prop
  | .tcpRecv i max => RecvSafe a.n i max
  | .tcpClose sock => ∀ i, sockIndex sock = some i → (a.n.socks i).inUse = true →
      ¬ ((a.n.socks i).state = .established ∧ Sends a.n i = true) → CloseSafe a.n i
  | .returns j _ => ∀ i, a.calls[j]? = some (.close i) → CloseSafe a.n i
  | _ => True

theorem Guarded.beginClose (h : Guarded n ks) (sock : ℤ)
    (hsafe : ∀ i, sockIndex sock = some i → (n.socks i).inUse = true →
      ¬ ((n.socks i).state = .established ∧ Sends n i = true) → CloseSafe n i) :
    Entered (Net.beginClose n sock) ks := by
  refine h.onSock sock fun i hi huse => ?_
  split
  case isTrue hest =>
    dsimp only
    rw [handOver_snd]
    split
    case isTrue => exact h.handOver none rfl i _ _ _
    case isFalse hno =>
      rw [handOver_of_not_sends hno]
      exact h.ofSock fun own hs => finSent_sound hs (hsafe i hi huse fun hs => hno hs.2)
  case isFalse hest =>
    exact h.ofSock fun own hs => closeSock_sound hs (hsafe i hi huse fun hs => hest hs.1)

variable {a : Active}

/-- What holds of the calls inside a send. -/
def Active.Guarded (a : Active) : Prop := Net.Guarded a.n (a.calls.flatMap Rest.packets)

theorem Active.Guarded.enter {a : Active} {r : Stack × List Rest}
    (h : Entered r (a.calls.flatMap Rest.packets)) : (a.enter r).Guarded := by
  rw [Active.Guarded, Active.enter, flatMap_append]
  exact h

/-- **One action.** -/
theorem actStep_guarded (h : a.Guarded) (e : Action) (he : a.Careful e) :
    (actStep a e).Guarded := by
  cases e with
  | lower op => exact h.keeps (.lowerOp _ op)
  | tcpSocket dev => exact h.keeps (tcpSocket_keeps _ dev)
  | tcpBind sock port => exact h.keeps (tcpBind_keeps _ sock port)
  | tcpListen sock => exact h.keeps (tcpListen_keeps _ sock)
  | tcpConnect sock dstIp dstPort dev => exact .enter (h.beginConnect sock dstIp dstPort dev)
  | tcpConnectWoken i => exact h.keeps (tcpConnectWoken_keeps _ i)
  | tcpSend sock buf kmalloc => exact .enter (h.beginSend sock buf kmalloc)
  | tcpSendWoken i rest kmalloc => exact .enter (h.beginSendLoop i rest kmalloc)
  | tcpRecv i max =>
    rw [actStep, netStep]
    split
    · refine Net.Guarded.ofSock (i := i) h fun own hs => ?_
      obtain ⟨own', hs', hf⟩ := tcpRecvWoken_sound hs he
      exact ⟨own', hs', hf.mono fun _ => .inl⟩
    · exact h
  | tcpClose sock => exact .enter (h.beginClose sock he)
  | tcpRx dev src m =>
    rw [actStep]
    split
    case isTrue hm => exact .enter ((h.take hm).beginRx dev src)
    case isFalse => exact h
  | returns j ok =>
    rw [actStep]
    cases hj : a.calls[j]? with
    | none => exact h
    | some k =>
      obtain ⟨hlt, rfl⟩ := List.getElem?_eq_some_iff.mp hj
      refine .enter (Net.Guarded.after _ (h.perm ?_) ok fun i hi => he i (hj.trans (congrArg _ hi)))
      exact (getElem_cons_eraseIdx_perm hlt).symm.flatMap_right Rest.packets

/-- The state after `net_init`, with no call inside a send. -/
def activeInit (page : MbufPtr → Option Buffer) : Active := ⟨netInit page, []⟩

theorem activeInit_guarded (page : MbufPtr → Option Buffer) : (activeInit page).Guarded := by
  obtain ⟨own, hs⟩ := netInit_sound page
  exact ⟨own, hs, nodup_nil, by simp [activeInit]⟩

/-- The driver fills the mbuf `m`, the segment goes up, and the send it makes returns. -/
def segmentComes (m : MbufPtr) (flags : UInt8) (len : ℕ) : List Action :=
  [.lower .alloc, .lower (.write m (sampleSegment flags len)), .tcpRx 0 1 m, .returns 0 true]

/-- Socket 0 connects to port 80 and the peer answers before the send of the `SYN` returns. -/
def connectInside : List Action :=
  [.tcpSocket (some 0), .tcpConnect 0 1 80 (some 0)] ++ segmentComes 1 0x12 20 ++ [.returns 0 true]

/-- One byte arrives while the `FIN` of `tcp_close` is being sent. -/
def byteInClose : List Action :=
  connectInside ++ [.tcpClose 0] ++ segmentComes 3 0x10 21 ++ [.returns 0 true]

instance (n : Stack) (i : Fin 32) : Decidable (CloseSafe n i) :=
  inferInstanceAs (Decidable (∀ k, (n.socks i).rxBuf = some k → n.pool.nextSeg k = none))

instance (a : Active) : (e : Action) → Decidable (a.Careful e)
  | .tcpRecv i max => inferInstanceAs (Decidable (RecvSafe a.n i max))
  | .tcpClose sock => inferInstanceAs (Decidable (∀ i, sockIndex sock = some i →
      (a.n.socks i).inUse = true →
        ¬ ((a.n.socks i).state = .established ∧ Sends a.n i = true) → CloseSafe a.n i))
  | .returns j _ =>
    inferInstanceAs (Decidable (∀ i, a.calls[j]? = some (.close i) → CloseSafe a.n i))
  | .lower _ | .tcpSocket _ | .tcpBind .. | .tcpListen _ | .tcpConnect .. | .tcpConnectWoken _
  | .tcpSend .. | .tcpSendWoken .. | .tcpRx .. => isTrue trivial

end AxiomeOS.Net
