import AxiomeOS.Net.Receive

/-!
# The byte stream of a connection

The receive chain of a socket is a queue of bytes.  `Queued n i q` says that it holds the bytes
`q`: an arriving segment puts its payload at the end (`segment_queued`), `tcp_recv` takes from the
front what it returns (`tcpRecvWoken_queued`).

Nothing in `tcp_rx` compares the sequence number of a segment with `rcv_nxt`, and `rcv_nxt` moves
on by the payload whether it was queued or not.  The bytes read are therefore a prefix of the
peer's stream, and `rcv_nxt` is the number of bytes stored, in the runs in which each segment
with payload starts at `rcv_nxt` and fits the receive buffer, and `tcp_recv` frees no mbuf with
another one behind it (`stream_of_inOrder_run`).  Each call is one step: `tcp_rx`, which `kmain`
runs with interrupts on, is taken not to be switched away from (see `Net.Reentry`).
-/

namespace AxiomeOS.Net

open Bytes Chains Runs List Stack

variable {q : List UInt8}

variable {n n' : Stack} {own own' : MbufPtr → Owner} {T : Owner → Prop} {p : Pool}

/-! ### The receive chain as a queue of bytes -/

/-- The bytes in a list of mbufs. -/
def chainBytes (p : Pool) (l : List MbufPtr) : List UInt8 := l.flatMap fun k => (p.mbuf k).bytes

/-- The receive chain of socket `i` holds the bytes `q`, and `rx_len` is their number. -/
def Queued (n : Stack) (i : Fin 32) (q : List UInt8) : Prop :=
  ∃ l, Chain n.pool.nextSeg (n.socks i).rxBuf l ∧ chainBytes n.pool l = q ∧
    (n.socks i).rxLen = q.length

theorem Mbuf.length_bytes (m : Mbuf) : m.bytes.length = m.len := by
  rw [Mbuf.bytes, length_map, length_range]

variable {b : Mbuf} {l : List MbufPtr} {i : Fin 32} {max off : ℕ} {h : TcpHdr} {m : MbufPtr}
  {src : UInt32}

theorem SameData.bytes {b' : Mbuf} (h : SameData b b') : b'.bytes = b.bytes := by
  rw [Mbuf.bytes, Mbuf.bytes, h.data, h.dataOff, h.len]

theorem chainBytes_congr {p p' : Pool} (h : ∀ k ∈ l, SameData (p.mbuf k) (p'.mbuf k)) :
    chainBytes p' l = chainBytes p l :=
  flatMap_congr fun k hk => (h k hk).bytes

theorem Queued.of_frame (h : Queued n i q) (hs : Sound n own)
    (hf : Frame T n.pool own n'.pool own') (hT : ¬ T (.rx i))
    (hbuf : (n'.socks i).rxBuf = (n.socks i).rxBuf)
    (hlen : (n'.socks i).rxLen = (n.socks i).rxLen) : Queued n' i q := by
  obtain ⟨l, hl, hbytes, hq⟩ := h
  have hsame : ∀ k ∈ l, n'.pool.mbuf k = n.pool.mbuf k := fun k hk =>
    (hf k (hs.own_rx hl k hk ▸ hT)).2
  refine ⟨l, ?_, ?_, hlen.trans hq⟩
  · rw [hbuf]
    exact hl.frame fun k hk => congrArg Mbuf.nextSeg (hsame k hk)
  · rw [← hbytes]
    exact chainBytes_congr fun k hk => by
      rw [hsame k hk]
      exact ⟨rfl, rfl, rfl⟩

/-! ### Reading -/

/-- **`mbuf_copyout` copies from the front of the chain.** -/
theorem mbufCopyout_eq {fuel dstLen : ℕ} {rx : Option MbufPtr} (hl : Chain p.nextSeg rx l)
    (hfuel : l.length ≤ fuel) : mbufCopyout fuel p dstLen rx 0 = (chainBytes p l).take dstLen := by
  induction l generalizing fuel dstLen rx with
  | nil =>
    rw [show rx = none from hl]
    cases fuel <;> simp [mbufCopyout, chainBytes]
  | cons k l ih =>
    obtain ⟨fuel, rfl⟩ : ∃ j, fuel = j + 1 := ⟨fuel - 1, by simp at hfuel; omega⟩
    have hrest : l.length ≤ fuel := by simpa using hfuel
    have hlen := (p.mbuf k).length_bytes
    rw [show rx = some k from hl.1, mbufCopyout]
    dsimp only
    split
    · rename_i hzero
      rw [hzero, take_zero]
    · rw [show chainBytes p (k :: l) = (p.mbuf k).bytes ++ chainBytes p l from rfl]
      split
      · -- The first `min len dstLen` bytes come from this mbuf.
        have hhead : (range (min ((p.mbuf k).len - 0) dstLen)).map
            (fun j => (p.mbuf k).data ((p.mbuf k).dataOff + 0 + j)) =
            (p.mbuf k).bytes.take dstLen := by
          rw [Mbuf.bytes, ← map_take, take_range, Nat.sub_zero, Nat.min_comm]
          rfl
        have htail : Chain p.nextSeg (p.mbuf k).nextSeg l := hl.2
        rw [hhead, ih htail hrest, take_append, hlen, Nat.sub_zero]
        congr 2
        omega
      · have hempty : (p.mbuf k).bytes = [] := length_eq_zero_iff.mp (by omega)
        rw [hempty, nil_append, Nat.zero_sub]
        exact ih hl.2 hrest

theorem Mbuf.bytes_advance (m : Mbuf) (c : ℕ) : (m.advance c).bytes = m.bytes.drop c := by
  apply ext_getElem
  · rw [Mbuf.length_bytes, length_drop, Mbuf.length_bytes]
    rfl
  · intro j h1 h2
    simp only [Mbuf.bytes, getElem_drop, getElem_map, getElem_range, Mbuf.advance]
    congr 1
    omega

/-- What is left in the chain when `c` bytes are consumed. -/
theorem consume_bytes {c : ℕ} {k : MbufPtr} (hl : Chain p.nextSeg (some k) (k :: l))
    (hguard : p.nextSeg k = none ∨ c < (p.mbuf k).len) :
    ∃ l', Chain (consume 256 p (some k) c).1.nextSeg (consume 256 p (some k) c).2 l' ∧
      chainBytes (consume 256 p (some k) c).1 l' = (chainBytes p (k :: l)).drop c := by
  have hk := (p.mbuf k).length_bytes
  rw [consume_eq 254 hguard]
  split
  case isTrue hzero => exact ⟨k :: l, hl, by rw [hzero, drop_zero]⟩
  split
  case isTrue hall =>
    -- The only mbuf is used up.
    obtain rfl : l = [] := Chain.unique (hguard.resolve_right (by omega) ▸ hl.2) rfl
    refine ⟨[], rfl, (drop_eq_nil_of_le ?_).symm⟩
    simpa [chainBytes, hk] using hall
  case isFalse hless =>
    refine ⟨k :: l, ?_, ?_⟩
    · rw [p.modify_nextSeg k rfl]
      exact hl
    · have hrest : chainBytes (p.modify k (Mbuf.advance c)) l = chainBytes p l := by
        refine chainBytes_congr fun j hj => ?_
        have hjk : j ≠ k := fun h => (nodup_cons.mp hl.nodup).1 (h ▸ hj)
        rw [p.modify_mbuf_of_ne _ hjk]
        exact ⟨rfl, rfl, rfl⟩
      show ((p.modify k (Mbuf.advance c)).mbuf k).bytes ++
        chainBytes (p.modify k (Mbuf.advance c)) l = ((p.mbuf k).bytes ++ chainBytes p l).drop c
      rw [Pool.modify_mbuf_self, Mbuf.bytes_advance, hrest, drop_append_of_le_length (by omega)]

/-- **`tcp_recv` takes from the front of the queue what it returns.** -/
theorem tcpRecvWoken_queued (hq : Queued n i q) (hsafe : RecvSafe n i max) :
    ∃ q', q = (tcpRecvWoken n i max).2 ++ q' ∧ Queued (tcpRecvWoken n i max).1 i q' := by
  obtain ⟨l, hl, hbytes, hlen⟩ := hq
  rw [tcpRecvWoken]
  dsimp only
  split
  case isTrue => exact ⟨q, rfl, l, hl, hbytes, hlen⟩
  case isFalse hne =>
    have hout : mbufCopyout 256 n.pool (min (n.socks i).rxLen max) (n.socks i).rxBuf 0 =
        q.take (min q.length max) := by
      rw [mbufCopyout_eq hl (by simpa using hl.length_le), hbytes, hlen]
    -- `c` bytes are taken.
    obtain ⟨c, hc⟩ : ∃ c, c = min q.length max := ⟨_, rfl⟩
    have hclen : (q.take c).length = c := by
      rw [length_take]
      omega
    rw [hout, ← hc, hclen]
    refine ⟨q.drop c, (take_append_drop c q).symm, ?_⟩
    cases l with
    | nil => exact absurd (hlen.trans (by rw [← hbytes]; rfl)) hne
    | cons k l =>
      have hrx : (n.socks i).rxBuf = some k := hl.1
      obtain ⟨l', hl', hbytes'⟩ := consume_bytes ⟨rfl, hl.2⟩ (hc ▸ hlen ▸ hsafe k hrx)
      rw [hrx]
      refine ⟨l', ?_, hbytes'.trans (by rw [hbytes]), ?_⟩
      · rw [modifySock_socks_self]
        exact hl'
      · rw [modifySock_socks_self, length_drop, ← hlen]

/-! ### Segments -/

/-- The payload of a received packet. -/
def Mbuf.payload (b : Mbuf) : List UInt8 := b.bytes.drop b.tcpHdr.ihl

theorem Mbuf.strip_eq_advance {ihl : ℕ} (h : ihl ≤ b.len) (hlen : b.len ≤ mbufDataSize) :
    b.strip ihl = b.advance ihl := by
  rw [Mbuf.strip, payloadLength_of_le h hlen, Mbuf.advance]

/-- A packet in `m` that carries the bytes of `stream` from `off` on, for the connection of socket
`i`, whose peer numbers its first byte `base`.  The `FIN` that ends a stream is not among them. -/
structure IsSegment (n : Stack) (i : Fin 32) (base : UInt32) (stream : List UInt8) (off : ℕ)
    (src : UInt32) (m : MbufPtr) : Prop where
  held : m ∈ n.held
  size : (n.pool.mbuf m).dataOff + (n.pool.mbuf m).len ≤ mbufDataSize
  header : 20 ≤ (n.pool.mbuf m).tcpHdr.ihl ∧ (n.pool.mbuf m).tcpHdr.ihl ≤ (n.pool.mbuf m).len
  sock : findSock n (n.pool.mbuf m).tcpHdr src = some i
  noFin : hasFlag (n.pool.mbuf m).tcpHdr.flags tcpFin = false
  seq : (n.pool.mbuf m).tcpHdr.seq = base + UInt32.ofNat off
  bytes : (n.pool.mbuf m).payload = (stream.drop off).take (n.pool.mbuf m).payload.length
  inside : off + (n.pool.mbuf m).payload.length ≤ stream.length

instance (n : Stack) (i : Fin 32) (base : UInt32) (stream : List UInt8) (off : ℕ) (src : UInt32)
    (m : MbufPtr) : Decidable (IsSegment n i base stream off src m) :=
  decidable_of_iff
    (m ∈ n.held ∧ (n.pool.mbuf m).dataOff + (n.pool.mbuf m).len ≤ mbufDataSize ∧
      (20 ≤ (n.pool.mbuf m).tcpHdr.ihl ∧ (n.pool.mbuf m).tcpHdr.ihl ≤ (n.pool.mbuf m).len) ∧
      findSock n (n.pool.mbuf m).tcpHdr src = some i ∧
      hasFlag (n.pool.mbuf m).tcpHdr.flags tcpFin = false ∧
      (n.pool.mbuf m).tcpHdr.seq = base + UInt32.ofNat off ∧
      (n.pool.mbuf m).payload = (stream.drop off).take (n.pool.mbuf m).payload.length ∧
      off + (n.pool.mbuf m).payload.length ≤ stream.length)
    ⟨fun ⟨h₁, h₂, h₃, h₄, h₅, h₆, h₇, h₈⟩ => ⟨h₁, h₂, h₃, h₄, h₅, h₆, h₇, h₈⟩,
      fun h => ⟨h.held, h.size, h.header, h.sock, h.noFin, h.seq, h.bytes, h.inside⟩⟩

theorem finished_of_noFin (n : Stack) (i : Fin 32) (w : Wire)
    (hfin : hasFlag h.flags tcpFin = false) : finished n i h w = n := by
  rw [finished, hfin]
  rfl

/-- On an established connection, a payload with room in the receive buffer goes to the end of the
queue, and `rcv_nxt` moves on by its length. -/
theorem rxEstablished_appends (hs : Sound n own)
    (hm : Holds own (.call m) n.pool.nextSeg (some m)) (hq : Queued n i q)
    (hfin : hasFlag h.flags tcpFin = false)
    (hroom : q.length + (n.pool.mbuf m).len ≤ 65536) (w₁ w₂ : Wire) :
    Queued (rxEstablished n i h m (n.pool.mbuf m).len w₁ w₂) i (q ++ (n.pool.mbuf m).bytes) ∧
      ((rxEstablished n i h m (n.pool.mbuf m).len w₁ w₂).socks i).rcvNxt =
        (n.socks i).rcvNxt + UInt32.ofNat (n.pool.mbuf m).len ∧
      ((rxEstablished n i h m (n.pool.mbuf m).len w₁ w₂).socks i).state = (n.socks i).state := by
  have hq0 := hq
  obtain ⟨l, hl, hbytes, hlen⟩ := hq
  have hmlen := (n.pool.mbuf m).length_bytes
  have hnowrap : ((n.socks i).rxLen + (n.pool.mbuf m).len) % 2 ^ 64 =
      (n.socks i).rxLen + (n.pool.mbuf m).len := Nat.mod_eq_of_lt (by omega)
  have hfits : dataFits (n.socks i) (n.pool.mbuf m).len = true := by
    rw [dataFits, hnowrap]
    exact decide_eq_true (by omega)
  by_cases hpos : 0 < (n.pool.mbuf m).len
  · have hres := rxEstablished_of_fits hpos hfits h m w₁ w₂
    rw [finished_of_noFin _ i w₂ hfin] at hres
    obtain ⟨own', -, -, hl', hsame⟩ := rxEstablished_queued hs hm hpos hfits hl hres
    rw [hres]
    refine ⟨⟨l ++ [m], hl', ?_, ?_⟩, ?_, ?_⟩
    · rw [chainBytes_congr hsame, ← hbytes, chainBytes, flatMap_append, flatMap_singleton]
      rfl
    · rw [sendAck_socks, (dataArrived_sock ..).2.2 (dataFits_acked n i h _ ▸ hfits),
        (acked_sameRx n i h i).2, hnowrap, length_append, hlen, hmlen]
    · rw [sendAck_socks, (dataArrived_sock ..).1, (acked_sock n i h).1]
    · rw [sendAck_socks, (dataArrived_sock ..).2.1, (acked_sock n i h).2]
  · have hzero : (n.pool.mbuf m).len = 0 := by omega
    have hempty : (n.pool.mbuf m).bytes = [] := length_eq_zero_iff.mp (by omega)
    have hno : ¬ (0 < (n.pool.mbuf m).len ∧ dataFits (n.socks i) (n.pool.mbuf m).len = true) :=
      fun hq => hpos hq.1
    have hres := rxEstablished_of_not_fits hno h m w₁ w₂
    rw [finished_of_noFin _ i w₂ hfin, if_neg hpos] at hres
    obtain ⟨own', -, hf⟩ := (acked_keeps n i h).free_call hs hm
    rw [hres]
    refine ⟨?_, ?_, ?_⟩
    · rw [hempty, append_nil]
      refine hq0.of_frame hs hf ?_ ?_ ?_
      · rintro (h | h)
        · exact not_aside_rx i h
        · cases h
      · rw [freeMbuf_socks, (acked_sameRx n i h i).1]
      · rw [freeMbuf_socks, (acked_sameRx n i h i).2]
    · rw [freeMbuf_socks, (acked_sock n i h).1, hzero]
      simp
    · rw [freeMbuf_socks, (acked_sock n i h).2]

/-- **A segment puts its payload at the end of the queue.** -/
theorem segment_queued (hs : Sound n own) {base : UInt32} {stream : List UInt8}
    (hest : (n.socks i).state = .established)
    (hq : Queued n i q) (hseg : IsSegment n i base stream off src m)
    (hroom : q.length + (n.pool.mbuf m).payload.length ≤ 65536) (dev : ℕ) (w₁ w₂ : Wire) :
    Queued (netStep n (.tcpRx dev src m w₁ w₂)) i (q ++ (n.pool.mbuf m).payload) ∧
      ((netStep n (.tcpRx dev src m w₁ w₂)).socks i).rcvNxt =
        (n.socks i).rcvNxt + UInt32.ofNat (n.pool.mbuf m).payload.length ∧
      ((netStep n (.tcpRx dev src m w₁ w₂)).socks i).state = .established := by
  obtain ⟨own', hs', hcall, hf⟩ := hs.headerOff hseg.held
  have hq' : Queued (headerOff n m) i q := hq.of_frame hs hf (by simp) rfl rfl
  have hshort : ¬ (n.pool.mbuf m).len < 20 := by
    have := hseg.header
    omega
  -- What is left of the packet when the header is off.
  have hbytes : ((headerOff n m).pool.mbuf m).bytes = (n.pool.mbuf m).payload := by
    have hsize := hseg.size
    rw [headerOff_mbuf, Mbuf.strip_eq_advance hseg.header.2 (by omega), Mbuf.bytes_advance,
      Mbuf.payload]
  have hlen : ((headerOff n m).pool.mbuf m).len = (n.pool.mbuf m).payload.length := by
    rw [← hbytes, Mbuf.length_bytes]
  have hpl : payloadLength (n.pool.mbuf m).len (n.pool.mbuf m).tcpHdr.ihl =
      ((headerOff n m).pool.mbuf m).len := (congrArg Mbuf.len (headerOff_mbuf n m)).symm
  have hsock : findSock (headerOff n m) (n.pool.mbuf m).tcpHdr src = some i := hseg.sock
  have hest' : ((headerOff n m).socks i).state = .established := hest
  have happ := rxEstablished_appends hs' hcall hq' hseg.noFin (hlen ▸ hroom) w₁ w₂
  rw [netStep_tcpRx hseg.held hshort, rxSegment, hsock, hpl]
  dsimp only
  rw [if_pos hest', ← hbytes, Mbuf.length_bytes]
  exact ⟨happ.1, happ.2.1, happ.2.2.trans hest⟩

/-! ### Connections -/

/-- A connection seen from outside: the stack, the bytes `tcp_recv` has returned so far, and how
far `rcv_nxt` has moved. -/
structure Conn where
  net : Stack
  out : List UInt8
  pos : ℕ

/-- What happens on a connection: a segment that starts at `off` in the peer's stream, a
`tcp_recv`, and the layers below at work on packets of their own. -/
inductive ConnEvent
  | segment (off dev : ℕ) (src : UInt32) (m : MbufPtr) (w₁ w₂ : Wire)
  | recv (max : ℕ)
  | lower (op : LowerOp)

/-- The stack after an event of the connection of socket `i`. -/
def connNet (i : Fin 32) (n : Stack) : ConnEvent → Stack
  | .segment _ dev src m w₁ w₂ => netStep n (.tcpRx dev src m w₁ w₂)
  | .recv max => (tcpRecvWoken n i max).1
  | .lower op => lowerOp n op

/-- The bytes an event returns to the reader. -/
def connOut (i : Fin 32) (n : Stack) : ConnEvent → List UInt8
  | .segment .. => []
  | .recv max => (tcpRecvWoken n i max).2
  | .lower _ => []

/-- When an event can happen: a segment carries bytes of the peer's stream, and `tcp_recv` has
what it waits for. -/
def connEnabled (i : Fin 32) (base : UInt32) (stream : List UInt8) (n : Stack) : ConnEvent → Prop
  | .segment off _ src m _ _ => IsSegment n i base stream off src m
  | .recv _ => predTcpRecv (n.socks i) = true
  | .lower _ => True

/-- The connection after an event.  `pos` follows `rcv_nxt` without wrapping round. -/
def connNext (i : Fin 32) (c : Conn) (e : ConnEvent) : Conn where
  net := connNet i c.net e
  out := c.out ++ connOut i c.net e
  pos := c.pos + (((connNet i c.net e).socks i).rcvNxt - (c.net.socks i).rcvNxt).toNat

/-- One event. -/
def connStep (i : Fin 32) (base : UInt32) (stream : List UInt8) (c : Conn) (e : ConnEvent)
    (c' : Conn) : Prop :=
  connEnabled i base stream c.net e ∧ c' = connNext i c e

/-- The bytes returned are a prefix of the peer's stream, and `rcv_nxt` is not ahead of the bytes
stored: those returned and those in the receive chain. -/
def StreamOk (i : Fin 32) (stream : List UInt8) (c : Conn) : Prop :=
  c.out <+: stream ∧ ∃ l, Chain c.net.pool.nextSeg (c.net.socks i).rxBuf l ∧
    c.pos ≤ (c.out ++ chainBytes c.net.pool l).length

/-- A segment with payload starts at `rcv_nxt` and fits the receive buffer; `tcp_recv` frees no
mbuf that has another one behind it. -/
def InOrder (i : Fin 32) (c : Conn) : ConnEvent → Prop
  | .segment off _ _ m _ _ => (c.net.pool.mbuf m).payload ≠ [] →
      off = c.pos ∧ (c.net.socks i).rxLen + (c.net.pool.mbuf m).payload.length ≤ 65536
  | .recv max => RecvSafe c.net i max
  | .lower _ => True

/-- What every state of an in-order run satisfies: the bytes returned and the bytes queued are
the first `pos` bytes of the stream. -/
structure ConnInv (i : Fin 32) (stream : List UInt8) (c : Conn) : Prop where
  sound : ∃ own, Sound c.net own
  established : (c.net.socks i).state = .established
  stored : ∃ q, Queued c.net i q ∧ c.out ++ q = stream.take c.pos
  inside : c.pos ≤ stream.length
  rxLen_le : (c.net.socks i).rxLen ≤ 65536

theorem tcpRecvWoken_socks (n : Stack) (i : Fin 32) (max : ℕ) :
    ((tcpRecvWoken n i max).1.socks i).rcvNxt = (n.socks i).rcvNxt ∧
      ((tcpRecvWoken n i max).1.socks i).state = (n.socks i).state ∧
      ((tcpRecvWoken n i max).1.socks i).rxLen ≤ (n.socks i).rxLen := by
  rw [tcpRecvWoken]
  split
  · exact ⟨rfl, rfl, Nat.le_refl _⟩
  · rw [modifySock_socks_self]
    exact ⟨rfl, rfl, Nat.sub_le _ _⟩

variable {i : Fin 32} {base : UInt32} {stream : List UInt8} {c c' : Conn}

theorem ConnInv.segment (h : ConnInv i stream c) {dev : ℕ}
    {w₁ w₂ : Wire} (hord : InOrder i c (.segment off dev src m w₁ w₂))
    (hstep : connStep i base stream c (.segment off dev src m w₁ w₂) c') : ConnInv i stream c' := by
  obtain ⟨hseg, rfl⟩ := hstep
  obtain ⟨own, hs⟩ := h.sound
  obtain ⟨q, hq, hstored⟩ := h.stored
  rw [connEnabled] at hseg
  obtain ⟨l, hl, hbytes, hqlen⟩ := hq
  have hle := h.rxLen_le
  have hroom : q.length + (c.net.pool.mbuf m).payload.length ≤ 65536 := by
    by_cases hempty : (c.net.pool.mbuf m).payload = []
    · rw [hempty, length_nil]
      omega
    · rw [← hqlen]
      exact (hord hempty).2
  obtain ⟨hq', hnxt, hst⟩ := segment_queued hs h.established ⟨l, hl, hbytes, hqlen⟩ hseg hroom
    dev w₁ w₂
  -- `rcv_nxt` moves by the payload, which is far below 2^32.
  have hmove : (connNext i c (.segment off dev src m w₁ w₂)).pos =
      c.pos + (c.net.pool.mbuf m).payload.length := by
    rw [connNext, connNet, hnxt, UInt32.add_comm, UInt32.add_sub_cancel, UInt32.toNat_ofNat',
      Nat.mod_eq_of_lt (by omega)]
  have hnew : c.out ++ (q ++ (c.net.pool.mbuf m).payload) =
        stream.take (c.pos + (c.net.pool.mbuf m).payload.length) ∧
      c.pos + (c.net.pool.mbuf m).payload.length ≤ stream.length := by
    by_cases hempty : (c.net.pool.mbuf m).payload = []
    · rw [hempty, append_nil, length_nil, Nat.add_zero]
      exact ⟨hstored, h.inside⟩
    · have hoff := (hord hempty).1
      have hbytes' := hseg.bytes
      have hin := hseg.inside
      rw [hoff] at hbytes' hin
      refine ⟨?_, hin⟩
      rw [← append_assoc, hstored, take_add, ← hbytes']
  refine ⟨netStep_sound hs (.tcpRx dev src m w₁ w₂) trivial, hst,
    ⟨q ++ (c.net.pool.mbuf m).payload, hq', ?_⟩, ?_, ?_⟩
  · rw [hmove, connNext, connOut, append_nil]
    exact hnew.1
  · rw [hmove]
    exact hnew.2
  · obtain ⟨-, -, -, hlen'⟩ := hq'
    rw [connNext, connNet, hlen', length_append]
    exact hroom

theorem ConnInv.recv (h : ConnInv i stream c) (hsafe : RecvSafe c.net i max)
    (hstep : connStep i base stream c (.recv max) c') : ConnInv i stream c' := by
  obtain ⟨-, rfl⟩ := hstep
  obtain ⟨own, hs⟩ := h.sound
  obtain ⟨q, hq, hstored⟩ := h.stored
  obtain ⟨q', hsplit, hq'⟩ := tcpRecvWoken_queued hq hsafe
  obtain ⟨hnxt, hst, hlen⟩ := tcpRecvWoken_socks c.net i max
  have hstay : (connNext i c (.recv max)).pos = c.pos := by
    rw [connNext, connNet, hnxt, UInt32.sub_self]
    rfl
  obtain ⟨own', hs', -⟩ := tcpRecvWoken_sound hs hsafe
  refine ⟨⟨own', hs'⟩, hst.trans h.established, ⟨q', hq', ?_⟩, ?_, hlen.trans h.rxLen_le⟩
  · rw [hstay, ← hstored, connNext, connOut, append_assoc, ← hsplit]
  · rw [hstay]
    exact h.inside

theorem ConnInv.lower (h : ConnInv i stream c) {op : LowerOp}
    (hstep : connStep i base stream c (.lower op) c') : ConnInv i stream c' := by
  obtain ⟨-, rfl⟩ := hstep
  obtain ⟨own, hs⟩ := h.sound
  obtain ⟨q, hq, hstored⟩ := h.stored
  have hsocks := lowerOp_socks c.net op
  obtain ⟨own', hs', hf⟩ := lowerOp_sound hs op
  have hstay : (connNext i c (.lower op)).pos = c.pos := by
    rw [connNext, connNet, hsocks, UInt32.sub_self]
    rfl
  refine ⟨⟨own', hs'⟩, ?_, ⟨q, ?_, ?_⟩, ?_, ?_⟩
  · rw [connNext, connNet, hsocks]
    exact h.established
  · exact hq.of_frame hs hf (not_below_rx i) (congrArg (fun s => (s i).rxBuf) hsocks)
      (congrArg (fun s => (s i).rxLen) hsocks)
  · rw [hstay, connNext, connOut, append_nil]
    exact hstored
  · rw [hstay]
    exact h.inside
  · rw [connNext, connNet, hsocks]
    exact h.rxLen_le

theorem ConnInv.streamOk (h : ConnInv i stream c) : StreamOk i stream c := by
  obtain ⟨q, ⟨l, hl, hbytes, -⟩, hstored⟩ := h.stored
  refine ⟨?_, l, hl, ?_⟩
  · have hpre : c.out <+: stream.take c.pos := ⟨q, hstored⟩
    exact hpre.trans (List.take_prefix _ _)
  · rw [hbytes, hstored, length_take]
    have := h.inside
    omega

/-- **What is read is a prefix of what was sent.**  From an established connection with nothing
queued, in every run of segments of the peer's stream and calls of `tcp_recv` in which every
segment with payload starts at `rcv_nxt` and fits, and no mbuf is freed that has another one
behind it. -/
theorem stream_of_inOrder_run (i : Fin 32) (stream : List UInt8) (n : Stack)
    (hs : ∃ own, Sound n own) (hest : (n.socks i).state = .established)
    (hempty : (n.socks i).rxBuf = none ∧ (n.socks i).rxLen = 0) {es : List ConnEvent} {c : Conn}
    (hrun : RunIn (InOrder i) (connStep i (n.socks i).rcvNxt stream) ⟨n, [], 0⟩ es c) :
    StreamOk i stream c := by
  have hinit : ConnInv i stream ⟨n, [], 0⟩ :=
    ⟨hs, hest, ⟨[], ⟨[], hempty.1, rfl, hempty.2⟩, rfl⟩, Nat.zero_le _, by
      rw [hempty.2]
      omega⟩
  refine (RunIn.invariant (ConnInv i stream) ?_ hrun hinit).streamOk
  intro c e c' hinv hord hstep
  cases e with
  | segment off dev src m w1 w2 => exact hinv.segment hord hstep
  | recv max => exact hinv.recv hord hstep
  | lower op => exact hinv.lower hstep

/-- The state in which the connection of `connectSample` is established. -/
def openSample : Stack := connectSample.foldl netStep (netInit fun _ => some fun _ => 0)

theorem openSample_sound : ∃ own, Sound openSample own := by
  refine sound_foldl ?_ (netInit_sound _)
  intro e he
  simp only [connectSample, segmentArrives, cons_append, nil_append, mem_cons,
    not_mem_nil, or_false] at he
  rcases he with rfl | rfl | rfl | rfl | rfl <;> trivial

/-- The first byte of the stream `[7, 8]` on that connection. -/
def firstByte : Mbuf :=
  { sampleSegment 0x10 21 with
    data := fun j => ([0, 80, 192, 1, 0, 0, 0, 1, 0, 0, 0, 0, 0x50, 0x10, 0, 0, 0, 0, 0, 0, 7] :
      List UInt8).getD j 0 }

/-- The driver delivers it and the reader reads one byte. -/
def readFirstByte : List ConnEvent :=
  [.lower .alloc, .lower (.write 1 firstByte), .segment 0 0 1 1 ⟨[], true⟩ ⟨[], true⟩, .recv 1]

/-- The first byte arrives and is read. -/
theorem stream_of_inOrder_run_firstByte :
    ∃ c, RunIn (InOrder 0) (connStep 0 (openSample.socks 0).rcvNxt [7, 8]) ⟨openSample, [], 0⟩
      readFirstByte c ∧ c.out = [7] ∧ StreamOk 0 [7, 8] c := by
  have hrun : RunIn (InOrder 0) (connStep 0 (openSample.socks 0).rcvNxt [7, 8])
      ⟨openSample, [], 0⟩ readFirstByte (readFirstByte.foldl (connNext 0) ⟨openSample, [], 0⟩) :=
    .cons ⟨trivial, trivial, rfl⟩ (.cons ⟨trivial, trivial, rfl⟩
      (.cons ⟨fun _ => by decide +kernel, (by decide +kernel : IsSegment _ 0 _ [7, 8] 0 1 1), rfl⟩
        (.cons ⟨(by decide +kernel : RecvSafe _ 0 1), (by decide +kernel : predTcpRecv _ = true),
          rfl⟩ (.nil _))))
  exact ⟨_, hrun, by decide +kernel, stream_of_inOrder_run 0 [7, 8] openSample openSample_sound
    (by decide +kernel) (by decide +kernel) hrun⟩

/-- The same segment arrives a second time and its byte is read again. -/
theorem duplicate_segment_read_twice :
    ∃ c, Run (connStep 0 (openSample.socks 0).rcvNxt [7, 8]) ⟨openSample, [], 0⟩
      (readFirstByte ++ readFirstByte) c ∧ c.out = [7, 7] ∧ ¬ StreamOk 0 [7, 8] c := by
  have hrun : Run (connStep 0 (openSample.socks 0).rcvNxt [7, 8]) ⟨openSample, [], 0⟩
      (readFirstByte ++ readFirstByte)
      ((readFirstByte ++ readFirstByte).foldl (connNext 0) ⟨openSample, [], 0⟩) := by
    iterate 2
      refine .cons ⟨trivial, rfl⟩ (.cons ⟨trivial, rfl⟩
        (.cons ⟨(by decide +kernel : IsSegment _ 0 _ [7, 8] 0 1 1), rfl⟩
          (.cons ⟨(by decide +kernel : predTcpRecv _ = true), rfl⟩ ?_)))
    exact .nil _
  have hout : ((readFirstByte ++ readFirstByte).foldl (connNext 0) ⟨openSample, [], 0⟩).out =
      [7, 7] := by
    decide +kernel
  refine ⟨_, hrun, hout, ?_⟩
  rintro ⟨hpre, -⟩
  rw [hout] at hpre
  exact absurd hpre (by decide)

end AxiomeOS.Net
