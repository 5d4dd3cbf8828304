import AxiomeOS.Lib.Runs
import AxiomeOS.Net.Operations

/-!
# The buffer pool is never corrupted

Each operation of `tcp.c` keeps `Sound`, with two exceptions.  `tcp_recv` and `tcp_close` take
the first mbuf off the receive chain and call `mbuf_free` on it while the rest of the chain still
hangs behind it; `mbuf_free` gives the rest back too, and the socket goes on using it.  Both are
harmless when no second mbuf is queued, `tcp_recv` also when it does not use up the first one.
-/

namespace AxiomeOS.Net

open Bytes Chains Runs List

variable {n : Stack} {own : MbufPtr → Owner} {p : Pool}

/-! ### Taking from the receive chain -/

/-- A call of `tcp_recv` that does not free an mbuf with another one behind it. -/
def RecvSafe (n : Stack) (i : Fin 32) (max : ℕ) : Prop :=
  ∀ k, (n.socks i).rxBuf = some k →
    n.pool.nextSeg k = none ∨ min (n.socks i).rxLen max < (n.pool.mbuf k).len

/-- At most one mbuf in the receive chain. -/
def CloseSafe (n : Stack) (i : Fin 32) : Prop :=
  ∀ k, (n.socks i).rxBuf = some k → n.pool.nextSeg k = none

theorem mbufCopyout_length_le (fuel : ℕ) (p : Pool) (dstLen : ℕ) (rx : Option MbufPtr) (off : ℕ) :
    (mbufCopyout fuel p dstLen rx off).length ≤ dstLen := by
  induction fuel generalizing dstLen rx off with
  | zero => exact Nat.zero_le _
  | succ fuel ih =>
    cases rx with
    | none => exact Nat.zero_le _
    | some k =>
      rw [mbufCopyout]
      split
      · exact Nat.zero_le _
      · split
        · have hrest := ih (dstLen - min ((p.mbuf k).len - off) dstLen) (p.mbuf k).nextSeg 0
          rw [length_append, length_map, length_range]
          omega
        · exact ih dstLen _ _

variable {k : MbufPtr} {c : ℕ} {i : Fin 32} {es : List Event}

theorem consume_eq (fuel : ℕ) (hguard : p.nextSeg k = none ∨ c < (p.mbuf k).len) :
    consume (fuel + 2) p (some k) c =
      if c = 0 then (p, some k)
      else if (p.mbuf k).len ≤ c then (mbufFree p k, none)
      else (p.modify k (Mbuf.advance c), some k) := by
  rw [consume]
  split
  · rfl
  · split
    · rename_i hlen
      rw [hguard.resolve_right (by omega), consume]
    · rfl

theorem consume_owned {t : Owner} (hp : Partition p own)
    (hk : Holds own t p.nextSeg (some k)) (ht : t ≠ .free)
    (hguard : p.nextSeg k = none ∨ c < (p.mbuf k).len) :
    ∃ own', Partition (consume 256 p (some k) c).1 own' ∧
      Frame (· = t) p own (consume 256 p (some k) c).1 own' ∧
      Holds own' t (consume 256 p (some k) c).1.nextSeg (consume 256 p (some k) c).2 := by
  rw [consume_eq 254 hguard]
  split
  · exact ⟨own, hp, .refl _ _ _, hk⟩
  · split
    · obtain ⟨own', hp', hf, -, -⟩ := mbufFree_owned hp hk ht
      exact ⟨own', hp', hf, .null _ _⟩
    · have hown := hk.own_head
      have hseg : (p.modify k (Mbuf.advance c)).nextSeg = p.nextSeg := p.modify_nextSeg k rfl
      have hf := Frame.modify p own k (Mbuf.advance c)
      rw [hown] at hf
      refine ⟨own, hp.modify (Mbuf.advance c) (hown ▸ ht) (hp.refs k), hf, ?_⟩
      rw [hseg]
      exact hk

/-- **`tcp_recv` keeps the pool sound** as long as it frees no mbuf with another one behind it. -/
theorem tcpRecvWoken_sound (hs : Sound n own) {max : ℕ} (hsafe : RecvSafe n i max) :
    ∃ own', Sound (tcpRecvWoken n i max).1 own' ∧
      Frame (· = .rx i) n.pool own (tcpRecvWoken n i max).1.pool own' := by
  rw [tcpRecvWoken]
  split
  · exact ⟨own, hs, .refl _ _ _⟩
  · cases hrx : (n.socks i).rxBuf with
    | none =>
      refine ⟨own, hs.setSock i (fun s => { s with rxBuf := none, rxLen := s.rxLen - 0 })
        (.null _ _) (hs.tx i) (hs.txNodup i), .refl _ _ _⟩
    | some k =>
      have hk : Holds own (.rx i) n.pool.nextSeg (some k) := hrx ▸ hs.rx i
      have hlen := mbufCopyout_length_le 256 n.pool (min (n.socks i).rxLen max) (some k) 0
      obtain ⟨own', hp', hf, hholds⟩ := consume_owned hs.part hk (by simp)
        ((hsafe k hrx).imp id fun h => Nat.lt_of_le_of_lt hlen h)
      dsimp only
      refine ⟨own', hs.of_frame_sock hp' hf i _ ?_ (by simp) (by simp) hholds ?_ (hs.txNodup i), hf⟩
      · intro j hj
        simpa using hj
      · intro s hsq
        exact hf.holds (by simp) (hs.tx i s hsq)

theorem freeRx_single (fuel : ℕ) (hnone : p.nextSeg k = none) :
    freeRx (fuel + 2) p (some k) = mbufFree p k := by
  rw [freeRx, hnone, freeRx]

theorem freeRx_owned (hs : Sound n own) (hsafe : CloseSafe n i) :
    ∃ own', Partition (freeRx 256 n.pool (n.socks i).rxBuf) own' ∧
      Frame (· = .rx i) n.pool own (freeRx 256 n.pool (n.socks i).rxBuf) own' := by
  cases hrx : (n.socks i).rxBuf with
  | none => exact ⟨own, hs.part, .refl _ _ _⟩
  | some k =>
    rw [freeRx_single 254 (hsafe k hrx)]
    obtain ⟨own', hp', hf, -, -⟩ := mbufFree_owned hs.part (hrx ▸ hs.rx i) (by simp)
    exact ⟨own', hp', hf⟩

/-- The buffers of a socket given back and the socket given up. -/
theorem closeSock_sound (hs : Sound n own) (hsafe : CloseSafe n i) :
    ∃ own', Sound (closeSock n i) own' ∧
      Frame (fun t => t = .rx i ∨ ∃ k, t = .tx i k) n.pool own (closeSock n i).pool own' := by
  obtain ⟨own1, hp1, hf1⟩ := freeRx_owned hs hsafe
  rw [closeSock, flushTxQueue_eq]
  obtain ⟨own2, hp2, hf2⟩ := freeAll_owned i ((n.socks i).txQueue.map TcpSeg.m) hp1
    (hs.txNodup i) (by
      intro k hk
      obtain ⟨s, hsq, rfl⟩ := mem_map.mp hk
      exact hf1.holds (by simp) (hs.tx i s hsq))
  -- Together the two loops touch the tags of this socket only.
  have hf : Frame (fun t => t = .rx i ∨ ∃ k, t = .tx i k) n.pool own
      (((n.socks i).txQueue.map TcpSeg.m).foldl mbufFree
        (freeRx 256 n.pool (n.socks i).rxBuf)) own2 := by
    refine (hf1.mono fun _ => .inl).trans (hf2.mono ?_)
    rintro t ⟨k, -, rfl⟩
    exact .inr ⟨k, rfl⟩
  refine ⟨own2, hs.of_frame_sock hp2 hf i _ ?_ ?_ (by simp) (.null _ _) (by simp) nodup_nil, hf⟩
  · rintro j hj (h | ⟨k, h⟩)
    · exact hj (Owner.rx.inj h)
    · cases h
  · rintro j hj s - (h | ⟨k, h⟩)
    · cases h
    · exact hj (Owner.tx.inj h).1

theorem finSent_sound (hs : Sound n own) (hsafe : CloseSafe n i) :
    ∃ own', Sound (finSent n i) own' ∧
      Frame (fun t => t = .rx i ∨ ∃ k, t = .tx i k) n.pool own (finSent n i).pool own' := by
  refine closeSock_sound (hs.modifySock i _ rfl rfl) fun k hk => hsafe k ?_
  rw [Stack.modifySock_socks_self] at hk
  exact hk

/-! ### Runs -/

/-- The event neither sends data nor takes from a receive chain nor closes, and is no tick.  The
calls are followed send by send in `Net.Reentry`. -/
def Event.Plain : Event → Prop
  | .tcpSend .. | .tcpSendWoken .. | .tcpRecv .. | .tcpClose .. | .tick .. => False
  | _ => True

/-- **One event.** -/
theorem netStep_sound (hs : Sound n own) (e : Event) (he : e.Plain) :
    ∃ own', Sound (netStep n e) own' := by
  have hkeep {T : Owner → Prop} {n' : Stack} (hk : Keeps T n n') : ∃ own', Sound n' own' := by
    obtain ⟨own', h', -⟩ := hk own hs
    exact ⟨own', h'⟩
  cases e with
  | lower op => exact hkeep (.lowerOp n op)
  | tcpSocket dev => exact hkeep (tcpSocket_keeps n dev)
  | tcpBind sock port => exact hkeep (tcpBind_keeps n sock port)
  | tcpListen sock => exact hkeep (tcpListen_keeps n sock)
  | tcpConnect sock dstIp dstPort dev w => exact hkeep (tcpConnect_keeps n sock dstIp dstPort dev w)
  | tcpConnectWoken i => exact hkeep (tcpConnectWoken_keeps n i)
  | tcpSend | tcpSendWoken | tcpRecv | tcpClose | tick => exact he.elim
  | tcpRx dev src m w1 w2 =>
    rw [netStep]
    split
    · rename_i hm
      obtain ⟨own1, h1, hcall, -⟩ := hs.take hm
      exact tcpRx_sound h1 dev src w1 w2 hcall
    · exact ⟨own, hs⟩

/-- The free list is a list without repetition, and no mbuf on it can be reached from the receive
chain or the retransmission queue of a socket. -/
def PoolSafe (n : Stack) : Prop :=
  ∃ l, Chain n.pool.nextFree n.pool.free l ∧ l.Nodup ∧
    ∀ k ∈ l, ∀ i, ¬ Reach n.pool.nextSeg (n.socks i).rxBuf k ∧
      ∀ s ∈ (n.socks i).txQueue, ¬ Reach n.pool.nextSeg (some s.m) k

theorem Sound.poolSafe (hs : Sound n own) : PoolSafe n := by
  obtain ⟨l, hl, hown⟩ := hs.part.free
  refine ⟨l, hl, hl.nodup, fun k hk i => ⟨fun hr => ?_, fun s hsq hr => ?_⟩⟩
  · have := (hs.rx i).own_of_reach hr
    rw [hown k hk] at this
    cases this
  · have := (hs.tx i s hsq).own_of_reach hr
    rw [hown k hk] at this
    cases this

theorem netInit_sound (page : MbufPtr → Option Buffer) : ∃ own, Sound (netInit page) own := by
  obtain ⟨own, hp⟩ := mbufInit_partition page
  exact ⟨own, hp, fun _ => .null _ _, by simp [netInit, zeroSock],
    by simp [netInit, zeroSock], by simp [netInit], nodup_nil⟩

instance (n : Stack) (i : Fin 32) (max : ℕ) : Decidable (RecvSafe n i max) :=
  inferInstanceAs (Decidable (∀ k, (n.socks i).rxBuf = some k →
    n.pool.nextSeg k = none ∨ min (n.socks i).rxLen max < (n.pool.mbuf k).len))

theorem sound_foldl (hes : ∀ e ∈ es, e.Plain) (hs : ∃ own, Sound n own) :
    ∃ own, Sound (es.foldl netStep n) own := by
  refine foldlRecOn (motive := fun n => ∃ own, Sound n own) es netStep hs ?_
  rintro n ⟨own, hs⟩ e he
  exact netStep_sound hs e (hes e he)

/-- A segment from port 80 to port 49153, with a header of 20 bytes. -/
def sampleSegment (flags : UInt8) (len : ℕ) : Mbuf where
  data := fun j =>
    ([0, 80, 192, 1, 0, 0, 0, 0, 0, 0, 0, 0, 0x50, flags] : List UInt8).getD j 0
  dataOff := 0
  len := len
  refcount := 1
  next := none
  nextSeg := none
  rxSrcIp := 0
  rxSrcPort := 0

/-- The driver fills the mbuf `m` and the segment goes up. -/
def segmentArrives (m : MbufPtr) (flags : UInt8) (len : ℕ) : List Event :=
  [.lower .alloc, .lower (.write m (sampleSegment flags len)), .tcpRx 0 1 m ⟨[], true⟩ ⟨[], true⟩]

/-- Socket 0 connects to port 80 and the peer answers. -/
def connectSample : List Event :=
  [.tcpSocket (some 0), .tcpConnect 0 1 80 (some 0) ⟨[], true⟩] ++ segmentArrives 1 0x12 20

end AxiomeOS.Net
