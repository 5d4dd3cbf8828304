import AxiomeOS.Net.Sound

/-!
# The operations of the TCP layer keep the pool sound

`Keeps T n n'`: the step from `n` to `n'` keeps `Sound` and touches only mbufs with tags among
`T`.  Steps of this kind compose, so each operation of `tcp.c` is followed through line by line.

* opening, binding, connecting, sending, retransmitting, and every case of the state machine
  but `ESTABLISHED` leave the receive chains as they are;
* in `ESTABLISHED`, the receive chain of the socket grows by the arriving mbuf
  (`rxEstablished_queued`) or stays as it is (`rxEstablished_not_queued`).
-/

namespace AxiomeOS.Net

open Bytes Chains Function List

variable {n' : Stack} {m : MbufPtr} {i : Fin 32} {payloadLen : ℕ}

variable {n : Stack} {own own' : MbufPtr → Owner} {T : Owner → Prop} {p p' : Pool}

/-! ### Operations that keep the receive chains -/

/-- The operation `n ↦ n'` keeps the pool sound and touches mbufs with tags among `T` only. -/
def Keeps (T : Owner → Prop) (n n' : Stack) : Prop :=
  ∀ own, Sound n own → ∃ own', Sound n' own' ∧ Frame T n.pool own n'.pool own'

/-- The tags of the free list, of packets held outside `tcp.c` and of the retransmission queues. -/
def Aside (t : Owner) : Prop := Below t ∨ ∃ i h, t = .tx i h

theorem not_aside_rx (i : Fin 32) : ¬ Aside (.rx i) := by
  rintro (h | ⟨j, k, h⟩)
  · exact not_below_rx i h
  · cases h

theorem not_aside_call (k : MbufPtr) : ¬ Aside (.call k) := by
  rintro (h | ⟨i, j, h⟩)
  · exact not_below_call k h
  · cases h

theorem Keeps.refl (T : Owner → Prop) (n : Stack) : Keeps T n n :=
  fun own h => ⟨own, h, .refl _ _ _⟩

variable {n'' : Stack} {t : Owner} {l : List MbufPtr}

section

variable (h : Keeps T n n') (i : Fin 32) (f : Sock → Sock)
include h

theorem Keeps.trans (h' : Keeps T n' n'') : Keeps T n n'' := by
  intro own hs
  obtain ⟨own1, h1, hf1⟩ := h own hs
  obtain ⟨own2, h2, hf2⟩ := h' own1 h1
  exact ⟨own2, h2, hf1.trans hf2⟩

theorem Keeps.modifySock (hrx : ∀ s, (f s).rxBuf = s.rxBuf := by intro s; rfl)
    (htx : ∀ s, (f s).txQueue = s.txQueue := by intro s; rfl) : Keeps T n (n'.modifySock i f) :=
  h.trans fun own h => ⟨own, h.modifySock i f (hrx _) (htx _), .refl _ _ _⟩

theorem Keeps.clearSock (hrx : ∀ s, (f s).rxBuf = none := by intro s; rfl)
    (htx : ∀ s, (f s).txQueue = [] := by intro s; rfl) : Keeps T n (n'.modifySock i f) :=
  h.trans fun own h => ⟨own, h.clearSock i f (hrx _) (htx _), .refl _ _ _⟩

theorem Keeps.congr (hpool : n''.pool = n'.pool) (hsocks : n''.socks = n'.socks)
    (hheld : n''.held = n'.held) : Keeps T n n'' := by
  intro own hs
  obtain ⟨own', h', hf⟩ := h own hs
  refine ⟨own', ⟨?_, ?_, ?_, ?_, ?_, ?_⟩, ?_⟩
  · exact hpool ▸ h'.part
  · exact hpool ▸ hsocks ▸ h'.rx
  · exact hpool ▸ hsocks ▸ h'.tx
  · exact hsocks ▸ h'.txNodup
  · exact hpool ▸ hheld ▸ h'.held
  · exact hheld ▸ h'.heldNodup
  · exact hpool ▸ hf

theorem Keeps.withIsn (isn : UInt32) : Keeps T n (n'.withIsn isn) := h.congr rfl rfl rfl

theorem Keeps.withEphemeral (port : UInt16) : Keeps T n (n'.withEphemeral port) :=
  h.congr rfl rfl rfl

end

theorem Keeps.tcpSendSeg (h : Keeps Aside n n') (i : Fin 32) (flags : UInt8)
    (seq ack : UInt32) (wnd : UInt16) (w : Wire) :
    Keeps Aside n (tcpSendSeg n' i flags seq ack wnd none w).1 := by
  refine h.trans fun own h => ?_
  obtain ⟨own', h', hf⟩ := tcpSendSeg_none_sound h i flags seq ack wnd w
  exact ⟨own', h', hf.mono fun _ => .inl⟩

theorem Keeps.lowerOp (n : Stack) (op : LowerOp) : Keeps Aside n (lowerOp n op) := by
  intro own h
  obtain ⟨own', h', hf⟩ := lowerOp_sound h op
  exact ⟨own', h', hf.mono fun _ => .inl⟩

theorem Keeps.withSock (n : Stack) (sock : ℤ) (f : Fin 32 → Stack) (hf : ∀ i, Keeps T n (f i)) :
    Keeps T n (withSock n sock f) := by
  rw [Net.withSock]
  cases sockIndex sock with
  | none => exact .refl T n
  | some i =>
    show Keeps T n (if (n.socks i).inUse then f i else n)
    split
    · exact hf i
    · exact .refl T n

section

variable (n : Stack) (sock : ℤ) (i : Fin 32) (dstIp : UInt32)

theorem tcpSocket_keeps (dev : Option ℕ) : Keeps Aside n (tcpSocket n dev) := by
  rw [tcpSocket]
  cases tcpAllocSlot n with
  | none => exact Keeps.refl _ n
  | some i => exact (Keeps.refl _ n).clearSock i _

theorem tcpBind_keeps (port : UInt16) : Keeps Aside n (tcpBind n sock port) :=
  Keeps.withSock n sock _ fun i => (Keeps.refl _ n).modifySock i _

theorem tcpListen_keeps : Keeps Aside n (tcpListen n sock) :=
  Keeps.withSock n sock _ fun i => (Keeps.refl _ n).modifySock i _

theorem choosePort_keeps : Keeps Aside n (choosePort n i) := by
  rw [choosePort]
  split
  · exact ((Keeps.refl _ n).modifySock i _).withEphemeral _
  · exact .refl _ n

theorem sendSyn_keeps (dstPort : UInt16) (w : Wire) :
    Keeps Aside n (sendSyn n i dstIp dstPort w) := by
  rw [sendSyn]
  exact ((((Keeps.refl _ n).modifySock i _).withIsn _).tcpSendSeg i _ _ _ _ w).modifySock i _

theorem tcpConnect_keeps (dstPort : UInt16) (dev : Option ℕ) (w : Wire) :
    Keeps Aside n (tcpConnect n sock dstIp dstPort dev w) := by
  refine .withSock n sock _ fun i => ?_
  cases dev with
  | none => exact .refl _ n
  | some d =>
    have hport : Keeps Aside n (choosePort (n.modifySock i fun s => { s with dev := some d }) i) :=
      ((Keeps.refl _ n).modifySock i _).trans (choosePort_keeps _ i)
    dsimp only
    split
    · exact hport
    · exact hport.trans (sendSyn_keeps _ i dstIp dstPort w)

theorem tcpConnectWoken_keeps : Keeps Aside n (tcpConnectWoken n i) := by
  rw [tcpConnectWoken]
  split
  · exact Keeps.refl _ n
  · exact (Keeps.refl _ n).modifySock i _

end

/-! ### Sending and retransmitting -/

/-- The clone joins the retransmission queue. -/
theorem Sound.queueClone (h : Sound n own) {c : MbufPtr}
    (hc : Holds own (.tx i c) n.pool.nextSeg (some c))
    (hfresh : ∀ s ∈ (n.socks i).txQueue, s.m ≠ c) (f : Sock → Sock) {e : TcpSeg} (he : e.m = c)
    (hrx : (f (n.socks i)).rxBuf = (n.socks i).rxBuf)
    (htx : (f (n.socks i)).txQueue = e :: (n.socks i).txQueue) : Sound (n.modifySock i f) own := by
  subst he
  refine h.setSock i f (hrx ▸ h.rx i) ?_ ?_
  · intro s hs
    rw [htx] at hs
    rcases mem_cons.mp hs with rfl | hs
    · exact hc
    · exact h.tx i s hs
  · rw [htx, map_cons]
    refine nodup_cons.mpr ⟨fun hmem => ?_, h.txNodup i⟩
    obtain ⟨s, hs, hsm⟩ := mem_map.mp hmem
    exact hfresh s hs hsm

section

variable (n : Stack) (i : Fin 32)

end

/-! ### Giving back a queue -/

/-- Packets given back one after the other, as `tcp_flush_tx_queue` does. -/
theorem freeAll_owned (i : Fin 32) (l : List MbufPtr) {p : Pool} {own : MbufPtr → Owner}
    (hp : Partition p own) (hnd : l.Nodup) (hl : ∀ k ∈ l, Holds own (.tx i k) p.nextSeg (some k)) :
    ∃ own', Partition (l.foldl mbufFree p) own' ∧
      Frame (fun t => ∃ k ∈ l, t = .tx i k) p own (l.foldl mbufFree p) own' := by
  induction l generalizing p own with
  | nil => exact ⟨own, hp, .refl _ _ _⟩
  | cons k l ih =>
    obtain ⟨hk, hnd⟩ := nodup_cons.mp hnd
    obtain ⟨own1, hp1, hf1, -, -⟩ := mbufFree_owned hp (hl k mem_cons_self) (by simp)
    obtain ⟨own2, hp2, hf2⟩ := ih hp1 hnd fun j hj =>
      hf1.holds (fun heq => hk ((Owner.tx.inj heq).2 ▸ hj)) (hl j (mem_cons_of_mem _ hj))
    refine ⟨own2, hp2, .trans (hf1.mono ?_) (hf2.mono ?_)⟩
    · rintro t rfl
      exact ⟨k, mem_cons_self, rfl⟩
    · rintro t ⟨j, hj, rfl⟩
      exact ⟨j, mem_cons_of_mem _ hj, rfl⟩

theorem flushTxQueue_eq (p : Pool) (q : List TcpSeg) :
    flushTxQueue p q = (q.map TcpSeg.m).foldl mbufFree p := by
  rw [flushTxQueue, foldl_map]

theorem dropAcked_eq (ack : UInt32) (q : List TcpSeg) (len : ℕ) (p : Pool) :
    ∃ d, q = d ++ (dropAcked ack q len p).1 ∧
      (dropAcked ack q len p).2.2 = (d.map TcpSeg.m).foldl mbufFree p := by
  induction q generalizing len p with
  | nil => exact ⟨[], rfl, rfl⟩
  | cons s q ih =>
    rw [dropAcked]
    split
    · obtain ⟨d, hq, hpool⟩ := ih (len - 1) (mbufFree p s.m)
      refine ⟨s :: d, ?_, hpool⟩
      rw [cons_append, ← hq]
    · exact ⟨[], rfl, rfl⟩

theorem ackArrived_keeps (n : Stack) (i : Fin 32) (h : TcpHdr) :
    Keeps Aside n (ackArrived n i h) := by
  intro own hs
  rw [ackArrived]
  obtain ⟨d, hq, hpool⟩ := dropAcked_eq h.ack (n.socks i).txQueue (n.socks i).txQueueLen n.pool
  generalize dropAcked h.ack (n.socks i).txQueue (n.socks i).txQueueLen n.pool = r at hq hpool ⊢
  obtain ⟨q', len', p'⟩ := r
  have hnd := hs.txNodup i
  rw [hq, map_append] at hnd
  obtain ⟨hd, hq', hdisj⟩ := nodup_append.mp hnd
  have htx : ∀ s, s ∈ d ++ q' → Holds own (.tx i s.m) n.pool.nextSeg (some s.m) := by
    rw [← hq]
    exact hs.tx i
  obtain ⟨own', hp', hf⟩ := freeAll_owned i (d.map TcpSeg.m) hs.part hd (by
    intro k hk
    obtain ⟨s, hsd, rfl⟩ := mem_map.mp hk
    exact htx s (mem_append_left _ hsd))
  rw [← hpool] at hp' hf
  have hrest : ∀ s ∈ q', ¬ ∃ k ∈ d.map TcpSeg.m, Owner.tx i s.m = .tx i k := by
    rintro s hsq ⟨k, hk, heq⟩
    exact hdisj k hk s.m (mem_map_of_mem hsq) (Owner.tx.inj heq).2.symm
  refine ⟨own', hs.of_frame_sock hp' hf i _ (by simp) ?_ (by simp) ?_ ?_ hq', hf.mono ?_⟩
  · rintro j hji s - ⟨k, -, heq⟩
    exact hji (Owner.tx.inj heq).1
  · exact hf.holds (by simp) (hs.rx i)
  · intro s hsq
    exact hf.holds (hrest s hsq) (htx s (mem_append_right _ hsq))
  · rintro t ⟨k, -, rfl⟩
    exact .inr ⟨i, k, rfl⟩

/-! ### Arriving segments -/

/-- Two states of an mbuf with the same packet data. -/
structure SameData (b b' : Mbuf) : Prop where
  data : b'.data = b.data
  dataOff : b'.dataOff = b.dataOff
  len : b'.len = b.len

theorem SameData.trans {b b' b'' : Mbuf} (h : SameData b b') (h' : SameData b' b'') :
    SameData b b'' :=
  ⟨h'.data.trans h.data, h'.dataOff.trans h.dataOff, h'.len.trans h.len⟩

theorem SameData.modify (p : Pool) (k : MbufPtr) (f : Mbuf → Mbuf)
    (hf : SameData (p.mbuf k) (f (p.mbuf k))) (j : MbufPtr) :
    SameData (p.mbuf j) ((p.modify k f).mbuf j) := by
  by_cases hj : j = k
  · subst hj
    rw [Pool.modify_mbuf_self]
    exact hf
  · rw [p.modify_mbuf_of_ne f hj]
    exact ⟨rfl, rfl, rfl⟩

theorem SameData.setNextSeg (p : Pool) (k : MbufPtr) (q : Option MbufPtr) (j : MbufPtr) :
    SameData (p.mbuf j) ((p.setNextSeg k q).mbuf j) :=
  SameData.modify p k (fun m => { m with nextSeg := q }) ⟨rfl, rfl, rfl⟩ j

/-- **The receive chain grows at its end**: the walk to the last mbuf finds it, and the new mbuf,
cut off from whatever hung behind it, is linked there. -/
theorem appendRx_owned {c : Owner} {rx : Option MbufPtr}
    (hp : Partition p own) (hl : Chain p.nextSeg rx l) (hown : ∀ a ∈ l, own a = t)
    (hm : own m = c) (ht : t ≠ .free) (hc : c ≠ .free) (hne : c ≠ t) :
    Partition (appendRx p rx m).1 (update own m t) ∧
      Chain (appendRx p rx m).1.nextSeg (appendRx p rx m).2 (l ++ [m]) ∧
      Frame (fun x => x = t ∨ x = c) p own (appendRx p rx m).1 (update own m t) ∧
      ∀ k, SameData (p.mbuf k) ((appendRx p rx m).1.mbuf k) := by
  have hml : m ∉ l := fun hmem => hne (hm.symm.trans (hown m hmem))
  have hp1 : Partition (p.modify m Mbuf.unlinked) own := hp.modify _ (hm ▸ hc) (hp.refs m)
  have hkeep : ∀ k, k ≠ m → (p.modify m Mbuf.unlinked).mbuf k = p.mbuf k := fun k hk =>
    p.modify_mbuf_of_ne _ hk
  have hnone : (p.modify m Mbuf.unlinked).nextSeg m = none :=
    congrArg Mbuf.nextSeg (p.modify_mbuf_self m Mbuf.unlinked)
  have hsame : ∀ k, SameData (p.mbuf k) ((p.modify m Mbuf.unlinked).mbuf k) :=
    SameData.modify p m _ ⟨rfl, rfl, rfl⟩
  -- The chain as it stands after the new mbuf has been cut off.
  have hl1 : Chain (p.modify m Mbuf.unlinked).nextSeg rx l :=
    hl.frame fun a ha => congrArg Mbuf.nextSeg (hkeep a fun h => hml (h ▸ ha))
  have hretag : ∀ p', Partition p' own → Partition p' (update own m t) := by
    intro p' hp'
    refine ⟨hp'.free.frame fun a ha => ⟨?_, rfl⟩, hp'.refs⟩
    have ham : a ≠ m := by
      rintro rfl
      exact hc (hm.symm.trans ha)
    rw [update_of_ne ham]
    exact ha
  cases rx with
  | none =>
    obtain rfl : l = [] := hl.unique rfl
    refine ⟨hretag _ hp1, ⟨rfl, hnone⟩, ?_, hsame⟩
    intro k hk
    have hkm : k ≠ m := fun h => hk (.inr (h ▸ hm))
    exact ⟨update_of_ne hkm .., hkeep k hkm⟩
  | some r =>
    obtain ⟨l', a, rfl⟩ : ∃ l' a, l = l' ++ [a] := by
      rcases eq_nil_or_concat l with rfl | ⟨l', a, rfl⟩
      · cases hl
      · exact ⟨l', a, concat_eq_append⟩
    have ha : own a = t := hown a (by simp)
    have ham : m ≠ a := fun h => hml (h ▸ by simp)
    have hwalk : walkEnd (p.modify m Mbuf.unlinked).nextSeg 256 r = a := by
      refine walkEnd_eq hl1 ?_
      have := hl.length_le
      simp only [length_append, Fintype.card_fin] at this
      omega
    have hres : appendRx p (some r) m =
        ((p.modify m Mbuf.unlinked).setNextSeg a (some m), some r) := by
      rw [appendRx, hwalk]
    rw [hres]
    refine ⟨hretag _ (hp1.setNextSeg _ (ha ▸ ht)), ?_, ?_, ?_⟩
    · rw [append_assoc]
      refine .link hl1 ⟨rfl, ?_⟩ ?_ (Pool.setNextSeg_nextSeg_self ..)
      · rw [Pool.setNextSeg_nextSeg_of_ne _ _ ham]
        exact hnone
      · intro b hb
        refine Pool.setNextSeg_nextSeg_of_ne _ _ fun h => ?_
        exact (nodup_append.mp hl.nodup).2.2 b hb a (by simp) h
    · intro k hk
      have hkm : k ≠ m := fun h => hk (.inr (h ▸ hm))
      have hka : k ≠ a := fun h => hk (.inl (h ▸ ha))
      refine ⟨update_of_ne hkm .., ?_⟩
      exact (Pool.setNextSeg_mbuf_of_ne _ _ hka).trans (hkeep k hkm)
    · intro k
      exact (hsame k).trans (.setNextSeg _ a _ k)

/-- The payload of a segment that is queued. -/
theorem dataArrived_queued (h : Sound n own)
    (hm : own m = .call m) (hfits : dataFits (n.socks i) payloadLen = true)
    (hl : Chain n.pool.nextSeg (n.socks i).rxBuf l) (hn' : dataArrived n i m payloadLen = n') :
    ∃ own', Sound n' own' ∧
      Frame (fun t => t = .rx i ∨ t = .call m) n.pool own n'.pool own' ∧
      Chain n'.pool.nextSeg (n'.socks i).rxBuf (l ++ [m]) ∧
      ∀ k, SameData (n.pool.mbuf k) (n'.pool.mbuf k) := by
  have hown : ∀ a ∈ l, own a = .rx i := h.own_rx hl
  obtain ⟨hp', hl', hf, hsame⟩ := appendRx_owned h.part hl hown hm (by simp) (by simp) (by simp)
  have hres : n' =
      { n with pool := (appendRx n.pool (n.socks i).rxBuf m).1 }.modifySock i fun s =>
        { s with
          rcvNxt := s.rcvNxt + UInt32.ofNat payloadLen
          rxBuf := (appendRx n.pool (n.socks i).rxBuf m).2
          rxLen := (s.rxLen + payloadLen) % 2 ^ 64 } := by
    rw [← hn', dataArrived, if_pos hfits]
    simp only [Stack.modifySock, update_self, update_idem]
  rw [hres]
  refine ⟨_, h.of_frame_sock hp' hf i _ ?_ (by simp) (by simp) ?_ ?_ (h.txNodup i), hf, ?_, hsame⟩
  · intro j hj
    simpa using hj
  · refine ⟨l ++ [m], hl', ?_⟩
    intro a ha
    by_cases ham : a = m
    · rw [ham, update_self]
    · rw [update_of_ne ham]
      exact hown a ((mem_append.mp ha).resolve_right (by simpa using ham))
  · intro s hs
    exact hf.holds (by simp) (h.tx i s hs)
  · rw [Stack.modifySock_socks_self]
    exact hl'

theorem dataArrived_dropped (hfits : ¬ dataFits (n.socks i) payloadLen = true) :
    dataArrived n i m payloadLen =
      n.modifySock i fun s => { s with rcvNxt := s.rcvNxt + UInt32.ofNat payloadLen } := by
  rw [dataArrived, if_neg hfits]

theorem sendAck_keeps (n : Stack) (i : Fin 32) (w : Wire) : Keeps Aside n (sendAck n i w) :=
  Keeps.tcpSendSeg (.refl _ n) i _ _ _ _ w

/-- What the state machine does to the stack for socket `i`: it sets fields other than the two
queues and sends segments without data. -/
inductive Steers (n : Stack) (i : Fin 32) (w : Wire) : Stack → Prop
  | refl : Steers n i w n
  | modifySock {n' : Stack} (h : Steers n i w n') (f : Sock → Sock)
      (hf : ∀ s, (f s).rxBuf = s.rxBuf ∧ (f s).rxLen = s.rxLen ∧ (f s).txQueue = s.txQueue) :
      Steers n i w (n'.modifySock i f)
  | tcpSendSeg {n' : Stack} (h : Steers n i w n') (flags : UInt8) (seq ack : UInt32)
      (wnd : UInt16) : Steers n i w (tcpSendSeg n' i flags seq ack wnd none w).1

theorem Steers.keeps (h : Steers n i w n') : Keeps Aside n n' := by
  induction h with
  | refl => exact .refl _ n
  | modifySock _ f hf ih => exact ih.modifySock i f (fun s => (hf s).1) fun s => (hf s).2.2
  | tcpSendSeg _ flags seq ack wnd ih => exact ih.tcpSendSeg i flags seq ack wnd w

/-- Receive chain and `rx_len` of every socket are the same. -/
def SameRx (n n' : Stack) : Prop :=
  ∀ j, (n'.socks j).rxBuf = (n.socks j).rxBuf ∧ (n'.socks j).rxLen = (n.socks j).rxLen

theorem SameRx.of_socks (h : n'.socks = n.socks) : SameRx n n' :=
  fun j => ⟨congrArg (fun s => (s j).rxBuf) h, congrArg (fun s => (s j).rxLen) h⟩

theorem SameRx.refl (n : Stack) : SameRx n n := fun _ => ⟨rfl, rfl⟩

theorem SameRx.trans (h : SameRx n n') (h' : SameRx n' n'') : SameRx n n'' :=
  fun j => ⟨(h' j).1.trans (h j).1, (h' j).2.trans (h j).2⟩

theorem SameRx.modifySock (h : SameRx n n') (i : Fin 32) (f : Sock → Sock)
    (hbuf : ∀ s, (f s).rxBuf = s.rxBuf) (hlen : ∀ s, (f s).rxLen = s.rxLen) :
    SameRx n (n'.modifySock i f) := by
  refine h.trans fun j => ?_
  by_cases hj : j = i
  · subst hj
    rw [Stack.modifySock_socks_self]
    exact ⟨hbuf _, hlen _⟩
  · rw [Stack.modifySock_socks_of_ne _ f hj]
    exact ⟨rfl, rfl⟩

theorem Steers.sameRx (h : Steers n i w n') : SameRx n n' := by
  induction h with
  | refl => exact .refl n
  | modifySock _ f hf ih => exact ih.modifySock i f (fun s => (hf s).1) fun s => (hf s).2.1
  | tcpSendSeg _ flags seq ack wnd ih => exact ih.trans (.of_socks (tcpSendSeg_socks ..))

theorem Steers.set (h : Steers n i w n') (f : Sock → Sock)
    (hf : ∀ s, (f s).rxBuf = s.rxBuf ∧ (f s).rxLen = s.rxLen ∧ (f s).txQueue = s.txQueue :=
      by exact fun _ => ⟨rfl, rfl, rfl⟩) : Steers n i w (n'.modifySock i f) :=
  h.modifySock f hf

theorem Steers.finArrived (h : Steers n i w n') (state : TcpState) :
    Steers n i w (finArrived n' i w state) := by
  rw [Net.finArrived]
  exact ((h.set _).tcpSendSeg _ _ _ _).set _

section

variable (n : Stack) (i : Fin 32)

theorem passiveOpen_keeps (l c : Fin 32) (h : TcpHdr) (dev : ℕ) (src : UInt32) (w : Wire) :
    Keeps Aside n (passiveOpen n l c h dev src w) := by
  rw [passiveOpen]
  exact ((((Keeps.refl _ n).clearSock c _).withIsn _).tcpSendSeg c _ _ _ _ w).modifySock c _

theorem rxControl_steers (h : TcpHdr) (w : Wire) : Steers n i w (rxControl n i h w) := by
  rw [rxControl]
  cases (n.socks i).state with
  | closed | established | closeWait => exact Steers.refl
  | timeWait => exact Steers.refl.set _
  | listen =>
    dsimp only
    split
    · exact ((Steers.refl.set _).tcpSendSeg _ _ _ _).set _
    · exact .refl
  | synSent =>
    dsimp only
    split
    · exact (Steers.refl.set _).tcpSendSeg _ _ _ _
    · split
      · exact Steers.refl.set _
      · exact Steers.refl
  | finWait1 =>
    dsimp only
    split
    · split
      · exact (Steers.refl.set _).finArrived _
      · exact (Steers.refl.set _).set _
    · exact .refl
  | finWait2 =>
    dsimp only
    split
    · exact Steers.refl.finArrived _
    · exact Steers.refl
  | synReceived | lastAck | closing =>
    dsimp only
    split
    · exact Steers.refl.set _
    · exact Steers.refl

theorem sendAck_socks (w : Wire) : (sendAck n i w).socks = n.socks :=
  tcpSendSeg_socks ..

theorem finArrived_socks (w : Wire) (state : TcpState) : (finArrived n i w state).socks =
      (n.modifySock i fun s => { s with rcvNxt := s.rcvNxt + 1, state := state }).socks := by
  rw [finArrived]
  simp only [Stack.modifySock, sendAck_socks, update_self, update_idem]

end

/-- What the segment's acknowledgement does to an established connection. -/
def acked (n : Stack) (i : Fin 32) (h : TcpHdr) : Stack :=
  if hasFlag h.flags tcpAck then ackArrived n i h else n

/-- What its `FIN` does. -/
def finished (n : Stack) (i : Fin 32) (h : TcpHdr) (w : Wire) : Stack :=
  if hasFlag h.flags tcpFin then finArrived n i w .closeWait else n

section

variable (n : Stack) (i : Fin 32) (h : TcpHdr)

theorem acked_keeps : Keeps Aside n (acked n i h) := by
  rw [acked]
  split
  · exact ackArrived_keeps n i h
  · exact .refl _ n

theorem acked_sameRx : SameRx n (acked n i h) := by
  rw [acked]
  split
  · rw [ackArrived]
    exact .modifySock (fun _ => ⟨rfl, rfl⟩) i _ (fun _ => rfl) fun _ => rfl
  · exact .refl n

theorem acked_sock : ((acked n i h).socks i).rcvNxt = (n.socks i).rcvNxt ∧
      ((acked n i h).socks i).state = (n.socks i).state := by
  rw [acked]
  split
  · rw [ackArrived, Stack.modifySock_socks_self]
    exact ⟨rfl, rfl⟩
  · exact ⟨rfl, rfl⟩

theorem finished_steers (w : Wire) : Steers n i w (finished n i h w) := by
  rw [finished]
  split
  · exact Steers.refl.finArrived _
  · exact Steers.refl

theorem dataFits_acked (payloadLen : ℕ) :
    dataFits ((acked n i h).socks i) payloadLen = dataFits (n.socks i) payloadLen := by
  rw [dataFits, dataFits, (acked_sameRx n i h i).2]

end

theorem rxEstablished_of_fits (hpos : 0 < payloadLen)
    (hfits : dataFits (n.socks i) payloadLen = true) (h : TcpHdr) (m : MbufPtr) (w₁ w₂ : Wire) :
    rxEstablished n i h m payloadLen w₁ w₂ =
      finished (sendAck (dataArrived (acked n i h) i m payloadLen) i w₁) i h w₂ := by
  have hstored :
      (decide (0 < payloadLen) && dataFits ((acked n i h).socks i) payloadLen) = true := by
    rw [dataFits_acked, hfits, Bool.and_true]
    exact decide_eq_true hpos
  rw [acked] at hstored
  simp only [rxEstablished, finished, acked, if_pos hpos, if_pos hstored]

theorem rxEstablished_of_not_fits
    (hno : ¬ (0 < payloadLen ∧ dataFits (n.socks i) payloadLen = true)) (h : TcpHdr) (m : MbufPtr)
    (w₁ w₂ : Wire) :
    rxEstablished n i h m payloadLen w₁ w₂ =
      (finished (if 0 < payloadLen then
        sendAck (dataArrived (acked n i h) i m payloadLen) i w₁ else acked n i h) i h w₂).freeMbuf
        (some m) := by
  have hstored : ¬ (decide (0 < payloadLen) && dataFits ((acked n i h).socks i) payloadLen) =
      true := by
    rw [dataFits_acked, Bool.and_eq_true, decide_eq_true_eq]
    exact hno
  rw [acked] at hstored
  simp only [rxEstablished, finished, acked, if_neg hstored]

/-- What holds of the receive side after a queued segment: the chain of the socket has the new
mbuf at its end, and the data of all its mbufs is as before. -/
theorem rxEstablished_queued (hs : Sound n own)
    (hm : Holds own (.call m) n.pool.nextSeg (some m)) (hpos : 0 < payloadLen)
    (hfits : dataFits (n.socks i) payloadLen = true)
    (hl : Chain n.pool.nextSeg (n.socks i).rxBuf l) {h : TcpHdr} {w₁ w₂ : Wire}
    (hn' : rxEstablished n i h m payloadLen w₁ w₂ = n') :
    ∃ own', Sound n' own' ∧
      Frame (fun t => Aside t ∨ t = .rx i ∨ t = .call m) n.pool own n'.pool own' ∧
      Chain n'.pool.nextSeg (n'.socks i).rxBuf (l ++ [m]) ∧
      ∀ k ∈ l ++ [m], SameData (n.pool.mbuf k) (n'.pool.mbuf k) := by
  rw [rxEstablished_of_fits hpos hfits] at hn'
  obtain ⟨own1, h1, hf1⟩ := acked_keeps n i h own hs
  have hm1 : own1 m = .call m := (hf1.holds (not_aside_call m) hm).own_head
  -- The chain is untouched while the acknowledged segments are given back.
  have hown : ∀ k ∈ l, own k = .rx i := hs.own_rx hl
  have hl1 : Chain (acked n i h).pool.nextSeg ((acked n i h).socks i).rxBuf l := by
    rw [(acked_sameRx n i h i).1]
    exact hl.frame fun k hk =>
      congrArg Mbuf.nextSeg (hf1 k (hown k hk ▸ not_aside_rx i)).2
  rw [← dataFits_acked n i h] at hfits
  obtain ⟨own2, h2, hf2, hl2, hsame2⟩ := dataArrived_queued h1 hm1 hfits hl1 rfl
  generalize dataArrived (acked n i h) i m payloadLen = n2 at *
  have hfin := finished_steers (sendAck n2 i w₁) i h w₂
  rw [hn'] at hfin
  obtain ⟨own3, h3, hf3⟩ := (sendAck_keeps n2 i w₁).trans hfin.keeps own2 h2
  have hrx : (n'.socks i).rxBuf = (n2.socks i).rxBuf := by
    rw [(hfin.sameRx i).1, sendAck_socks]
  have hown2 : ∀ k ∈ l ++ [m], own2 k = .rx i := h2.own_rx hl2
  refine ⟨own3, h3, ?_, ?_, ?_⟩
  · refine (hf1.mono fun _ => .inl).trans ((hf2.mono fun _ => .inr).trans ?_)
    exact hf3.mono fun _ => .inl
  · rw [hrx]
    exact hl2.frame fun k hk =>
      congrArg Mbuf.nextSeg (hf3 k (hown2 k hk ▸ not_aside_rx i)).2
  · intro k hk
    have hk1 : (acked n i h).pool.mbuf k = n.pool.mbuf k := by
      refine (hf1 k ?_).2
      rcases mem_append.mp hk with hk | hk
      · rw [hown k hk]
        exact not_aside_rx i
      · rw [mem_singleton.mp hk, hm.own_head]
        exact not_aside_call m
    rw [(hf3 k (hown2 k hk ▸ not_aside_rx i)).2, ← hk1]
    exact hsame2 k

theorem Keeps.free_call (hk : Keeps Aside n n') {own : MbufPtr → Owner}
    (hs : Sound n own) (hm : Holds own (.call m) n.pool.nextSeg (some m)) :
    ∃ own', Sound (n'.freeMbuf (some m)) own' ∧
      Frame (fun t => Aside t ∨ t = .call m) n.pool own (n'.freeMbuf (some m)).pool own' := by
  obtain ⟨own1, h1, hf1⟩ := hk own hs
  obtain ⟨own2, h2, hf2⟩ := h1.freeOwned (hf1.holds (not_aside_call m) hm) (by simp) (by simp)
  exact ⟨own2, h2, (hf1.mono fun _ => .inl).trans (hf2.mono fun _ => .inr)⟩

/-- What holds of the receive side after a segment that is not queued: nothing has changed. -/
theorem rxEstablished_not_queued
    (hno : ¬ (0 < payloadLen ∧ dataFits (n.socks i) payloadLen = true)) (h : TcpHdr) (m : MbufPtr)
    (w₁ w₂ : Wire) : ∃ n', rxEstablished n i h m payloadLen w₁ w₂ = n'.freeMbuf (some m) ∧
      Keeps Aside n n' ∧ SameRx n n' := by
  refine ⟨_, rxEstablished_of_not_fits hno h m w₁ w₂, ?_⟩
  have hfin := fun n' => finished_steers n' i h w₂
  split
  · rename_i hpos
    have hfits : ¬ dataFits ((acked n i h).socks i) payloadLen = true := by
      rw [dataFits_acked]
      exact fun hfits => hno ⟨hpos, hfits⟩
    rw [dataArrived_dropped hfits]
    refine ⟨(((acked_keeps n i h).modifySock i _).trans (sendAck_keeps _ i w₁)).trans
      (hfin _).keeps,
      (SameRx.trans ?_ (.of_socks (sendAck_socks ..))).trans (hfin _).sameRx⟩
    exact (acked_sameRx n i h).modifySock i _ (fun _ => rfl) fun _ => rfl
  · exact ⟨(acked_keeps n i h).trans (hfin _).keeps, (acked_sameRx n i h).trans (hfin _).sameRx⟩

section

variable (hs : Sound n own)
include hs

theorem rxSegment_sound (h : TcpHdr) (dev : ℕ) (src : UInt32) (payloadLen : ℕ) (w₁ w₂ : Wire)
    (hm : Holds own (.call m) n.pool.nextSeg (some m)) :
    ∃ own', Sound (rxSegment n h dev src m payloadLen w₁ w₂) own' := by
  have hfree : ∀ n', Keeps Aside n n' → ∃ own', Sound (n'.freeMbuf (some m)) own' := by
    intro n' hk
    obtain ⟨own', h', -⟩ := hk.free_call hs hm
    exact ⟨own', h'⟩
  rw [rxSegment]
  cases findSock n h src with
  | none =>
    cases findListener n h with
    | none => exact hfree n (.refl _ n)
    | some l =>
      cases tcpAllocSlot n with
      | none => exact hfree n (.refl _ n)
      | some c => exact hfree _ (passiveOpen_keeps n l c h dev src w₁)
  | some i =>
    dsimp only
    split
    · by_cases hq : 0 < payloadLen ∧ dataFits (n.socks i) payloadLen = true
      · obtain ⟨l, hl, -⟩ := hs.rx i
        obtain ⟨own', h', -⟩ := rxEstablished_queued hs hm hq.1 hq.2 hl rfl
        exact ⟨own', h'⟩
      · obtain ⟨n', heq, hk, -⟩ := rxEstablished_not_queued hq h m w₁ w₂
        exact heq ▸ hfree n' hk
    · exact hfree _ (rxControl_steers n i h w₁).keeps

theorem Sound.strip (hm : Holds own (.call m) n.pool.nextSeg (some m)) (ihl : ℕ) :
    Sound { n with pool := n.pool.modify m (Mbuf.strip ihl) } own ∧
      Holds own (.call m) (n.pool.modify m (Mbuf.strip ihl)).nextSeg (some m) := by
  refine ⟨hs.modifyMbuf _ (by rw [hm.own_head]; simp) rfl (hs.part.refs m), ?_⟩
  rw [n.pool.modify_nextSeg m rfl]
  exact hm

/-- **`tcp_rx` queues the segment or gives it back.** -/
theorem tcpRx_sound (dev : ℕ) (src : UInt32) (w₁ w₂ : Wire)
    (hm : Holds own (.call m) n.pool.nextSeg (some m)) :
    ∃ own', Sound (tcpRx n dev src m w₁ w₂) own' := by
  rw [tcpRx]
  split
  · obtain ⟨own', h', -⟩ := (Keeps.refl _ n).free_call hs hm
    exact ⟨own', h'⟩
  · obtain ⟨h1, hm1⟩ := hs.strip hm (n.pool.mbuf m).tcpHdr.ihl
    exact rxSegment_sound h1 _ dev src _ w₁ w₂ hm1

theorem Sound.take (hm : m ∈ n.held) : ∃ own', Sound { n with held := n.held.erase m } own' ∧
      Holds own' (.call m) n.pool.nextSeg (some m) ∧
      Frame (· = .held m) n.pool own n.pool own' := by
  obtain ⟨own', hp', hf, hcall⟩ := exists_retag hs.part (hs.held m hm) (by simp) (.call m)
  exact ⟨own', hs.of_frame hp' hf (by simp) (fun j hj => hs.held_of_ne hf hj)
    (hs.heldNodup.erase m), hcall, hf⟩

end

end AxiomeOS.Net
