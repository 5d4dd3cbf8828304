import AxiomeOS.Net.Ownership
import AxiomeOS.Net.Tcp

/-!
# Sockets and the buffer pool

`Sound n own`: under the tagging `own`, the free list, the receive chain of each socket, each
segment of a retransmission queue and each packet held outside `tcp.c` are chains of mbufs with
tags of their own.

Kept by the code outside `tcp.c` as long as it touches only what it holds (`lowerOp_sound`), by
`tcp_send_seg` (`tcpSendSeg_sound`), and by writes to a socket that leave its buffers alone
(`Sound.modifySock`).  Each lemma also says which tags it touches, so that a caller knows what is
still there afterwards.
-/

namespace AxiomeOS.Net

open Bytes Chains Function List

variable {k : MbufPtr}

/-- Every place that may reach mbufs has its own. -/
structure Sound (n : Stack) (own : MbufPtr → Owner) : Prop where
  part : Partition n.pool own
  rx : ∀ i, Holds own (.rx i) n.pool.nextSeg (n.socks i).rxBuf
  tx : ∀ i, ∀ s ∈ (n.socks i).txQueue, Holds own (.tx i s.m) n.pool.nextSeg (some s.m)
  txNodup : ∀ i, ((n.socks i).txQueue.map TcpSeg.m).Nodup
  held : ∀ h ∈ n.held, Holds own (.held h) n.pool.nextSeg (some h)
  heldNodup : n.held.Nodup

variable {n : Stack} {own own' : MbufPtr → Owner} {T : Owner → Prop} {p' : Pool}

section

variable (h : Sound n own)
include h

theorem Sound.own_held (hk : k ∈ n.held) : own k = .held k := (h.held k hk).own_head

theorem Sound.own_rx {i : Fin 32} {l : List MbufPtr} (hl : Chain n.pool.nextSeg (n.socks i).rxBuf l)
    : ∀ k ∈ l, own k = .rx i := by
  obtain ⟨l', hl', hown⟩ := h.rx i
  rw [hl.unique hl']
  exact hown

theorem Sound.own_tx {i : Fin 32} {s : TcpSeg} (hs : s ∈ (n.socks i).txQueue) :
    own s.m = .tx i s.m := (h.tx i s hs).own_head

/-- What an operation on the pool has to show: the partition, a frame that spares the sockets,
and the packets held afterwards. -/
theorem Sound.of_frame (hp : Partition p' own') (hf : Frame T n.pool own p' own')
    (hT : ∀ i, ¬ T (.rx i) ∧ ∀ s ∈ (n.socks i).txQueue, ¬ T (.tx i s.m))
    {held' : List MbufPtr} (hheld : ∀ k ∈ held', Holds own' (.held k) p'.nextSeg (some k))
    (hnd : held'.Nodup) : Sound { n with pool := p', held := held' } own' where
  part := hp
  rx i := hf.holds (hT i).1 (h.rx i)
  tx i s hs := hf.holds ((hT i).2 s hs) (h.tx i s hs)
  txNodup := h.txNodup
  held := hheld
  heldNodup := hnd

theorem Sound.of_frame_pool (hp : Partition p' own') (hf : Frame T n.pool own p' own')
    (hT : ∀ i, ¬ T (.rx i) ∧ ∀ s ∈ (n.socks i).txQueue, ¬ T (.tx i s.m))
    (hheld : ∀ k ∈ n.held, ¬ T (.held k)) : Sound { n with pool := p' } own' :=
  h.of_frame hp hf hT (fun k hk => hf.holds (hheld k hk) (h.held k hk)) h.heldNodup

/-- A write that leaves an mbuf in its packet. -/
theorem Sound.modifyMbuf (f : Mbuf → Mbuf) (hk : own k ≠ .free)
    (hseg : (f (n.pool.mbuf k)).nextSeg = (n.pool.mbuf k).nextSeg)
    (href : (f (n.pool.mbuf k)).refcount ≤ 1) : Sound { n with pool := n.pool.modify k f } own where
  part := h.part.modify f hk href
  rx i := by
    rw [n.pool.modify_nextSeg k hseg]
    exact h.rx i
  tx i s hs := by
    rw [n.pool.modify_nextSeg k hseg]
    exact h.tx i s hs
  txNodup := h.txNodup
  held j hj := by
    rw [n.pool.modify_nextSeg k hseg]
    exact h.held j hj
  heldNodup := h.heldNodup

end

/-! ### The layers below -/

/-- The tags of the free list and of the packets held outside `tcp.c`. -/
def Below (t : Owner) : Prop := t = .free ∨ ∃ h, t = .held h

theorem not_below_rx (i : Fin 32) : ¬ Below (.rx i) := by rintro (h | ⟨k, h⟩) <;> cases h

theorem not_below_call (k : MbufPtr) : ¬ Below (.call k) := by rintro (h | ⟨j, h⟩) <;> cases h

theorem lowerOp_socks (n : Stack) (op : LowerOp) : (lowerOp n op).socks = n.socks := by
  cases op <;> rw [lowerOp] <;> repeat' split
  all_goals rfl

theorem Sound.held_of_ne (h : Sound n own)
    (hf : Frame (· = .held k) n.pool own p' own') {j : MbufPtr} (hj : j ∈ n.held.erase k) :
    Holds own' (.held j) p'.nextSeg (some j) := by
  obtain ⟨hne, hj⟩ := (h.heldNodup.mem_erase_iff).mp hj
  exact hf.holds (fun heq => hne (Owner.held.inj heq)) (h.held j hj)

section

variable (h : Sound n own) (k : MbufPtr)
include h

theorem lowerOp_alloc_sound :
    ∃ own', Sound (lowerOp n .alloc) own' ∧
      Frame Below n.pool own (lowerOp n .alloc).pool own' := by
  rw [lowerOp]
  cases halloc : mbufAlloc n.pool with
  | none => exact ⟨own, h, .refl _ _ _⟩
  | some r =>
    obtain ⟨k, p1⟩ := r
    obtain ⟨hk, hp1, hf, hnone⟩ := mbufAlloc_owned h.part halloc (.held k)
    have hnew : ∀ j ∈ n.held, j ≠ k := fun j hj hjk => by
      have := h.own_held hj
      rw [hjk, hk] at this
      cases this
    refine ⟨_, h.of_frame hp1 hf (by simp) ?_ ?_, hf.mono fun _ ht => .inl ht⟩
    · intro j hj
      rcases mem_cons.mp hj with rfl | hj
      · exact Holds.single hnone (update_self ..)
      · exact hf.holds (by simp) (h.held j hj)
    · exact nodup_cons.mpr ⟨fun hj => hnew k hj rfl, h.heldNodup⟩

theorem lowerOp_free_sound : ∃ own', Sound (lowerOp n (.free k)) own' ∧
      Frame Below n.pool own (lowerOp n (.free k)).pool own' := by
  rw [lowerOp]
  by_cases hk : k ∈ n.held
  · rw [if_pos hk]
    obtain ⟨own', hp', hf, -, -⟩ := mbufFree_owned h.part (h.held k hk) (by simp)
    exact ⟨own', h.of_frame hp' hf (by simp) (fun j hj => h.held_of_ne hf hj)
      (h.heldNodup.erase k), hf.mono fun _ ht => .inr ⟨k, ht⟩⟩
  · rw [if_neg hk]
    exact ⟨own, h, .refl _ _ _⟩

theorem lowerOp_clone_sound : ∃ own', Sound (lowerOp n (.clone k)) own' ∧
      Frame Below n.pool own (lowerOp n (.clone k)).pool own' := by
  rw [lowerOp]
  by_cases hk : k ∈ n.held
  · rw [if_pos hk]
    obtain ⟨own', hp', hf, hc⟩ := mbufClone_owned h.part k Owner.held (by simp)
    have hbelow : Frame Below n.pool own (mbufClone n.pool k).1 own' :=
      hf.mono fun t ht => ht.imp id fun ⟨c, _, ht⟩ => ⟨c, ht⟩
    have hold : ∀ j ∈ n.held, Holds own' (.held j) (mbufClone n.pool k).1.nextSeg (some j) := by
      intro j hj
      refine hf.holds ?_ (h.held j hj)
      rintro (ht | ⟨c, hc, ht⟩)
      · cases ht
      · cases Owner.held.inj ht
        rw [h.own_held hj] at hc
        cases hc
    rcases hres : mbufClone n.pool k with ⟨p1, _ | c⟩
    · rw [hres] at hp' hf hbelow hold
      exact ⟨own', h.of_frame hp' hf (by simp) hold h.heldNodup, hbelow⟩
    · rw [hres] at hp' hf hbelow hold hc
      obtain ⟨hfree, hnew⟩ := hc c rfl
      refine ⟨own', h.of_frame hp' hf (by simp) ?_ ?_, hbelow⟩
      · intro j hj
        rcases mem_cons.mp hj with rfl | hj
        · exact hnew
        · exact hold j hj
      · refine nodup_cons.mpr ⟨fun hj => ?_, h.heldNodup⟩
        rw [h.own_held hj] at hfree
        cases hfree
  · rw [if_neg hk]
    exact ⟨own, h, .refl _ _ _⟩

theorem lowerOp_write_sound (m : Mbuf) : ∃ own', Sound (lowerOp n (.write k m)) own' ∧
      Frame Below n.pool own (lowerOp n (.write k m)).pool own' := by
  rw [lowerOp]
  by_cases hk : k ∈ n.held
  · rw [if_pos hk]
    have hown := h.own_held hk
    exact ⟨own, h.modifyMbuf m.overwrite (by rw [hown]; simp) rfl (h.part.refs k),
      (Frame.modify n.pool own k m.overwrite).mono fun t ht => .inr ⟨k, ht.trans hown⟩⟩
  · rw [if_neg hk]
    exact ⟨own, h, .refl _ _ _⟩

theorem lowerOp_link_sound (a b : MbufPtr) : ∃ own', Sound (lowerOp n (.link a b)) own' ∧
      Frame Below n.pool own (lowerOp n (.link a b)).pool own' := by
  rw [lowerOp]
  by_cases hab : a ∈ n.held ∧ b ∈ n.held ∧ a ≠ b ∧ n.pool.nextSeg a = none
  · rw [if_pos hab]
    obtain ⟨ha, hb, hne, -⟩ := hab
    obtain ⟨own', hp', hf, hnew⟩ := exists_link h.part (h.own_held ha) (h.held b hb) (by simp)
      (by simp) (fun heq => hne (Owner.held.inj heq).symm)
    refine ⟨own', h.of_frame hp' hf (by simp) ?_ (h.heldNodup.erase b),
      hf.mono fun t ht => .inr (ht.elim (fun h => ⟨a, h⟩) fun h => ⟨b, h⟩)⟩
    intro j hj
    obtain ⟨hjb, hj⟩ := (h.heldNodup.mem_erase_iff).mp hj
    by_cases hja : j = a
    · rw [hja]
      exact hnew
    · refine hf.holds ?_ (h.held j hj)
      rintro (ht | ht)
      · exact hja (Owner.held.inj ht)
      · exact hjb (Owner.held.inj ht)
  · rw [if_neg hab]
    exact ⟨own, h, .refl _ _ _⟩

/-- **Code outside `tcp.c` that touches only what it holds** keeps the sockets' buffers. -/
theorem lowerOp_sound (op : LowerOp) :
    ∃ own', Sound (lowerOp n op) own' ∧ Frame Below n.pool own (lowerOp n op).pool own' := by
  cases op with
  | alloc => exact lowerOp_alloc_sound h
  | free k => exact lowerOp_free_sound h k
  | clone k => exact lowerOp_clone_sound h k
  | write k m => exact lowerOp_write_sound h k m
  | link a b => exact lowerOp_link_sound h a b

end

theorem lowerOps_sound (ops : List LowerOp) {n : Stack} {own : MbufPtr → Owner} (h : Sound n own) :
    ∃ own', Sound (ops.foldl lowerOp n) own' ∧
      Frame Below n.pool own (ops.foldl lowerOp n).pool own' := by
  induction ops generalizing n own with
  | nil => exact ⟨own, h, .refl _ _ _⟩
  | cons op ops ih =>
    obtain ⟨own1, h1, hf1⟩ := lowerOp_sound h op
    obtain ⟨own2, h2, hf2⟩ := ih h1
    exact ⟨own2, h2, hf1.trans hf2⟩

theorem lowerOps_socks (ops : List LowerOp) (n : Stack) :
    (ops.foldl lowerOp n).socks = n.socks := by
  induction ops generalizing n with
  | nil => rfl
  | cons op ops ih => rw [foldl_cons, ih, lowerOp_socks]

/-! ### Sending -/

theorem Sound.freeOwned (h : Sound n own) {t : Owner}
    (hk : Holds own t n.pool.nextSeg (some k)) (ht : t ≠ .free ∧ ∀ j ∈ n.held, .held j ≠ t)
    (hT : ∀ i, .rx i ≠ t ∧ ∀ s ∈ (n.socks i).txQueue, .tx i s.m ≠ t) :
    ∃ own', Sound (n.freeMbuf (some k)) own' ∧
      Frame (· = t) n.pool own (n.freeMbuf (some k)).pool own' := by
  obtain ⟨own', hp', hf, -, -⟩ := mbufFree_owned h.part hk ht.1
  exact ⟨own', h.of_frame_pool hp' hf hT ht.2, hf⟩

theorem Sound.freeCall (h : Sound n own) (data : Option MbufPtr)
    (hd : ∀ d, data = some d → Holds own (.call d) n.pool.nextSeg (some d)) :
    ∃ own', Sound (n.freeMbuf data) own' ∧
      Frame (fun t => ∃ d, data = some d ∧ t = .call d) n.pool own (n.freeMbuf data).pool own' := by
  cases data with
  | none => exact ⟨own, h, .refl _ _ _⟩
  | some d =>
    obtain ⟨own', h', hf⟩ := h.freeOwned (hd d rfl) (by simp) (by simp)
    exact ⟨own', h', hf.mono fun t ht => ⟨d, rfl, ht⟩⟩

/-- The tags `tcp_send_seg` touches: those of the layers below, and the payload. -/
def Sending (data : Option MbufPtr) (t : Owner) : Prop :=
  Below t ∨ ∃ d, data = some d ∧ t = .call d

/-- The header packet of `tcp_send_seg`, put together and handed over. -/
theorem sendPacket_sound (h : Sound n own) {data : Option MbufPtr}
    (hd : ∀ d, data = some d → Holds own (.call d) n.pool.nextSeg (some d)) {hdr : MbufPtr}
    {p₁ : Pool} (halloc : mbufAlloc0 n.pool = some (hdr, p₁)) (bytes : List UInt8) :
    ∃ own', Sound { n with
        pool := (p₁.modify hdr (Mbuf.fill bytes)).chainData hdr data, held := hdr :: n.held } own' ∧
      Frame (Sending data) n.pool own ((p₁.modify hdr (Mbuf.fill bytes)).chainData hdr data)
        own' := by
  obtain ⟨hfree, hp1, hf1, hnone⟩ := mbufAlloc0_owned h.part halloc (t := .held hdr) (by simp)
  have hself : update own hdr (.held hdr) hdr = .held hdr := update_self ..
  have h1 : Sound { n with pool := p₁ } (update own hdr (.held hdr)) :=
    h.of_frame_pool hp1 hf1 (by simp) (by simp)
  have h2 := h1.modifyMbuf (Mbuf.fill bytes) (by rw [hself]; simp) rfl (hp1.refs hdr)
  have hseg2 : (p₁.modify hdr (Mbuf.fill bytes)).nextSeg = p₁.nextSeg := p₁.modify_nextSeg hdr rfl
  have hnd : (hdr :: n.held).Nodup := by
    refine nodup_cons.mpr ⟨fun hmem => ?_, h.heldNodup⟩
    rw [h.own_held hmem] at hfree
    cases hfree
  have hf2 : Frame (Sending data) n.pool own (p₁.modify hdr (Mbuf.fill bytes))
      (update own hdr (.held hdr)) := by
    refine (hf1.mono fun t ht => .inl (.inl ht)).trans ?_
    exact (Frame.modify p₁ _ hdr (Mbuf.fill bytes)).mono
      fun t ht => .inl (.inr ⟨hdr, ht.trans hself⟩)
  cases data with
  | none =>
    refine ⟨_, ⟨h2.part, h2.rx, h2.tx, h2.txNodup, ?_, hnd⟩, hf2⟩
    intro j hj
    rcases mem_cons.mp hj with rfl | hj
    · exact Holds.single ((congrFun hseg2 j).trans hnone) hself
    · exact h2.held j hj
  | some d =>
    have hd2 := (hf1.holds (by simp) (hd d rfl))
    rw [← hseg2] at hd2
    obtain ⟨own', hp', hf', hnew⟩ := exists_link h2.part hself hd2 (by simp) (by simp) (by simp)
    refine ⟨own', h2.of_frame hp' hf' (by simp) ?_ hnd, hf2.trans (hf'.mono ?_)⟩
    · intro j hj
      by_cases hjh : j = hdr
      · rw [hjh]
        exact hnew
      · have hj : j ∈ n.held := (mem_cons.mp hj).resolve_left hjh
        exact hf'.holds (by simpa using hjh) (h2.held j hj)
    · rintro t (rfl | rfl)
      · exact .inl (.inr ⟨hdr, rfl⟩)
      · exact .inr ⟨d, rfl, rfl⟩

/-- **`tcp_send_seg` hands its payload down or gives it back**, and touches nothing else the
sockets own. -/
theorem tcpSendSeg_sound (h : Sound n own) (i : Fin 32) (flags : UInt8) (seq ack : UInt32)
    (wnd : UInt16) (data : Option MbufPtr) (w : Wire)
    (hd : ∀ d, data = some d → Holds own (.call d) n.pool.nextSeg (some d)) :
    ∃ own', Sound (tcpSendSeg n i flags seq ack wnd data w).1 own' ∧
      Frame (Sending data) n.pool own (tcpSendSeg n i flags seq ack wnd data w).1.pool own' := by
  have hback : ∃ own', Sound (n.freeMbuf data) own' ∧
      Frame (Sending data) n.pool own (n.freeMbuf data).pool own' := by
    obtain ⟨own', h', hf⟩ := h.freeCall data hd
    exact ⟨own', h', hf.mono fun t ht => .inr ht⟩
  rw [tcpSendSeg]
  cases (n.socks i).dev with
  | none => exact hback
  | some dev =>
    cases halloc : mbufAlloc0 n.pool with
    | none => exact hback
    | some r =>
      obtain ⟨hdr, p1⟩ := r
      obtain ⟨own1, h1, hf1⟩ := sendPacket_sound h hd halloc
        (tcpHdrBytes (n.socks i) flags seq ack wnd)
      obtain ⟨own2, h2, hf2⟩ := lowerOps_sound w.ops h1
      exact ⟨own2, h2, hf1.trans (hf2.mono fun t ht => .inl ht)⟩

theorem freeMbuf_socks (n : Stack) (data : Option MbufPtr) : (n.freeMbuf data).socks = n.socks := by
  cases data <;> rfl

theorem tcpSendSeg_socks (n : Stack) (i : Fin 32) (flags : UInt8) (seq ack : UInt32)
    (wnd : UInt16) (data : Option MbufPtr) (w : Wire) :
    (tcpSendSeg n i flags seq ack wnd data w).1.socks = n.socks := by
  rw [tcpSendSeg]
  cases (n.socks i).dev with
  | none => exact freeMbuf_socks n data
  | some dev =>
    cases mbufAlloc0 n.pool with
    | none => exact freeMbuf_socks n data
    | some r => exact lowerOps_socks w.ops _

section

variable (h : Sound n own)
include h

theorem tcpSendSeg_none_sound (i : Fin 32) (flags : UInt8) (seq ack : UInt32) (wnd : UInt16)
    (w : Wire) : ∃ own', Sound (tcpSendSeg n i flags seq ack wnd none w).1 own' ∧
      Frame Below n.pool own (tcpSendSeg n i flags seq ack wnd none w).1.pool own' := by
  obtain ⟨own', h', hf⟩ := tcpSendSeg_sound h i flags seq ack wnd none w (by simp)
  exact ⟨own', h', hf.mono fun t ht => ht.resolve_right (by simp)⟩

/-! ### Sockets -/

/-- An operation on the pool that gives one socket a new receive chain and retransmission queue
has to show the partition, a frame that spares the other sockets and the packets held, and the
new chain and queue. -/
theorem Sound.of_frame_sock (hp : Partition p' own') (hf : Frame T n.pool own p' own') (i : Fin 32)
    (f : Sock → Sock) (hrx : ∀ j, j ≠ i → ¬ T (.rx j))
    (htx : ∀ j, j ≠ i → ∀ s ∈ (n.socks j).txQueue, ¬ T (.tx j s.m))
    (hheld : ∀ k ∈ n.held, ¬ T (.held k))
    (hrx' : Holds own' (.rx i) p'.nextSeg (f (n.socks i)).rxBuf)
    (htx' : ∀ s ∈ (f (n.socks i)).txQueue, Holds own' (.tx i s.m) p'.nextSeg (some s.m))
    (hnd' : ((f (n.socks i)).txQueue.map TcpSeg.m).Nodup) :
    Sound ({ n with pool := p' }.modifySock i f) own' where
  part := hp
  rx j := by
    by_cases hj : j = i
    · subst hj
      rw [Stack.modifySock_socks_self]
      exact hrx'
    · rw [Stack.modifySock_socks_of_ne _ f hj]
      exact hf.holds (hrx j hj) (h.rx j)
  tx j := by
    by_cases hj : j = i
    · subst hj
      rw [Stack.modifySock_socks_self]
      exact htx'
    · rw [Stack.modifySock_socks_of_ne _ f hj]
      exact fun s hs => hf.holds (htx j hj s hs) (h.tx j s hs)
  txNodup j := by
    by_cases hj : j = i
    · subst hj
      rw [Stack.modifySock_socks_self]
      exact hnd'
    · rw [Stack.modifySock_socks_of_ne _ f hj]
      exact h.txNodup j
  held k hk := hf.holds (hheld k hk) (h.held k hk)
  heldNodup := h.heldNodup

theorem Sound.setSock (i : Fin 32) (f : Sock → Sock)
    (hrx : Holds own (.rx i) n.pool.nextSeg (f (n.socks i)).rxBuf)
    (htx : ∀ s ∈ (f (n.socks i)).txQueue, Holds own (.tx i s.m) n.pool.nextSeg (some s.m))
    (hnd : ((f (n.socks i)).txQueue.map TcpSeg.m).Nodup) : Sound (n.modifySock i f) own :=
  h.of_frame_sock h.part (.refl (fun _ => False) _ _) i f (fun _ _ => id) (fun _ _ _ _ => id)
    (fun _ _ => id) hrx htx hnd

theorem Sound.modifySock (i : Fin 32) (f : Sock → Sock)
    (hrx : (f (n.socks i)).rxBuf = (n.socks i).rxBuf)
    (htx : (f (n.socks i)).txQueue = (n.socks i).txQueue) : Sound (n.modifySock i f) own :=
  h.setSock i f (hrx ▸ h.rx i) (htx ▸ h.tx i) (htx ▸ h.txNodup i)

theorem Sound.clearSock (i : Fin 32) (f : Sock → Sock) (hrx : (f (n.socks i)).rxBuf = none)
    (htx : (f (n.socks i)).txQueue = []) : Sound (n.modifySock i f) own :=
  h.setSock i f (hrx ▸ Holds.null _ _) (htx ▸ by simp) (htx ▸ by simp)

end

end AxiomeOS.Net
