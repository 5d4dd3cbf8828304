import AxiomeOS.Net.Safety

/-!
# Received segments and the receive chain

`RxOk n i`: the receive chain of socket `i` holds mbufs whose data lies inside their buffers, and
`rx_len` is the number of bytes in it, at most 65536.

`tcp_rx` takes the header length from the packet and subtracts it from the packet's length before
any test.  A header longer than the packet gives a payload of almost 2^64 bytes.  On an
established connection it is then added to `rx_len`, where the sum wraps round and passes the
test for room; in the other states the segment is processed as if it were well formed.

* `tcpRx_proper_iff` — the receive chains stay sound, and a segment with too long a header is
  dropped, exactly when the header fits, or the packet is shorter than a header, or the segment
  is one that `tcp_rx` would discard anyway.
-/

namespace AxiomeOS.Net

open Bytes Chains Runs List Stack

variable {i : Fin 32} {h : TcpHdr} {ihl payloadLen : ℕ} {m : MbufPtr}

variable {n n' : Stack} {own own' : MbufPtr → Owner} {T : Owner → Prop}

/-! ### Soundness of a receive chain -/

/-- The receive chain of socket `i` is sound. -/
def RxOk (n : Stack) (i : Fin 32) : Prop :=
  ∃ l, Chain n.pool.nextSeg (n.socks i).rxBuf l ∧
    (∀ k ∈ l, (n.pool.mbuf k).dataOff + (n.pool.mbuf k).len ≤ mbufDataSize) ∧
    (n.socks i).rxLen = (l.map fun k => (n.pool.mbuf k).len).sum ∧ (n.socks i).rxLen ≤ 65536

theorem RxOk.of_frame (h : RxOk n i) (hs : Sound n own)
    (hf : Frame T n.pool own n'.pool own') (hT : ¬ T (.rx i))
    (hbuf : (n'.socks i).rxBuf = (n.socks i).rxBuf)
    (hlen : (n'.socks i).rxLen = (n.socks i).rxLen) : RxOk n' i := by
  obtain ⟨l, hl, hdata, hsum, hle⟩ := h
  have hsame : ∀ k ∈ l, n'.pool.mbuf k = n.pool.mbuf k := fun k hk =>
    (hf k (hs.own_rx hl k hk ▸ hT)).2
  refine ⟨l, ?_, ?_, ?_, hlen ▸ hle⟩
  · rw [hbuf]
    exact hl.frame fun k hk => congrArg Mbuf.nextSeg (hsame k hk)
  · intro k hk
    rw [hsame k hk]
    exact hdata k hk
  · rw [hlen, hsum, map_congr_left fun k hk => congrArg Mbuf.len (hsame k hk)]

theorem RxOk.empty (hbuf : (n.socks i).rxBuf = none) (hlen : (n.socks i).rxLen = 0) : RxOk n i :=
  ⟨[], hbuf, by simp, by simp [hlen], by simp [hlen]⟩

/-! ### Segments that are discarded -/

/-- The cases of the state machine that do nothing. -/
def Ignores (state : TcpState) (flags : UInt8) : Bool :=
  match state with
  | .closed | .closeWait => true
  | .listen => !hasFlag flags tcpSyn
  | .synSent => !(hasFlag flags tcpSyn && hasFlag flags tcpAck) && !hasFlag flags tcpRst
  | .synReceived | .finWait1 | .lastAck | .closing => !hasFlag flags tcpAck
  | .finWait2 => !hasFlag flags tcpFin
  | .established | .timeWait => false

/-- The segment finds no socket it could be for, or one whose state ignores it. -/
def Discards (n : Stack) (h : TcpHdr) (src : UInt32) : Prop :=
  match findSock n h src with
  | some i => Ignores (n.socks i).state h.flags = true
  | none => findListener n h = none ∨ tcpAllocSlot n = none

theorem rxControl_of_ignores (w : Wire)
    (hig : Ignores (n.socks i).state h.flags = true) : rxControl n i h w = n := by
  rw [rxControl]
  cases hst : (n.socks i).state with
  | closed | closeWait | established => rfl
  | timeWait => rw [hst] at hig; cases hig
  | synSent =>
    rw [hst, Ignores, Bool.and_eq_true, Bool.not_eq_true', Bool.not_eq_true'] at hig
    simp only [hig.1, hig.2, Bool.false_eq_true, if_false]
  | listen | synReceived | finWait1 | finWait2 | lastAck | closing =>
    rw [hst, Ignores, Bool.not_eq_true'] at hig
    simp only [hig, Bool.false_eq_true, if_false]

/-- The state machine by itself. -/
def nextState (flags : UInt8) : TcpState → TcpState
  | .listen => if hasFlag flags tcpSyn then .synReceived else .listen
  | .synSent =>
    if hasFlag flags tcpSyn && hasFlag flags tcpAck then .established
    else if hasFlag flags tcpRst then .closed else .synSent
  | .synReceived => if hasFlag flags tcpAck then .established else .synReceived
  | .finWait1 =>
    if hasFlag flags tcpAck then if hasFlag flags tcpFin then .timeWait else .finWait2
    else .finWait1
  | .finWait2 => if hasFlag flags tcpFin then .timeWait else .finWait2
  | .timeWait => .closed
  | .lastAck => if hasFlag flags tcpAck then .closed else .lastAck
  | .closing => if hasFlag flags tcpAck then .timeWait else .closing
  | st => st

/-- The other sockets are as they were, and so are the fields `K` of the socket `i`. -/
def Kept {κ : Type} (K : Sock → κ) (i : Fin 32) (n n' : Stack) : Prop :=
  K (n'.socks i) = K (n.socks i) ∧ ∀ j ≠ i, n'.socks j = n.socks j

/-- What a segment does to a socket that is not established. -/
theorem rxControl_next (n : Stack) (i : Fin 32) (h : TcpHdr) (w : Wire) :
    ((rxControl n i h w).socks i).state = nextState h.flags (n.socks i).state ∧
      Kept Sock.inUse i n (rxControl n i h w) := by
  rw [rxControl]
  cases hst : (n.socks i).state <;> dsimp only [nextState] <;> repeat' split
  all_goals
    simp +contextual [Kept, modifySock, sendAck_socks, tcpSendSeg_socks, finArrived_socks, hst]

/-- A segment that is not ignored moves the state machine. -/
theorem nextState_ne {st : TcpState} {flags : UInt8} (hest : st ≠ .established)
    (hig : ¬ Ignores st flags = true) : nextState flags st ≠ st := by
  cases st with
  | synSent =>
    cases hs : hasFlag flags tcpSyn <;> cases ha : hasFlag flags tcpAck <;>
      simp_all [Ignores, nextState]
  | finWait1 => cases hf : hasFlag flags tcpFin <;> simp_all [Ignores, nextState]
  | _ => simp_all [Ignores, nextState]

theorem rxSegment_of_discards {src : UInt32} (hd : Discards n h src) (dev : ℕ)
    (m : MbufPtr) (payloadLen : ℕ) (w₁ w₂ : Wire) :
    rxSegment n h dev src m payloadLen w₁ w₂ = n.freeMbuf (some m) := by
  rw [Discards] at hd
  rw [rxSegment]
  cases hsock : findSock n h src with
  | none =>
    rw [hsock] at hd
    cases hl : findListener n h with
    | none => rfl
    | some l =>
      have hslot : tcpAllocSlot n = none := hd.resolve_left (by simp [hl])
      simp only [hslot]
  | some i =>
    rw [hsock] at hd
    dsimp only at hd
    have hest : ¬ (n.socks i).state = .established := by
      intro hest
      rw [hest] at hd
      cases hd
    simp only [if_neg hest]
    rw [rxControl_of_ignores w₁ hd]

theorem dataArrived_sock (n : Stack) (i : Fin 32) (m : MbufPtr) (payloadLen : ℕ) :
    ((dataArrived n i m payloadLen).socks i).rcvNxt = (n.socks i).rcvNxt + UInt32.ofNat payloadLen ∧
      ((dataArrived n i m payloadLen).socks i).state = (n.socks i).state ∧
      (dataFits (n.socks i) payloadLen = true → ((dataArrived n i m payloadLen).socks i).rxLen =
        ((n.socks i).rxLen + payloadLen) % 2 ^ 64) := by
  rw [dataArrived]
  split
  · rw [modifySock_socks_self, modifySock_socks_self]
    exact ⟨rfl, rfl, fun _ => rfl⟩
  · rename_i hno
    rw [modifySock_socks_self]
    exact ⟨rfl, rfl, fun hfits => absurd hfits hno⟩

/-- A segment with payload on an established connection changes `rcv_nxt` or the state. -/
theorem rxEstablished_socks_ne (h : TcpHdr) (m : MbufPtr)
    (w₁ w₂ : Wire) (hest : (n.socks i).state = .established) (hpos : 0 < payloadLen)
    (hmod : UInt32.ofNat payloadLen ≠ 0) :
    (rxEstablished n i h m payloadLen w₁ w₂).socks ≠ n.socks := by
  have hsocks : (rxEstablished n i h m payloadLen w₁ w₂).socks =
      (finished (sendAck (dataArrived (acked n i h) i m payloadLen) i w₁) i h w₂).socks := by
    by_cases hfits : dataFits (n.socks i) payloadLen = true
    · rw [rxEstablished_of_fits hpos hfits]
    · rw [rxEstablished_of_not_fits fun hq => hfits hq.2, freeMbuf_socks, if_pos hpos]
  rw [hsocks, finished]
  intro heq
  by_cases hfin : hasFlag h.flags tcpFin = true
  · rw [if_pos hfin, finArrived_socks] at heq
    have hst := congrArg (fun s => (s i).state) heq
    simp only [modifySock_socks_self, hest] at hst
    cases hst
  · rw [if_neg hfin, sendAck_socks] at heq
    have hnxt := congrArg (fun s => (s i).rcvNxt) heq
    simp only [(dataArrived_sock ..).1, (acked_sock n i h).1] at hnxt
    exact hmod (by simpa using hnxt)

/-- A segment that is not discarded changes some socket. -/
theorem rxSegment_socks_ne {src : UInt32} (hd : ¬ Discards n h src) (dev : ℕ)
    (m : MbufPtr) (w₁ w₂ : Wire) (hpos : 0 < payloadLen) (hmod : UInt32.ofNat payloadLen ≠ 0) :
    (rxSegment n h dev src m payloadLen w₁ w₂).socks ≠ n.socks := by
  rw [Discards] at hd
  rw [rxSegment]
  cases hsock : findSock n h src with
  | none =>
    rw [hsock] at hd
    obtain ⟨hl, hslot⟩ := not_or.mp hd
    obtain ⟨l, hl⟩ := Option.ne_none_iff_exists'.mp hl
    obtain ⟨c, hc⟩ := Option.ne_none_iff_exists'.mp hslot
    simp only [hl, hc, freeMbuf_socks]
    intro heq
    -- The slot of the child was free and is now in use.
    have huse : (n.socks c).inUse = false := by simpa using find?_some hc
    have hnew := congrArg (fun s => (s c).inUse) heq
    simp only [passiveOpen, modifySock_socks_self, tcpSendSeg_socks] at hnew
    have hchild : ((withIsn (n.modifySock c fun _ =>
        { newSock with
          localPort := h.dport, remotePort := h.sport, remoteIp := src, dev := some dev
          parent := some l, sndNxt := n.isn, rcvNxt := h.seq + 1, state := .synReceived })
        (n.isn + 1000)).socks c).inUse = true := by
      rw [withIsn, modifySock_socks_self]
      rfl
    rw [hchild, huse] at hnew
    cases hnew
  | some i =>
    rw [hsock] at hd
    dsimp only
    split
    · rename_i hest
      exact rxEstablished_socks_ne h m w₁ w₂ hest hpos hmod
    · rename_i hest
      rw [freeMbuf_socks]
      intro heq
      have hstate := congrArg (fun s => (s i).state) heq
      exact nextState_ne hest hd ((rxControl_next n i h w₁).1.symm.trans hstate)

/-! ### Receive chains after a segment -/

theorem rxOk_free (hs : Sound n own) (hrx : ∀ j, RxOk n j) (hk : Keeps Aside n n')
    (hm : Holds own (.call m) n.pool.nextSeg (some m)) {j : Fin 32}
    (hbuf : (n'.socks j).rxBuf = (n.socks j).rxBuf)
    (hlen : (n'.socks j).rxLen = (n.socks j).rxLen) : RxOk (n'.freeMbuf (some m)) j := by
  obtain ⟨own', -, hf⟩ := hk.free_call hs hm
  refine (hrx j).of_frame hs hf ?_ ?_ ?_
  · rintro (h | h)
    · exact not_aside_rx j h
    · cases h
  · rw [freeMbuf_socks]
    exact hbuf
  · rw [freeMbuf_socks]
    exact hlen

theorem passiveOpen_rxOk (hs : Sound n own) (hrx : ∀ j, RxOk n j)
    (hm : Holds own (.call m) n.pool.nextSeg (some m)) (l c : Fin 32) (h : TcpHdr) (dev : ℕ)
    (src : UInt32) (w : Wire) (j : Fin 32) :
    RxOk ((passiveOpen n l c h dev src w).freeMbuf (some m)) j := by
  by_cases hj : j = c
  · subst hj
    have hnew : ((passiveOpen n l j h dev src w).socks j).rxBuf = none ∧
        ((passiveOpen n l j h dev src w).socks j).rxLen = 0 := by
      simp only [passiveOpen, modifySock_socks_self, tcpSendSeg_socks, withIsn]
      exact ⟨rfl, rfl⟩
    exact .empty ((congrArg (fun s => (s j).rxBuf) (freeMbuf_socks _ _)).trans hnew.1)
      ((congrArg (fun s => (s j).rxLen) (freeMbuf_socks _ _)).trans hnew.2)
  · have hold : (passiveOpen n l c h dev src w).socks j = n.socks j := by
      simp only [passiveOpen, modifySock_socks_of_ne _ _ hj, tcpSendSeg_socks, withIsn]
    exact rxOk_free hs hrx (passiveOpen_keeps n l c h dev src w) hm (congrArg Sock.rxBuf hold)
      (congrArg Sock.rxLen hold)

theorem dataArrived_socks_of_ne {j : Fin 32} (hj : j ≠ i) (m : MbufPtr) (payloadLen : ℕ) :
    (dataArrived n i m payloadLen).socks j = n.socks j := by
  rw [dataArrived]
  split
  · rw [modifySock_socks_of_ne _ _ hj, modifySock_socks_of_ne _ _ hj]
  · rw [modifySock_socks_of_ne _ _ hj]

section RxOk

variable (hs : Sound n own) (hrx : ∀ j, RxOk n j) (hm : Holds own (.call m) n.pool.nextSeg (some m))

include hs hrx hm

/-- **A queued payload of honest length keeps the receive chain sound.** -/
theorem rxEstablished_queued_rxOk (hlen : (n.pool.mbuf m).len = payloadLen)
    (hsize : (n.pool.mbuf m).dataOff + payloadLen ≤ mbufDataSize) (hpos : 0 < payloadLen)
    (hfits : dataFits (n.socks i) payloadLen = true) (h : TcpHdr) (w₁ w₂ : Wire) (j : Fin 32) :
    RxOk (rxEstablished n i h m payloadLen w₁ w₂) j := by
  obtain ⟨l, hl, hdata, hsum, hle⟩ := hrx i
  have hres := rxEstablished_of_fits hpos hfits h m w₁ w₂
  obtain ⟨own', -, hf, hl', hsame⟩ := rxEstablished_queued hs hm hpos hfits hl hres
  rw [hres]
  have hfin := (finished_steers (sendAck (dataArrived (acked n i h) i m payloadLen) i w₁) i h
    w₂).sameRx j
  rw [sendAck_socks] at hfin
  by_cases hj : j = i
  · subst hj
    -- `rx_len` is small and the payload fits an mbuf, so the sum does not wrap.
    have hnowrap : ((n.socks j).rxLen + payloadLen) % 2 ^ 64 = (n.socks j).rxLen + payloadLen := by
      apply Nat.mod_eq_of_lt
      rw [mbufDataSize] at hsize
      omega
    have hroom : (n.socks j).rxLen + payloadLen ≤ 65536 := by
      rw [dataFits, hnowrap] at hfits
      exact of_decide_eq_true hfits
    have hnew := hfin.2
    rw [(dataArrived_sock ..).2.2 (dataFits_acked n j h payloadLen ▸ hfits),
      (acked_sameRx n j h j).2, hnowrap] at hnew
    refine ⟨l ++ [m], hl', ?_, ?_, hnew ▸ hroom⟩
    · intro k hk
      rw [(hsame k hk).dataOff, (hsame k hk).len]
      rcases mem_append.mp hk with hk | hk
      · exact hdata k hk
      · rw [mem_singleton.mp hk, hlen]
        exact hsize
    · rw [hnew, map_congr_left fun k hk => (hsame k hk).len, map_append, sum_append,
        hsum, map_singleton, sum_singleton, hlen]
  · rw [dataArrived_socks_of_ne hj, (acked_sameRx n i h j).1, (acked_sameRx n i h j).2] at hfin
    refine (hrx j).of_frame hs hf ?_ hfin.1 hfin.2
    rintro (h | h | h)
    · exact not_aside_rx j h
    · exact hj (Owner.rx.inj h)
    · cases h

theorem rxEstablished_not_queued_rxOk
    (hno : ¬ (0 < payloadLen ∧ dataFits (n.socks i) payloadLen = true)) (h : TcpHdr)
    (w₁ w₂ : Wire) (j : Fin 32) : RxOk (rxEstablished n i h m payloadLen w₁ w₂) j := by
  obtain ⟨n', heq, hk, hsame⟩ := rxEstablished_not_queued hno h m w₁ w₂
  rw [heq]
  exact rxOk_free hs hrx hk hm (hsame j).1 (hsame j).2

/-- **Every case of `tcp_rx`**, for a payload of honest length. -/
theorem rxSegment_rxOk (hlen : (n.pool.mbuf m).len = payloadLen)
    (hsize : (n.pool.mbuf m).dataOff + payloadLen ≤ mbufDataSize) (h : TcpHdr) (dev : ℕ)
    (src : UInt32) (w₁ w₂ : Wire) (j : Fin 32) :
    RxOk (rxSegment n h dev src m payloadLen w₁ w₂) j := by
  rw [rxSegment]
  cases findSock n h src with
  | none =>
    cases findListener n h with
    | none => exact rxOk_free hs hrx (.refl _ n) hm rfl rfl
    | some l =>
      cases tcpAllocSlot n with
      | none => exact rxOk_free hs hrx (.refl _ n) hm rfl rfl
      | some c => exact passiveOpen_rxOk hs hrx hm l c h dev src w₁ j
  | some i =>
    dsimp only
    split
    · by_cases hq : 0 < payloadLen ∧ dataFits (n.socks i) payloadLen = true
      · exact rxEstablished_queued_rxOk hs hrx hm hlen hsize hq.1 hq.2 h w₁ w₂ j
      · exact rxEstablished_not_queued_rxOk hs hrx hm hq h w₁ w₂ j
    · have hsteer := rxControl_steers n i h w₁
      exact rxOk_free hs hrx hsteer.keeps hm (hsteer.sameRx j).1 (hsteer.sameRx j).2

end RxOk

/-! ### The length of the payload -/

theorem payloadLength_of_le {len : ℕ} (h : ihl ≤ len) (hlen : len ≤ mbufDataSize) :
    payloadLength len ihl = len - ihl := by
  rw [payloadLength, show len + 2 ^ 64 - ihl = len - ihl + 2 ^ 64 by omega, Nat.add_mod_right]
  apply Nat.mod_eq_of_lt
  rw [mbufDataSize] at hlen
  omega

theorem ihl_le (b : Mbuf) : b.tcpHdr.ihl ≤ 60 := by
  show (b.data (b.dataOff + 12)).toNat / 16 % 16 * 4 ≤ 60
  omega

theorem payloadLength_of_lt {len : ℕ} (h : len < ihl) (hihl : ihl ≤ 60) :
    payloadLength len ihl = 2 ^ 64 - (ihl - len) := by
  rw [payloadLength, show len + 2 ^ 64 - ihl = 2 ^ 64 - (ihl - len) by omega]
  exact Nat.mod_eq_of_lt (by omega)

theorem payloadLength_ofNat_ne_zero {len : ℕ} (h : len < ihl) (hihl : ihl ≤ 60) :
    UInt32.ofNat (payloadLength len ihl) ≠ 0 := by
  intro hzero
  have hnat := congrArg UInt32.toNat hzero
  rw [payloadLength_of_lt h hihl, UInt32.toNat_ofNat'] at hnat
  simp only [UInt32.toNat_zero] at hnat
  omega

/-! ### Received segments -/

/-- The segment is given back and leaves no trace: the sockets are as they were and nothing was
sent. -/
structure Dropped (n : Stack) (m : MbufPtr) (n' : Stack) : Prop where
  socks : n'.socks = n.socks
  isn : n'.isn = n.isn
  held : n'.held = n.held.erase m
  free : n'.pool.free = some m

/-- What `tcp_rx` should do with the segment in `m`: keep every receive chain sound, and drop the
segment if its header is longer than the packet. -/
def RxProper (n : Stack) (m : MbufPtr) (n' : Stack) : Prop :=
  (∀ i, RxOk n' i) ∧ ((n.pool.mbuf m).len < (n.pool.mbuf m).tcpHdr.ihl → Dropped n m n')

/-- The segments on which it does: the header fits the packet, or the packet is too short for any
header, or the segment is discarded before the payload matters. -/
def RxWellFormed (n : Stack) (src : UInt32) (m : MbufPtr) : Prop :=
  (n.pool.mbuf m).tcpHdr.ihl ≤ (n.pool.mbuf m).len ∨ (n.pool.mbuf m).len < 20 ∨
    Discards n (n.pool.mbuf m).tcpHdr src

/-- The state in which `tcp_rx` looks for the socket: the packet has been taken over from the
layer below and its header is off. -/
def headerOff (n : Stack) (m : MbufPtr) : Stack :=
  { n with
    pool := n.pool.modify m (Mbuf.strip (n.pool.mbuf m).tcpHdr.ihl), held := n.held.erase m }

theorem netStep_tcpRx (hm : m ∈ n.held) (hlong : ¬ (n.pool.mbuf m).len < 20) (dev : ℕ)
    (src : UInt32) (w₁ w₂ : Wire) :
    netStep n (.tcpRx dev src m w₁ w₂) = rxSegment (headerOff n m) (n.pool.mbuf m).tcpHdr dev src m
      (payloadLength (n.pool.mbuf m).len (n.pool.mbuf m).tcpHdr.ihl) w₁ w₂ := by
  rw [netStep, if_pos hm, tcpRx]
  rw [if_neg hlong]
  rfl

theorem headerOff_mbuf (n : Stack) (m : MbufPtr) :
    (headerOff n m).pool.mbuf m = (n.pool.mbuf m).strip (n.pool.mbuf m).tcpHdr.ihl :=
  n.pool.modify_mbuf_self m _

theorem Sound.headerOff (hs : Sound n own) (hm : m ∈ n.held) : ∃ own', Sound (headerOff n m) own' ∧
      Holds own' (.call m) (headerOff n m).pool.nextSeg (some m) ∧
      Frame (· = .held m) n.pool own (headerOff n m).pool own' := by
  obtain ⟨own', hs', hcall, hf⟩ := hs.take hm
  obtain ⟨hs'', hcall'⟩ := hs'.strip hcall (n.pool.mbuf m).tcpHdr.ihl
  refine ⟨own', hs'', hcall', ?_⟩
  intro k hk
  have hkm : k ≠ m := by
    rintro rfl
    exact hk (hs.own_held hm)
  exact ⟨(hf k hk).1, n.pool.modify_mbuf_of_ne _ hkm⟩

theorem dropped_free (hs : Sound n own) (hm : Holds own (.call m) n.pool.nextSeg (some m)) :
    (n.freeMbuf (some m)).pool.free = some m := by
  obtain ⟨-, -, -, -, hfree⟩ := mbufFree_owned hs.part hm (by simp)
  exact hfree

/-- **`tcp_rx` on an arbitrary segment.**  The receive chains stay sound and a segment with too
long a header is dropped if and only if the segment is well formed in the sense of
`RxWellFormed`. -/
theorem tcpRx_proper_iff (n : Stack) (hs : ∃ own, Sound n own) (hrx : ∀ i, RxOk n i) (dev : ℕ)
    (src : UInt32) (m : MbufPtr) (hm : m ∈ n.held)
    (hsize : (n.pool.mbuf m).dataOff + (n.pool.mbuf m).len ≤ mbufDataSize) (w₁ w₂ : Wire) :
    RxProper n m (netStep n (.tcpRx dev src m w₁ w₂)) ↔ RxWellFormed n src m := by
  obtain ⟨own, hs⟩ := hs
  by_cases hshort : (n.pool.mbuf m).len < 20
  · -- Too short for a header: given back at once.
    obtain ⟨own', hs', hcall, hf⟩ := hs.take hm
    have hrx' : ∀ j, RxOk { n with held := n.held.erase m } j := fun j =>
      (hrx j).of_frame hs hf (by simp) rfl rfl
    have hstep : netStep n (.tcpRx dev src m w₁ w₂) =
        freeMbuf { n with held := n.held.erase m } (some m) := by
      rw [netStep, if_pos hm, tcpRx]
      exact if_pos hshort
    rw [hstep]
    refine iff_of_true ⟨fun j => ?_, fun _ => ⟨rfl, rfl, rfl, dropped_free hs' hcall⟩⟩
      (.inr (.inl hshort))
    exact rxOk_free hs' hrx' (.refl _ _) hcall rfl rfl
  · obtain ⟨own', hs', hcall, hf⟩ := hs.headerOff hm
    have hrx' : ∀ j, RxOk (headerOff n m) j := fun j => (hrx j).of_frame hs hf (by simp) rfl rfl
    rw [netStep_tcpRx hm hshort]
    by_cases hd : Discards (headerOff n m) (n.pool.mbuf m).tcpHdr src
    · rw [rxSegment_of_discards hd]
      refine iff_of_true ⟨fun j => ?_, fun _ => ⟨rfl, rfl, rfl, dropped_free hs' hcall⟩⟩
        (.inr (.inr hd))
      exact rxOk_free hs' hrx' (.refl _ _) hcall rfl rfl
    · by_cases hfit : (n.pool.mbuf m).tcpHdr.ihl ≤ (n.pool.mbuf m).len
      · refine iff_of_true ⟨fun j => ?_, fun hlt => absurd hlt (by omega)⟩ (.inl hfit)
        refine rxSegment_rxOk hs' hrx' hcall (congrArg Mbuf.len (headerOff_mbuf n m)) ?_ _ dev src
          w₁ w₂ j
        rw [headerOff_mbuf]
        show _ + _ + payloadLength _ _ ≤ mbufDataSize
        rw [payloadLength_of_le hfit (by omega)]
        omega
      · refine iff_of_false ?_ ?_
        · rintro ⟨-, hdrop⟩
          refine rxSegment_socks_ne hd dev m w₁ w₂ ?_ ?_ (hdrop (by omega)).socks
          · rw [payloadLength_of_lt (by omega) (ihl_le _)]
            have := ihl_le (n.pool.mbuf m)
            omega
          · exact payloadLength_ofNat_ne_zero (by omega) (ihl_le _)
        · rintro (h | h | h)
          · exact hfit h
          · exact hshort h
          · exact hd h

/-- A packet of 20 bytes that claims a header of 60. -/
def longHeader : Mbuf :=
  { sampleSegment 0x10 20 with
    data := fun j => if j = 12 then 0xF0 else (sampleSegment 0x10 20).data j }

/-- A connection on which 40 bytes have arrived, with the packet `longHeader` in the mbuf 4. -/
def queuedSample : Stack :=
  (connectSample ++ segmentArrives 1 0x10 60 ++
    [Event.lower .alloc, Event.lower (.write 4 longHeader)]).foldl netStep
      (netInit fun _ => some fun _ => 0)

theorem queuedSample_sound : ∃ own, Sound queuedSample own := by
  refine sound_foldl ?_ (netInit_sound _)
  intro e he
  simp only [connectSample, segmentArrives, cons_append, nil_append, mem_cons,
    not_mem_nil, or_false] at he
  rcases he with rfl | rfl | rfl | rfl | rfl | rfl | rfl | rfl | rfl | rfl <;> trivial

theorem queuedSample_rxOk (i : Fin 32) : RxOk queuedSample i := by
  by_cases hi : i = 0
  · subst hi
    have hchain : (queuedSample.socks 0).rxBuf = some 1 ∧ queuedSample.pool.nextSeg 1 = none := by
      decide +kernel
    have hdata : (queuedSample.pool.mbuf 1).dataOff + (queuedSample.pool.mbuf 1).len ≤ 2048 ∧
        (queuedSample.socks 0).rxLen = (queuedSample.pool.mbuf 1).len ∧
        (queuedSample.socks 0).rxLen ≤ 65536 := by
      decide +kernel
    refine ⟨[1], hchain, ?_, ?_, hdata.2.2⟩
    · intro k hk
      rw [mem_singleton.mp hk]
      exact hdata.1
    · rw [map_singleton, sum_singleton]
      exact hdata.2.1
  · have hrest : ∀ i, i ≠ 0 → (queuedSample.socks i).rxBuf = none ∧
        (queuedSample.socks i).rxLen = 0 := by
      decide +kernel
    exact .empty (hrest i hi).1 (hrest i hi).2

/-- The packet with the long header, on the connection with 40 bytes queued. -/
theorem tcpRx_proper_iff_longHeader :
    RxProper queuedSample 4 (netStep queuedSample (.tcpRx 0 1 4 ⟨[], true⟩ ⟨[], true⟩)) ↔
      RxWellFormed queuedSample 1 4 :=
  tcpRx_proper_iff queuedSample queuedSample_sound queuedSample_rxOk 0 1 4 (by decide +kernel)
    (by decide +kernel) ⟨[], true⟩ ⟨[], true⟩

/-- There `tcp_rx` queues the packet with a length of 2^64 - 40 bytes. -/
theorem longHeader_queued : (∀ i, RxOk queuedSample i) ∧
      (queuedSample.pool.mbuf 4).len = 20 ∧ (queuedSample.pool.mbuf 4).tcpHdr.ihl = 60 ∧
      ¬ RxProper queuedSample 4 (netStep queuedSample (.tcpRx 0 1 4 ⟨[], true⟩ ⟨[], true⟩)) := by
  refine ⟨queuedSample_rxOk, by decide +kernel, by decide +kernel, ?_⟩
  rintro ⟨hrx, -⟩
  obtain ⟨l, hl, hdata, -⟩ := hrx 0
  generalize hn : netStep queuedSample (.tcpRx 0 1 4 ⟨[], true⟩ ⟨[], true⟩) = n at hl hdata
  have hchain : (n.socks 0).rxBuf = some 1 ∧ n.pool.nextSeg 1 = some 4 := by
    rw [← hn]
    decide +kernel
  have hbad : mbufDataSize < (n.pool.mbuf 4).dataOff + (n.pool.mbuf 4).len := by
    rw [← hn]
    decide +kernel
  have hreach : Reach n.pool.nextSeg (n.socks 0).rxBuf 4 := by
    rw [hchain.1]
    refine .step ?_
    rw [hchain.2]
    exact .here 4
  exact absurd (hdata 4 (hl.mem_of_reach hreach)) (by omega)

end AxiomeOS.Net
