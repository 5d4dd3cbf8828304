import AxiomeOS.Net.Receive
import AxiomeOS.Net.Reentry

/-!
# Opening a connection, and acknowledgements

Two questions about the segments that `tcp_rx` handles, each with its exact answer.

* `opens_properly_iff` — whether children are made, and connections established, by the segments
  they should be.  A listening port makes a child for whatever segment comes, and a socket that
  waits for the answer to its `SYN` takes any acknowledgement number.  The answer can come before
  the send of the `SYN` returns, so the initial sequence number is kept beside the stack.
* `ack_handled_iff` — what an acknowledgement does to an established connection.  `snd_una` becomes
  the number that arrives, whatever it is; and the retransmission queue, which has the newest
  segment in front, is shortened from the front only.
-/

namespace AxiomeOS.Net

open Bytes Chains Function List Stack

variable {n n' : Stack} {i : Fin 32} {κ : Type} {K : Sock → κ}

/-! ### What a segment leaves alone -/

theorem Kept.refl : Kept K i n n := ⟨rfl, fun _ _ => rfl⟩

theorem Kept.trans {n'' : Stack} (h : Kept K i n n') (h' : Kept K i n' n'') : Kept K i n n'' :=
  ⟨h'.1.trans h.1, fun j hj => (h'.2 j hj).trans (h.2 j hj)⟩

theorem Kept.socks (h : Kept K i n n') {n'' : Stack} (hs : n''.socks = n'.socks) :
    Kept K i n n'' := by
  rwa [Kept, hs]

theorem Kept.modifySock (h : Kept K i n n') (f : Sock → Sock) (hf : ∀ s, K (f s) = K s) :
    Kept K i n (n'.modifySock i f) := by
  refine ⟨?_, fun j hj => ?_⟩
  · rw [modifySock_socks_self, hf, h.1]
  · rw [modifySock_socks_of_ne _ f hj, h.2 j hj]

theorem Kept.inUse (h : Kept Sock.inUse i n n') (j : Fin 32) :
    (n'.socks j).inUse = (n.socks j).inUse := by
  by_cases hj : j = i
  · rw [hj, h.1]
  · rw [h.2 j hj]

theorem dataArrived_kept (m : MbufPtr) (payloadLen : ℕ)
    (hK : ∀ s r b l, K { s with rcvNxt := r, rxBuf := b, rxLen := l } = K s) :
    Kept K i n (dataArrived n i m payloadLen) := by
  rw [dataArrived]
  split
  · exact ((Kept.refl.modifySock _ fun s => hK s _ _ _).socks rfl).modifySock _ fun s => hK s _ _ _
  · exact Kept.refl.modifySock _ fun s => hK s _ _ _

/-- After the acknowledgement, a segment on an established connection changes the fields of the
receiving side only. -/
theorem rxEstablished_kept (h : TcpHdr) (m : MbufPtr) (payloadLen : ℕ) (w₁ w₂ : Wire)
    (hK : ∀ s r b l t, K { s with rcvNxt := r, rxBuf := b, rxLen := l, state := t } = K s) :
    Kept K i (acked n i h) (rxEstablished n i h m payloadLen w₁ w₂) := by
  have hdata : Kept K i (acked n i h) (dataArrived (acked n i h) i m payloadLen) :=
    dataArrived_kept m payloadLen fun s r b l => hK s r b l s.state
  have hfin : ∀ {n'}, Kept K i (acked n i h) n' →
      Kept K i (acked n i h) (finished n' i h w₂) := by
    intro n' hn'
    rw [finished]
    split
    · exact (hn'.modifySock _ fun s => hK s _ _ _ _).socks (finArrived_socks ..)
    · exact hn'
  have hsent := hdata.socks (sendAck_socks _ i w₁)
  by_cases hq : 0 < payloadLen ∧ dataFits (n.socks i) payloadLen = true
  · rw [rxEstablished_of_fits hq.1 hq.2]
    exact hfin hsent
  · rw [rxEstablished_of_not_fits hq]
    refine (hfin ?_).socks (freeMbuf_socks ..)
    split
    · exact hsent
    · exact .refl

/-! ### Opening a connection -/

/-- The flags of a first segment. -/
def IsSyn (flags : UInt8) : Prop :=
  hasFlag flags tcpSyn = true ∧ hasFlag flags tcpAck = false ∧ hasFlag flags tcpRst = false

/-- The socket that sends a `SYN` in answer to a segment, and the sequence number it takes. -/
def synAnswer (n : Stack) (h : TcpHdr) (src : UInt32) : Option (Fin 32 × UInt32) :=
  match findSock n h src with
  | none =>
    if (findListener n h).isSome then (tcpAllocSlot n).map fun c => (c, n.isn) else none
  | some i =>
    if (n.socks i).state = .listen ∧ hasFlag h.flags tcpSyn = true then some (i, (n.socks i).sndNxt)
    else none

/-- The socket that sends a `SYN` in an action, and the sequence number it takes. -/
def synTaken (a : Active) : Action → Option (Fin 32 × UInt32)
  | .tcpConnect sock _ _ (some d) =>
    (sockIndex sock).bind fun i =>
      let n := choosePort (a.n.modifySock i fun s => { s with dev := some d }) i
      if (a.n.socks i).inUse = true ∧ (n.socks i).localPort ≠ 0 then some (i, n.isn) else none
  | .tcpRx _ src m =>
    if m ∈ a.n.held ∧ 20 ≤ (a.n.pool.mbuf m).len then synAnswer a.n (a.n.pool.mbuf m).tcpHdr src
    else none
  | _ => none

/-- The stack, and the initial sequence number of each socket: that of the last `SYN` it sent. -/
structure Opening where
  act : Active
  isn : Fin 32 → UInt32

def openStep (o : Opening) (e : Action) : Opening where
  act := actStep o.act e
  isn := (synTaken o.act e).elim o.isn fun p => update o.isn p.1 p.2

/-- A socket is taken by a first segment only, and established only by the acknowledgement of its
`SYN`. -/
def OpensProperly (isn : Fin 32 → UInt32) (n : Stack) (h : TcpHdr) (n' : Stack) : Prop :=
  (∀ c, (n.socks c).inUse = false → (n'.socks c).inUse = true → IsSyn h.flags) ∧
    ∀ j, (n.socks j).state ≠ .established → (n'.socks j).state = .established → h.ack = isn j + 1

/-- The condition: a segment that finds no connection, but a listening port and a free socket, is a
first segment, and one that establishes a connection acknowledges its `SYN`. -/
def Expected (isn : Fin 32 → UInt32) (n : Stack) (h : TcpHdr) (src : UInt32) : Prop :=
  match findSock n h src with
  | none => (findListener n h).isSome → (tcpAllocSlot n).isSome → IsSyn h.flags
  | some i =>
    (n.socks i).state ≠ .established → nextState h.flags (n.socks i).state = .established →
      h.ack = isn i + 1

/-- A socket that is neither taken nor established. -/
def Sock.NotOpened (s s' : Sock) : Prop :=
  (s'.inUse = true → s.inUse = true) ∧ (s'.state = .established → s.state = .established)

/-- No socket is taken and none established. -/
def NoneOpened (n n' : Stack) : Prop := ∀ j, (n.socks j).NotOpened (n'.socks j)

theorem NoneOpened.refl : NoneOpened n n := fun _ => ⟨id, id⟩

theorem NoneOpened.trans {n'' : Stack} (h : NoneOpened n n') (h' : NoneOpened n' n'') :
    NoneOpened n n'' :=
  fun j => ⟨fun hu => (h j).1 ((h' j).1 hu), fun hs => (h j).2 ((h' j).2 hs)⟩

theorem NoneOpened.socks (h : NoneOpened n n') {n'' : Stack} (hs : n''.socks = n'.socks) :
    NoneOpened n n'' := by
  rwa [NoneOpened, hs]

theorem NoneOpened.modifySock (h : NoneOpened n n') (i : Fin 32) (f : Sock → Sock)
    (hf : ∀ s, Sock.NotOpened s (f s)) : NoneOpened n (n'.modifySock i f) := by
  refine h.trans fun j => ?_
  by_cases hj : j = i
  · rw [hj, modifySock_socks_self]
    exact hf _
  · rw [modifySock_socks_of_ne _ f hj]
    exact ⟨id, id⟩

theorem Kept.noneOpened (h : Kept (fun s => (s.inUse, s.state)) i n n') : NoneOpened n n' := by
  intro j
  by_cases hj : j = i
  · obtain ⟨huse, hst⟩ := Prod.mk.inj h.1
    rw [hj, Sock.NotOpened, huse, hst]
    exact ⟨id, id⟩
  · rw [h.2 j hj]
    exact ⟨id, id⟩

theorem NoneOpened.opensProperly (hn : NoneOpened n n') (isn : Fin 32 → UInt32) (h : TcpHdr) :
    OpensProperly isn n h n' := by
  refine ⟨fun c hfree huse => ?_, fun j hnot hest => absurd ((hn j).2 hest) hnot⟩
  rw [(hn c).1 huse] at hfree
  cases hfree

theorem Update.notOpened (u : Update) (s : Sock) : s.NotOpened (u.set s) := by
  cases u <;> simp [Sock.NotOpened, Update.set]

theorem handOver_socks (n : Stack) (i : Fin 32) (flags : UInt8) (seq ack : UInt32)
    (data : Option MbufPtr) : (handOver n i flags seq ack data).1.socks = n.socks :=
  tcpSendSeg_socks ..

/-- The socket is updated at once if the segment cannot be put together. -/
theorem sendThen_socks (n : Stack) (i : Fin 32) (flags : UInt8) (seq ack : UInt32) (u : Update)
    (m : Option MbufPtr) : (sendThen n i flags seq ack u m).1.socks = n.socks ∨
      (sendThen n i flags seq ack u m).1.socks = (n.modifySock i u.set).socks := by
  rw [sendThen]
  split
  · exact .inl (handOver_socks ..)
  · refine .inr ((freeMbuf_socks ..).trans ?_)
    rw [modifySock, modifySock, handOver_socks]

theorem sendThen_noneOpened (n : Stack) (i : Fin 32) (flags : UInt8) (seq ack : UInt32) (u : Update)
    (m : Option MbufPtr) : NoneOpened n (sendThen n i flags seq ack u m).1 := by
  rcases sendThen_socks n i flags seq ack u m with hs | hs
  · exact NoneOpened.refl.socks hs
  · exact (NoneOpened.refl.modifySock i u.set u.notOpened).socks hs

theorem handleFin_noneOpened (n : Stack) (i : Fin 32) (f : Bool) (m : Option MbufPtr) :
    NoneOpened n (handleFin n i f m).1 := by
  rw [handleFin]
  split
  · refine NoneOpened.trans ?_ (sendThen_noneOpened _ _ _ _ _ _ _)
    exact NoneOpened.refl.modifySock i _ fun _ => ⟨id, id⟩
  · exact NoneOpened.refl.socks (freeMbuf_socks ..)

theorem closeSock_noneOpened (n : Stack) (i : Fin 32) : NoneOpened n (closeSock n i) := by
  refine NoneOpened.modifySock (.socks .refl rfl) i _ ?_
  exact fun _ => ⟨nofun, id⟩

/-- What follows a send opens nothing. -/
theorem after_noneOpened (k : Rest) (n : Stack) (ok : Bool) : NoneOpened n (k.after n ok).1 := by
  cases k with
  | tail i u m =>
    exact (NoneOpened.refl.modifySock i u.set u.notOpened).socks (freeMbuf_socks ..)
  | fin i f m => exact handleFin_noneOpened n i f m
  | chunk i seq len copy =>
    have hnext : NoneOpened n (n.modifySock i fun s =>
        { s with sndNxt := s.sndNxt + UInt32.ofNat len }) :=
      NoneOpened.refl.modifySock i _ fun _ => ⟨id, id⟩
    rw [Rest.after]
    split
    · rw [chunkSent.eq_def]
      cases copy with
      | none => exact hnext
      | some c =>
        dsimp only
        exact hnext.modifySock i _ fun _ => ⟨id, id⟩
    · exact NoneOpened.refl.socks (freeMbuf_socks ..)
  | close i =>
    refine NoneOpened.trans ?_ (closeSock_noneOpened _ i)
    exact NoneOpened.refl.modifySock i _ fun _ => ⟨id, by simp⟩

theorem beginEstablished_noneOpened (n : Stack) (i : Fin 32) (h : TcpHdr) (m : MbufPtr)
    (payloadLen : ℕ) : NoneOpened n (beginEstablished n i h m payloadLen).1 := by
  have hacked : NoneOpened n (acked n i h) := by
    rw [acked, ackArrived]
    split
    · refine NoneOpened.modifySock (.socks .refl rfl) i _ ?_
      exact fun _ => ⟨id, id⟩
    · exact .refl
  have hdata : NoneOpened n (dataArrived (acked n i h) i m payloadLen) :=
    hacked.trans (dataArrived_kept m payloadLen fun _ _ _ _ => rfl).noneOpened
  rw [beginEstablished]
  dsimp only
  split
  · split
    · exact hdata.socks (handOver_socks ..)
    · exact (hdata.socks (handOver_socks ..)).trans (handleFin_noneOpened _ _ _ _)
  · exact hacked.trans (handleFin_noneOpened _ _ _ _)

/-- A socket is set up and then sends. -/
theorem sendThen_next (n : Stack) (i : Fin 32) (f : Sock → Sock) (flags : UInt8) (seq ack : UInt32)
    (u : Update) (m : Option MbufPtr) (hf : (f (n.socks i)).inUse = (n.socks i).inUse)
    (hu : (u.set (f (n.socks i))).state = .established ↔ (f (n.socks i)).state = .established) :
    (((sendThen (n.modifySock i f) i flags seq ack u m).1.socks i).state = .established ↔
      (f (n.socks i)).state = .established) ∧
      Kept Sock.inUse i n (sendThen (n.modifySock i f) i flags seq ack u m).1 := by
  have huse : (u.set (f (n.socks i))).inUse = (n.socks i).inUse := by cases u <;> exact hf
  rcases sendThen_socks (n.modifySock i f) i flags seq ack u m with hs | hs
  · rw [Kept, hs, modifySock_socks_self]
    exact ⟨.rfl, hf, fun j hj => modifySock_socks_of_ne _ f hj⟩
  · rw [Kept, hs, modifySock_socks_self, modifySock_socks_self]
    refine ⟨hu, huse, fun j hj => ?_⟩
    rw [modifySock_socks_of_ne _ _ hj, modifySock_socks_of_ne _ f hj]

theorem ackFin_next (n : Stack) (i : Fin 32) (m : Option MbufPtr)
    (hst : (n.socks i).state ≠ .established) :
    ((ackFin n i .timeWait m).1.socks i).state ≠ .established ∧
      Kept Sock.inUse i n (ackFin n i .timeWait m).1 := by
  obtain ⟨hstate, hkept⟩ := sendThen_next n i (fun s => { s with rcvNxt := s.rcvNxt + 1 }) tcpAck
    _ _ .timeWait m rfl (iff_of_false nofun hst)
  exact ⟨fun h => hst (hstate.mp h), hkept⟩

/-- What a segment does to a socket that is not established, up to its first send. -/
theorem beginControl_next (n : Stack) (i : Fin 32) (h : TcpHdr) (m : MbufPtr) :
    (((beginControl n i h m).1.socks i).state = .established ↔
      nextState h.flags (n.socks i).state = .established) ∧
      Kept Sock.inUse i n (beginControl n i h m).1 := by
  have hsilent : ((((rxControl n i h ⟨[], true⟩).freeMbuf (some m)).socks i).state = .established ↔
      nextState h.flags (n.socks i).state = .established) ∧
      Kept Sock.inUse i n ((rxControl n i h ⟨[], true⟩).freeMbuf (some m)) := by
    obtain ⟨hnext, hkept⟩ := rxControl_next n i h ⟨[], true⟩
    rw [freeMbuf_socks, hnext]
    exact ⟨.rfl, hkept.socks (freeMbuf_socks ..)⟩
  rw [beginControl]
  cases hst : (n.socks i).state <;> rw [hst] at hsilent <;> dsimp only
  case listen | synSent =>
    split
    case isTrue hsyn =>
      rw [nextState, if_pos hsyn]
      exact sendThen_next n i _ _ _ _ _ (some m) rfl .rfl
    case isFalse => exact hsilent
  case finWait1 =>
    split
    case isTrue hfin =>
      obtain ⟨hack, hfin⟩ := (Bool.and_eq_true _ _).mp hfin
      rw [nextState, if_pos hack, if_pos hfin]
      obtain ⟨hnot, hkept⟩ := ackFin_next (n.modifySock i fun s => { s with sndUna := h.ack }) i
        (some m) (by rw [modifySock_socks_self, hst]; decide)
      refine ⟨iff_of_false hnot (by decide), Kept.trans ?_ hkept⟩
      exact Kept.refl.modifySock _ fun _ => rfl
    case isFalse => exact hsilent
  case finWait2 =>
    split
    case isTrue hfin =>
      rw [nextState, if_pos hfin]
      obtain ⟨hnot, hkept⟩ := ackFin_next n i (some m) (by rw [hst]; decide)
      exact ⟨iff_of_false hnot (by decide), hkept⟩
    case isFalse => exact hsilent
  all_goals exact hsilent

/-- A passive open, up to its send. -/
theorem childOpened (n : Stack) (l c : Fin 32) (h : TcpHdr) (dev : ℕ) (src : UInt32) (m : MbufPtr) :
    let n' := (sendThen (childReady n l c h dev src) c (tcpSyn ||| tcpAck) n.isn (h.seq + 1) .sndNxt
      (some m)).1
    (n'.socks c).inUse = true ∧ (n'.socks c).state = .synReceived ∧
      ∀ j ≠ c, n'.socks j = n.socks j := by
  intro n'
  have hready : (childReady n l c h dev src).socks = (n.modifySock c fun _ =>
      { newSock with
        localPort := h.dport, remotePort := h.sport, remoteIp := src, dev := some dev
        parent := some l, sndNxt := n.isn, rcvNxt := h.seq + 1
        state := .synReceived }).socks := rfl
  rcases sendThen_socks (childReady n l c h dev src) c (tcpSyn ||| tcpAck) n.isn (h.seq + 1) .sndNxt
    (some m) with hs | hs
  · rw [show n'.socks = _ from hs.trans hready, modifySock_socks_self]
    exact ⟨rfl, rfl, fun j hj => modifySock_socks_of_ne _ _ hj⟩
  · rw [show n'.socks = _ from hs, modifySock_socks_self, hready, modifySock_socks_self]
    refine ⟨rfl, rfl, fun j hj => ?_⟩
    rw [modifySock_socks_of_ne _ _ hj, hready, modifySock_socks_of_ne _ _ hj]

/-- **One segment** opens what it should exactly if it is an expected one. -/
theorem beginSegment_opens_iff (isn : Fin 32 → UInt32) (n : Stack) (h : TcpHdr) (dev : ℕ)
    (src : UInt32) (m : MbufPtr) (payloadLen : ℕ) :
    OpensProperly isn n h (beginSegment n h dev src m payloadLen).1 ↔ Expected isn n h src := by
  have hdrop : OpensProperly isn n h (n.freeMbuf (some m)) :=
    (NoneOpened.refl.socks (freeMbuf_socks ..)).opensProperly isn h
  rw [beginSegment, Expected]
  cases findSock n h src with
  | none =>
    cases hl : findListener n h with
    | none => exact iff_of_true hdrop (by simp)
    | some l =>
      cases hc : tcpAllocSlot n with
      | none => exact iff_of_true hdrop (by simp)
      | some c =>
        obtain ⟨huse, hstate, hrest⟩ := childOpened n l c h dev src m
        constructor
        · intro hproper _ _
          have hfree : (n.socks c).inUse = false := by simpa using find?_some hc
          exact hproper.1 c hfree huse
        · intro hexp
          refine ⟨fun _ _ _ => hexp rfl rfl, fun j hnot hest => ?_⟩
          by_cases hj : j = c
          · rw [hj, hstate] at hest
            cases hest
          · rw [hrest j hj] at hest
            exact absurd hest hnot
  | some i =>
    dsimp only
    split
    case isTrue hest =>
      exact iff_of_true ((beginEstablished_noneOpened n i h m payloadLen).opensProperly isn h)
        fun h => absurd hest h
    case isFalse hest =>
      obtain ⟨hnext, hkept⟩ := beginControl_next n i h m
      constructor
      · exact fun hproper _ hopens => hproper.2 i hest (hnext.mpr hopens)
      · intro hexp
        refine ⟨fun c hfree huse => ?_, fun j hnot hnow => ?_⟩
        · rw [hkept.inUse c, hfree] at huse
          cases huse
        · by_cases hj : j = i
          · rw [hj] at hnow ⊢
            exact hexp hest (hnext.mp hnow)
          · rw [hkept.2 j hj] at hnow
            exact absurd hnow hnot

/-- The property of an action that is a part of `tcp_rx`: its beginning, or what follows a send. -/
def ActionProper (o : Opening) : Action → Prop
  | .tcpRx dev src m =>
    OpensProperly o.isn o.act.n (o.act.n.pool.mbuf m).tcpHdr (actStep o.act (.tcpRx dev src m)).n
  | .returns j ok => NoneOpened o.act.n (actStep o.act (.returns j ok)).n
  | _ => True

/-- The condition on an action; packets shorter than a header are dropped. -/
def ActionExpected (o : Opening) : Action → Prop
  | .tcpRx _ src m =>
    m ∈ o.act.n.held → 20 ≤ (o.act.n.pool.mbuf m).len →
      Expected o.isn o.act.n (o.act.n.pool.mbuf m).tcpHdr src
  | _ => True

/-- **The segments that open connections properly.**  Whatever happens to the stack, and in
whatever order segments come, also while another segment is being sent: children are made by first
segments only, and connections established by the acknowledgement of their own `SYN` only, exactly
if every segment on the way is expected. -/
theorem opens_properly_iff (o : Opening) (es : List Action) :
    (∀ pre e, pre ++ [e] <+: es → ActionProper (pre.foldl openStep o) e) ↔
      ∀ pre e, pre ++ [e] <+: es → ActionExpected (pre.foldl openStep o) e := by
  refine forall_congr' fun pre => forall_congr' fun e => imp_congr_right fun _ => ?_
  generalize pre.foldl openStep o = o
  obtain ⟨⟨n, ks⟩, isn⟩ := o
  cases e with
  | tcpRx dev src m =>
    rw [ActionProper, ActionExpected, actStep]
    by_cases hm : m ∈ n.held
    · rw [if_pos hm, imp_iff_right hm, Active.enter, beginRx]
      by_cases hlong : 20 ≤ (n.pool.mbuf m).len
      · rw [imp_iff_right hlong]
        dsimp only
        rw [if_neg (by omega)]
        exact beginSegment_opens_iff isn (headerOff n m) _ dev src m _
      · refine iff_of_true ?_ fun h => absurd h hlong
        dsimp only
        rw [if_pos (by omega)]
        have hfree : NoneOpened n (Stack.freeMbuf { n with held := n.held.erase m } (some m)) :=
          NoneOpened.refl.socks (freeMbuf_socks ..)
        exact hfree.opensProperly isn _
    · rw [if_neg hm]
      exact iff_of_true (NoneOpened.refl.opensProperly isn _) fun h => absurd h hm
  | returns j ok =>
    refine iff_of_true ?_ trivial
    rw [ActionProper, actStep]
    cases ks[j]? with
    | none => exact .refl
    | some k => exact after_noneOpened k n ok
  | _ => exact Iff.rfl

/-- A socket listens on the port 49153, and a segment with `RST` and `ACK` is on its way. -/
def resetSent : List Action :=
  [.tcpSocket (some 0), .tcpBind 0 49153, .tcpListen 0, .lower .alloc,
    .lower (.write 0 (sampleSegment 0x14 20))]

/-- **A reset opens a connection**: it makes a child of the listening socket. -/
theorem reset_opens_connection :
    ¬ ∀ pre e, pre ++ [e] <+: resetSent ++ [.tcpRx 0 1 0] →
      ActionProper (pre.foldl openStep ⟨activeInit fun _ => some fun _ => 0, fun _ => 0⟩) e := by
  intro hproper
  obtain ⟨hchild, -⟩ := hproper resetSent _ (prefix_refl _)
  have hsyn := (hchild 1 (by decide +kernel) (by decide +kernel)).1
  revert hsyn
  decide +kernel

/-! ### Acknowledgements -/

/-- The segment ends at or before `a`. -/
def TcpSeg.ackedBy (a : UInt32) (g : TcpSeg) : Bool := tcpSeqLeq (g.seq + g.len) a

/-- What an acknowledgement number should do: `snd_una` does not go back and does not pass
`snd_nxt`, and if the number lies between the two, what is queued afterwards are the segments that
end after it. -/
def AckHandled (s s' : Sock) (a : UInt32) : Prop :=
  (tcpSeqLeq s.sndUna s'.sndUna ∧ tcpSeqLeq s'.sndUna s'.sndNxt) ∧
    (tcpSeqLeq s.sndUna a ∧ tcpSeqLeq a s.sndNxt →
      (∀ g ∈ s'.txQueue, ¬ g.ackedBy a) ∧ ∀ g ∈ s.txQueue, ¬ g.ackedBy a → g ∈ s'.txQueue)

/-- The condition: the number lies between `snd_una` and `snd_nxt`, and what it acknowledges is
queued in front of what it does not. -/
def AckExpected (s : Sock) (a : UInt32) : Prop :=
  (tcpSeqLeq s.sndUna a ∧ tcpSeqLeq a s.sndNxt) ∧
    s.txQueue.Pairwise fun g g' => g'.ackedBy a → g.ackedBy a

theorem dropAcked_queue (a : UInt32) (q : List TcpSeg) (len : ℕ) (p : Pool) :
    (dropAcked a q len p).1 = q.dropWhile (TcpSeg.ackedBy a) := by
  induction q generalizing len p with
  | nil => rfl
  | cons g q ih =>
    rw [dropAcked, dropWhile_cons, TcpSeg.ackedBy]
    split
    · exact ih ..
    · rfl

theorem forall_mem_dropWhile_iff {α : Type} (p : α → Bool) (l : List α) :
    (∀ x ∈ l.dropWhile p, ¬ p x) ↔ l.Pairwise fun x y => p y → p x := by
  induction l with
  | nil => simp
  | cons x l ih =>
    rw [dropWhile_cons, pairwise_cons]
    split
    case isTrue hx => exact ih.trans (and_iff_right fun _ _ _ => hx).symm
    case isFalse hx =>
      rw [forall_mem_cons, and_iff_right hx]
      constructor
      · exact fun h => ⟨fun y hy hp => absurd hp (h y hy),
          ih.mp fun y hy => h y ((dropWhile_sublist p).subset hy)⟩
      · exact fun h y hy hp => hx (h.1 y hy hp)

theorem mem_dropWhile_of_not {α : Type} {p : α → Bool} {l : List α} {x : α} (hx : x ∈ l)
    (hp : ¬ p x) : x ∈ l.dropWhile p := by
  induction l with
  | nil => exact hx
  | cons y l ih =>
    rw [dropWhile_cons]
    split
    case isTrue hy => exact ih ((mem_cons.mp hx).resolve_left fun he => hp (he ▸ hy))
    case isFalse => exact hx

/-- **The acknowledgements that are handled.**  For every segment with an acknowledgement that comes
to an established connection, with any queue: it does what it should exactly if its number is
expected. -/
theorem ack_handled_iff (n : Stack) (dev : ℕ) (src : UInt32) (m : MbufPtr) (w₁ w₂ : Wire)
    (i : Fin 32) (hm : m ∈ n.held) (hlong : 20 ≤ (n.pool.mbuf m).len)
    (hsock : findSock n (n.pool.mbuf m).tcpHdr src = some i)
    (hest : (n.socks i).state = .established)
    (hack : hasFlag (n.pool.mbuf m).tcpHdr.flags tcpAck = true) :
    AckHandled (n.socks i) ((netStep n (.tcpRx dev src m w₁ w₂)).socks i)
        (n.pool.mbuf m).tcpHdr.ack ↔
      AckExpected (n.socks i) (n.pool.mbuf m).tcpHdr.ack := by
  rw [netStep_tcpRx hm (by omega), rxSegment,
    show findSock (headerOff n m) (n.pool.mbuf m).tcpHdr src = some i from hsock]
  generalize (n.pool.mbuf m).tcpHdr = h at hack ⊢
  generalize payloadLength _ _ = payloadLen
  dsimp only
  rw [if_pos (show ((headerOff n m).socks i).state = .established from hest)]
  have hkept : Kept (fun s => (s.sndUna, s.sndNxt, s.txQueue)) i (acked (headerOff n m) i h)
      (rxEstablished (headerOff n m) i h m payloadLen w₁ w₂) :=
    rxEstablished_kept h m payloadLen w₁ w₂ fun _ _ _ _ _ => rfl
  have hfields := hkept.1
  rw [acked, if_pos hack, ackArrived, modifySock_socks_self, dropAcked_queue] at hfields
  simp only [Prod.mk.injEq] at hfields
  obtain ⟨huna, hnxt, hqueue⟩ := hfields
  rw [AckHandled, AckExpected, huna, hnxt, hqueue, ← forall_mem_dropWhile_iff]
  constructor
  · exact fun h => ⟨h.1, (h.2 h.1).1⟩
  · exact fun h => ⟨h.1, fun _ => ⟨h.2, fun g hg hnot => mem_dropWhile_of_not hg hnot⟩⟩

/-- Two bytes are sent, one after the other, and the acknowledgement of the first is on its way. -/
def firstAcked : Stack :=
  (connectSample ++ [Event.tcpSend 0 [7] true ⟨[], true⟩, .tcpSendWoken 0 [8] true ⟨[], true⟩,
    .lower .alloc, .lower (.write 8 { sampleSegment 0x10 20 with
      data := fun j => ([0, 80, 192, 1, 0, 0, 0, 0, 0x12, 0x34, 0x56, 0x7a, 0x50, 0x10] :
        List UInt8).getD j 0 })]).foldl netStep (netInit fun _ => some fun _ => 0)

theorem ack_handled_iff_firstAcked : AckHandled (firstAcked.socks 0)
        ((netStep firstAcked (.tcpRx 0 1 8 ⟨[], true⟩ ⟨[], true⟩)).socks 0) 0x1234567a ↔
      AckExpected (firstAcked.socks 0) 0x1234567a := by
  have hack : (firstAcked.pool.mbuf 8).tcpHdr.ack = 0x1234567a := by decide +kernel
  rw [← hack]
  exact ack_handled_iff firstAcked 0 1 8 ⟨[], true⟩ ⟨[], true⟩ 0 (by decide +kernel)
    (by decide +kernel) (by decide +kernel) (by decide +kernel) (by decide +kernel)

/-- **An acknowledged segment stays queued**, behind the one sent after it. -/
theorem acknowledged_segment_kept : ¬ AckHandled (firstAcked.socks 0)
      ((netStep firstAcked (.tcpRx 0 1 8 ⟨[], true⟩ ⟨[], true⟩)).socks 0) 0x1234567a := by
  rintro ⟨-, hbetween⟩
  have hnone := (hbetween (by decide +kernel)).1
  revert hnone
  decide +kernel

end AxiomeOS.Net
