import AxiomeOS.Lib.Bytes

/-!
# The DHCP client

`dhcp_thread` sends a DISCOVER, waits for a reply, sends a REQUEST, waits again and configures the
device.  Both waits are the same routine: it looks at the datagrams that arrive until its deadline,
returns at once for an ACK, and otherwise remembers the last OFFER.

A lease is only valid when the server acknowledges it.  `lease_acknowledged_iff` says for which
exchanges the address that is written is one from an ACK: the client writes the address of the offer
also when the second wait times out, or when a second OFFER comes instead of an ACK.
`offer_configured` is the shortest exchange of this kind.
-/

namespace AxiomeOS.Dhcp

open Bytes List

/-! ### Replies -/

/-- What `dhcp_parse_reply` fills in, with the message type it returns. -/
structure Reply where
  msgType : ℕ
  yiaddr : ℕ
  lease : ℕ
  netmask : ℕ
  router : ℕ
  dns : ℕ
  deriving DecidableEq

/-- The bytes as a number, lowest first, as an address is kept in memory. -/
def rawAddr (v : List UInt8) : ℕ := getLe (fun i => v.getD i 0) 0 4

/-- `be32toh` of the number in memory. -/
def be32 (v : List UInt8) : ℕ := getLe (fun i => v.getD (3 - i) 0) 0 4

/-- The `switch` over the option code. -/
def Reply.option (r : Reply) (code : UInt8) (v : List UInt8) : Reply :=
  if code = 53 then if v.length = 1 then { r with msgType := (v.getD 0 0).toNat } else r
  else if code = 51 then if v.length = 4 then { r with lease := be32 v } else r
  else if code = 1 then if v.length = 4 then { r with netmask := rawAddr v } else r
  else if code = 3 then if 4 ≤ v.length then { r with router := rawAddr v } else r
  else if code = 6 then if 4 ≤ v.length then { r with dns := rawAddr v } else r
  else r

/-- The loop over the options; every round takes at least one byte. -/
def parseOptions : ℕ → List UInt8 → Reply → Reply
  | 0, _, r => r
  | _ + 1, [], r => r
  | fuel + 1, code :: o, r =>
    if code = 255 then r
    else if code = 0 then parseOptions fuel o r
    else
      match o with
      | [] => r
      | l :: o =>
        if o.length < l.toNat then r
        else parseOptions fuel (o.drop l.toNat) (r.option code (o.take l.toNat))

/-- `dhcp_parse_reply`; `none` for `-1`. -/
def dhcpParseReply (xid : ℕ) (pkt : List UInt8) : Option Reply :=
  if pkt.length < 240 then none
  else if pkt.getD 0 0 ≠ 2 ∨ rawAddr ((pkt.drop 4).take 4) ≠ xid then none
  else if be32 ((pkt.drop 236).take 4) ≠ 0x63825363 then none
  else
    some (parseOptions pkt.length (pkt.drop 240)
      { msgType := 0, yiaddr := rawAddr ((pkt.drop 16).take 4), lease := 0, netmask := 0,
        router := 0, dns := 0 })

/-! ### Waiting -/

/-- What a round of the wait loop finds at the socket: nothing, or a datagram. -/
abbrev Poll := Option (List UInt8)

/-- What is made of a datagram: at most 400 bytes are taken, and fewer than 240 are ignored. -/
def reply? (xid : ℕ) (datagram : List UInt8) : Option Reply :=
  if (datagram.take 400).length < 240 then none else dhcpParseReply xid (datagram.take 400)

/-- `dhcp_wait_reply`, for the rounds until the deadline; `best` is what was remembered so far, and
`none` stands for the answer 0. -/
def dhcpWaitReply (xid : ℕ) : List Poll → Option Reply → Option Reply
  | [], best => best
  | none :: polls, best => dhcpWaitReply xid polls best
  | some d :: polls, best =>
    match reply? xid d with
    | none => dhcpWaitReply xid polls best
    | some r =>
      if r.msgType = 5 then some r
      else if r.msgType = 2 then dhcpWaitReply xid polls (some r)
      else dhcpWaitReply xid polls best

/-! ### The exchange -/

/-- The addresses of a `struct netdev`. -/
structure Dev where
  ip : ℕ
  netmask : ℕ
  gateway : ℕ
  dnsServer : ℕ
  deriving DecidableEq

/-- What the client meets with: whether it gets its socket, whether its two messages can be sent,
and what the two waits find. -/
structure Exchange where
  bound : Bool
  discoverSent : Bool
  firstWait : List Poll
  requestSent : Bool
  secondWait : List Poll

/-- The reply the device is configured from, if it is configured. -/
def chosen (xid : ℕ) (x : Exchange) : Option Reply :=
  if x.bound = false ∨ x.discoverSent = false then none
  else
    match dhcpWaitReply xid x.firstWait none with
    | none => none
    | some offer =>
      let r :=
        if x.requestSent then (dhcpWaitReply xid x.secondWait none).getD offer else offer
      if r.yiaddr = 0 then none else some r

/-- `dhcp_thread` -/
def dhcpThread (xid : ℕ) (dev : Dev) (x : Exchange) : Dev :=
  match chosen xid x with
  | none => dev
  | some r =>
    { ip := r.yiaddr
      netmask := if r.netmask ≠ 0 then r.netmask else dev.netmask
      gateway := if r.router ≠ 0 then r.router else dev.gateway
      dnsServer := if r.dns ≠ 0 then r.dns else dev.dnsServer }

/-! ### What was received -/

/-- The replies with the client's transaction id among the datagrams of a wait. -/
def replies (xid : ℕ) (polls : List Poll) : List Reply :=
  polls.filterMap fun p => p.bind (reply? xid)

def Reply.isAck (r : Reply) : Bool := r.msgType = 5

def Reply.isOffer (r : Reply) : Bool := r.msgType = 2

/-- A wait looks at replies until it finds an ACK. -/
def untilAck : List Reply → List Reply
  | [] => []
  | r :: rs => if r.isAck then [r] else r :: untilAck rs

/-- The replies the client has received when it writes the address. -/
def received (xid : ℕ) (x : Exchange) : List Reply :=
  untilAck (replies xid x.firstWait) ++
    if x.requestSent then untilAck (replies xid x.secondWait) else []

/-- What is asked of the client: an address that is written was received in an ACK. -/
def LeaseAcknowledged (xid : ℕ) (x : Exchange) : Prop :=
  ∀ r, chosen xid x = some r → ∃ ack ∈ received xid x, ack.isAck = true ∧ ack.yiaddr = r.yiaddr

/-- The reply that decides a wait: the first ACK, or else the last OFFER. -/
def decisive (rs : List Reply) : Option Reply :=
  (rs.find? Reply.isAck).or (rs.filter Reply.isOffer).getLast?

/-- The replies that can come after the REQUEST. -/
def secondReplies (xid : ℕ) (x : Exchange) : List Reply :=
  if x.requestSent then replies xid x.secondWait else []

/-- The condition: unless the client gives up, or the address is 0, an ACK comes after the REQUEST;
or an ACK came before it and the last OFFER after it, if there is one, is for the same address. -/
def Acknowledged (xid : ℕ) (x : Exchange) : Prop :=
  x.bound = false ∨ x.discoverSent = false ∨ decisive (replies xid x.firstWait) = none ∨
    (∃ ack, (secondReplies xid x).find? Reply.isAck = some ack) ∨
    (∃ r, (decisive (secondReplies xid x)).or (decisive (replies xid x.firstWait)) = some r ∧
      (r.yiaddr = 0 ∨
        ∃ ack, (replies xid x.firstWait).find? Reply.isAck = some ack ∧ ack.yiaddr = r.yiaddr))

/-- **The wait routine** returns the decisive reply. -/
theorem dhcpWaitReply_eq (xid : ℕ) (polls : List Poll) (best : Option Reply) :
    dhcpWaitReply xid polls best = (decisive (replies xid polls)).or best := by
  induction polls generalizing best with
  | nil => rfl
  | cons p polls ih =>
    cases p with
    | none => exact ih best
    | some d =>
      unfold dhcpWaitReply
      cases hr : reply? xid d with
      | none =>
        have hskip : replies xid (some d :: polls) = replies xid polls := filterMap_cons_none hr
        rw [hskip]
        exact ih best
      | some r =>
        have hcons : replies xid (some d :: polls) = r :: replies xid polls :=
          filterMap_cons_some hr
        rw [hcons]
        dsimp only
        by_cases hack : r.msgType = 5
        · rw [if_pos hack, decisive, find?_cons_of_pos (by simp [Reply.isAck, hack])]
          rfl
        · have hnot : ¬ r.isAck = true := by simp [Reply.isAck, hack]
          rw [if_neg hack, decisive, find?_cons_of_neg hnot, filter_cons]
          by_cases hoffer : r.msgType = 2
          · rw [if_pos hoffer, if_pos (by simp [Reply.isOffer, hoffer]), ih, decisive,
              getLast?_cons]
            cases (replies xid polls).find? Reply.isAck with
            | some ack => rfl
            | none => cases ((replies xid polls).filter Reply.isOffer).getLast? <;> rfl
          · rw [if_neg hoffer, if_neg (by simp [Reply.isOffer, hoffer]), ih]
            rfl

theorem mem_untilAck {rs : List Reply} {ack : Reply} (hack : ack.isAck = true) :
    ack ∈ untilAck rs ↔ rs.find? Reply.isAck = some ack := by
  induction rs with
  | nil => simp [untilAck]
  | cons r rs ih =>
    unfold untilAck
    by_cases hr : r.isAck = true
    · rw [if_pos hr, find?_cons_of_pos hr, mem_singleton, Option.some_inj, eq_comm]
    · rw [if_neg hr, find?_cons_of_neg hr, mem_cons, ← ih]
      constructor
      · rintro (rfl | hmem)
        · exact absurd hack hr
        · exact hmem
      · exact .inr

theorem decisive_of_find? {rs : List Reply} {ack : Reply} (h : rs.find? Reply.isAck = some ack) :
    decisive rs = some ack := by
  rw [decisive, h]
  rfl

/-- The reply the device is configured from, in terms of what was received. -/
theorem chosen_eq_some_iff {xid : ℕ} {x : Exchange} {r : Reply} :
    chosen xid x = some r ↔ x.bound = true ∧ x.discoverSent = true ∧
      decisive (replies xid x.firstWait) ≠ none ∧
      (decisive (secondReplies xid x)).or (decisive (replies xid x.firstWait)) = some r ∧
      r.yiaddr ≠ 0 := by
  have hwait : ∀ polls, dhcpWaitReply xid polls none = decisive (replies xid polls) := by
    intro polls
    rw [dhcpWaitReply_eq, Option.or_none]
  have hgetD : ∀ (o : Option Reply) (offer : Reply), o.or (some offer) = some (o.getD offer) := by
    intro o offer
    cases o <;> rfl
  unfold chosen
  split
  case isTrue hnot =>
    constructor
    · exact fun h => nomatch h
    · rintro ⟨hbound, hsent, -⟩
      rw [hbound, hsent] at hnot
      cases hnot with
      | inl h => cases h
      | inr h => cases h
  case isFalse hready =>
    have hbound : x.bound = true := Bool.of_not_eq_false fun h => hready (.inl h)
    have hsent : x.discoverSent = true := Bool.of_not_eq_false fun h => hready (.inr h)
    rw [hwait]
    cases decisive (replies xid x.firstWait) with
    | none => exact ⟨fun h => (nomatch h), fun h => absurd rfl h.2.2.1⟩
    | some offer =>
      have hreply : (if x.requestSent then (dhcpWaitReply xid x.secondWait none).getD offer
          else offer) = (decisive (secondReplies xid x)).getD offer := by
        rw [hwait, secondReplies]
        split <;> rfl
      dsimp only
      rw [hreply, hgetD]
      constructor
      · intro h
        split at h
        · cases h
        case isFalse hne =>
          cases h
          exact ⟨hbound, hsent, Option.some_ne_none _, rfl, hne⟩
      · rintro ⟨-, -, -, hr, hne⟩
        cases hr
        exact if_neg hne

/-- The address of the device, when the client has changed it, is one that an ACK gave. -/
theorem leaseAcknowledged_iff_ip {xid : ℕ} {x : Exchange} : LeaseAcknowledged xid x ↔
    ∀ dev, (dhcpThread xid dev x).ip ≠ dev.ip → ∃ ack ∈ received xid x, ack.isAck = true ∧
      ack.yiaddr = (dhcpThread xid dev x).ip := by
  constructor
  · intro h dev hne
    cases hr : chosen xid x with
    | none =>
      rw [dhcpThread, hr] at hne
      exact absurd rfl hne
    | some r =>
      rw [dhcpThread, hr]
      exact h r hr
  · intro h r hr
    have hip : (dhcpThread xid ⟨0, 0, 0, 0⟩ x).ip = r.yiaddr := by rw [dhcpThread, hr]
    have hne := (chosen_eq_some_iff.mp hr).2.2.2.2
    exact hip ▸ h ⟨0, 0, 0, 0⟩ (hip ▸ hne)

/-- **When a written address was acknowledged.**  For every transaction id and every exchange: the
address that is written comes from an ACK with the client's own transaction id exactly when the
client gives up, the address is 0, an ACK comes after the REQUEST, or one came before it and no
OFFER for another address after it. -/
theorem lease_acknowledged_iff (xid : ℕ) (x : Exchange) :
    LeaseAcknowledged xid x ↔ Acknowledged xid x := by
  have hsecond : ∀ {ack : Reply}, ack.isAck = true →
      (ack ∈ (if x.requestSent then untilAck (replies xid x.secondWait) else []) ↔
        (secondReplies xid x).find? Reply.isAck = some ack) := by
    intro ack hack
    rw [← mem_untilAck hack, secondReplies]
    split <;> rfl
  constructor
  · intro h
    by_cases hbound : x.bound = true
    case neg => exact .inl (Bool.eq_false_iff.mpr hbound)
    by_cases hsent : x.discoverSent = true
    case neg => exact .inr (.inl (Bool.eq_false_iff.mpr hsent))
    by_cases hfirst : decisive (replies xid x.firstWait) = none
    case pos => exact .inr (.inr (.inl hfirst))
    obtain ⟨r, hr⟩ : ∃ r,
        (decisive (secondReplies xid x)).or (decisive (replies xid x.firstWait)) = some r := by
      cases decisive (secondReplies xid x) with
      | some r => exact ⟨r, rfl⟩
      | none => exact Option.ne_none_iff_exists'.mp hfirst
    by_cases hzero : r.yiaddr = 0
    case pos => exact .inr (.inr (.inr (.inr ⟨r, hr, .inl hzero⟩)))
    obtain ⟨ack, hmem, his, hsame⟩ :=
      h r (chosen_eq_some_iff.mpr ⟨hbound, hsent, hfirst, hr, hzero⟩)
    obtain hin | hin := mem_append.mp hmem
    · exact .inr (.inr (.inr (.inr ⟨r, hr, .inr ⟨ack, (mem_untilAck his).mp hin, hsame⟩⟩)))
    · exact .inr (.inr (.inr (.inl ⟨ack, (hsecond his).mp hin⟩)))
  · intro hcond r hr
    obtain ⟨hbound, hsent, hfirst, hor, hne⟩ := chosen_eq_some_iff.mp hr
    obtain hb | hd | hn | ⟨ack, hack⟩ | ⟨r', hr', (hzero | ⟨ack, hack, hsame⟩)⟩ := hcond
    · cases hbound.symm.trans hb
    · cases hsent.symm.trans hd
    · exact absurd hn hfirst
    · have his := find?_some hack
      rw [decisive_of_find? hack] at hor
      cases hor
      exact ⟨_, mem_append_right _ ((hsecond his).mpr hack), his, rfl⟩
    · cases hor.symm.trans hr'
      exact absurd hzero hne
    · cases hor.symm.trans hr'
      have his := find?_some hack
      exact ⟨ack, mem_append_left _ ((mem_untilAck his).mpr hack), his, hsame⟩

/-- A reply without options but the message type. -/
def datagram (msgType : UInt8) (yiaddr : List UInt8) : List UInt8 :=
  [2, 1, 6, 0, 7, 0, 0, 0] ++ List.replicate 8 0 ++ yiaddr ++ List.replicate 216 0 ++
    [0x63, 0x82, 0x53, 0x63, 53, 1, msgType, 255]

/-- The server offers 10.0.2.15 and is not heard of again; the client configures the address. -/
theorem offer_configured : ∃ x : Exchange, received 7 x = [⟨2, 0x0f02000a, 0, 0, 0, 0⟩] ∧
      dhcpThread 7 ⟨0, 0, 0, 0⟩ x = ⟨0x0f02000a, 0, 0, 0⟩ :=
  ⟨⟨true, true, [none, some (datagram 2 [10, 0, 2, 15])], true, [none, none]⟩,
    by decide +kernel, by decide +kernel⟩

end AxiomeOS.Dhcp
