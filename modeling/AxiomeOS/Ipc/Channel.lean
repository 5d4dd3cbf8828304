import AxiomeOS.Lib.Runs
import AxiomeOS.Lib.Circular
import AxiomeOS.Lib.Solo
import Mathlib.Data.List.Forall2

/-!
# IPC channels

A channel is a circular array of 32 messages with a head and a count.  A send is one step, as it
never waits and system calls run with interrupts disabled.  A receive that finds the channel empty
waits in `sched_suspend`, and from then on runs with interrupts enabled (`context_switch` enables
them), so it is modelled step by step (`Receiver`, `recvStep`); a history is any interleaving of
calls and of these steps (`exec`).

The purpose of a channel is stated apart from the code: `FifoStep` is a queue of at most 32
messages, with the answer each call gets.  `channel_refines_fifo`: in every history in which a
receive that has waited is left alone while it takes its message, the calls are answered as the
queue answers them.  `message_received_twice` is a history in which it is not left alone.
-/

namespace AxiomeOS.Channel

open Runs Slots Circular Threads Function List

variable {r : Receiver} {ch : Chan} {max : ℕ} {s' : World}

/-- `IPC_MSG_MAX` -/
def msgMax : ℕ := 32

/-- `IPC_MSG_LEN` -/
def msgLen : ℕ := 256

/-- `struct ipc_msg` -/
structure Msg where
  data : ℕ → UInt8
  len : ℕ

/-- `struct ipc_chan`, for a channel in use. -/
structure Chan where
  msgs : ℤ → Msg
  count : ℤ
  head : ℤ
  waitRecv : Option ℕ

/-- Where a thread stands in `sys_ipc_recv`; `got` are the bytes in its kernel buffer. -/
inductive Receiver
  | out
  /-- Suspended; `ready` once it was woken. -/
  | blocked (max : ℕ) (ready : Bool)
  /-- At the head of the loop. -/
  | loop (max : ℕ)
  /-- It has seen no message and is about to put itself into `wait_recv`. -/
  | enter (max : ℕ)
  /-- About to set its own state to blocked. -/
  | block (max : ℕ)
  /-- About to call `sched_suspend`. -/
  | suspend (max : ℕ)
  /-- It has seen a message and is about to take the address of the first one. -/
  | pick (max : ℕ)
  /-- About to fix the number of bytes. -/
  | size (max : ℕ) (m : ℤ)
  /-- In the copy to the kernel buffer. -/
  | copy (max : ℕ) (m : ℤ) (n i : ℕ) (got : List UInt8)
  /-- About to call `copy_to_user`. -/
  | deliver (max n : ℕ) (got : List UInt8)
  /-- About to move the head. -/
  | advance (max : ℕ) (got : List UInt8)
  /-- About to correct the count and return. -/
  | drop (max : ℕ) (got : List UInt8)

/-- A channel and the threads that use it. -/
structure World where
  ch : Chan
  pc : ℕ → Receiver

/-- What a call comes to. -/
inductive Answer
  /-- The handle names no channel: `-1`. -/
  | rejected
  /-- The channel is full: `-1`. -/
  | full
  /-- A bad user pointer: `-EFAULT`. -/
  | fault
  | sent (n : ℕ)
  /-- A receive of at most `max` bytes returns `got`. -/
  | received (max : ℕ) (got : List UInt8)
  /-- The call is suspended. -/
  | waits
  deriving DecidableEq

/-! ### Sending -/

/-- `memcpy(m->data, tmp, n); m->len = n;` -/
def Msg.store (m : Msg) (tmp : List UInt8) : Msg where
  data := fun i => tmp.getD i (m.data i)
  len := tmp.length

/-- `sched_wake`, on a thread that may be waiting for this channel. -/
def schedWake (pc : ℕ → Receiver) : Option ℕ → ℕ → Receiver
  | none => pc
  | some t =>
    match pc t with
    | .blocked max _ => update pc t (.blocked max true)
    | _ => pc

/-- `sys_ipc_send` on a handle that names the channel; `ok` is the answer of `user_range_ok` for the
bytes that are read. -/
def sysIpcSend (s : World) (bytes : List UInt8) (ok : Bool) : Answer × World :=
  let n := if msgLen < bytes.length then msgLen else bytes.length
  if (msgMax : ℤ) ≤ s.ch.count then (.full, s)
  else if n ≠ 0 ∧ ok = false then (.fault, s)
  else
    let tail := (s.ch.head + s.ch.count).tmod msgMax
    (.sent n,
      { ch :=
          { s.ch with
            msgs := update s.ch.msgs tail ((s.ch.msgs tail).store (bytes.take n))
            count := s.ch.count + 1
            waitRecv := none }
        pc := schedWake s.pc s.ch.waitRecv })

/-! ### Receiving -/

def World.goto (s : World) (t : ℕ) (r : Receiver) : World :=
  { s with pc := update s.pc t r }

/-- One step of a thread in `sys_ipc_recv`, with the answer when the call ends with it or is
suspended; `ok` is the answer of `user_range_ok`, should the step ask for it. -/
def recvStep (t : ℕ) (ok : Bool) (s : World) : Option Answer × World :=
  match s.pc t with
  | .out => (none, s)
  | .blocked _ _ => (none, s)
  | .loop max =>
    if 0 < s.ch.count then (none, s.goto t (.pick max)) else (none, s.goto t (.enter max))
  | .enter max => (none, { s.goto t (.block max) with ch := { s.ch with waitRecv := some t } })
  | .block max => (none, s.goto t (.suspend max))
  | .suspend max => (some .waits, s.goto t (.blocked max false))
  | .pick max => (none, s.goto t (.size max s.ch.head))
  | .size max m =>
    (none, s.goto t (.copy max m (if (s.ch.msgs m).len < max then (s.ch.msgs m).len else max) 0 []))
  | .copy max m n i got =>
    if i < n then (none, s.goto t (.copy max m n (i + 1) (got ++ [(s.ch.msgs m).data i])))
    else (none, s.goto t (.deliver max n got))
  | .deliver max n got =>
    if n ≠ 0 ∧ ok = false then (some .fault, s.goto t .out)
    else (none, s.goto t (.advance max got))
  | .advance max got =>
    (none,
      { s.goto t (.drop max got) with
        ch := { s.ch with head := (s.ch.head + 1).tmod msgMax } })
  | .drop max got =>
    (some (.received max got),
      { s.goto t .out with ch := { s.ch with count := s.ch.count - 1 } })

/-- With interrupts disabled a thread goes on until it returns or is suspended. -/
def finish (t : ℕ) (ok : Bool) : ℕ → World → Option Answer × World
  | 0, s => (none, s)
  | fuel + 1, s =>
    match recvStep t ok s with
    | (none, s') => finish t ok fuel s'
    | r => r

/-! ### Histories -/

inductive Event
  /-- A call of `sys_ipc_send`; `found` tells whether the handle names the channel. -/
  | send (t : ℕ) (found : Bool) (bytes : List UInt8) (ok : Bool)
  /-- A call of `sys_ipc_recv`, up to its return or until it is suspended. -/
  | recv (t : ℕ) (found : Bool) (max : ℕ) (ok : Bool)
  /-- The scheduler switches to a receiver that was woken. -/
  | resume (t : ℕ)
  /-- A receiver that was switched to makes its next step. -/
  | go (t : ℕ) (ok : Bool)

/-- `none` for what cannot happen: a thread that waits does not call. -/
def exec (s : World) : Event → Option (Option Answer × World)
  | .send t found bytes ok =>
    match s.pc t with
    | .out =>
      if found then some (some (sysIpcSend s bytes ok).1, (sysIpcSend s bytes ok).2)
      else some (some .rejected, s)
    | _ => none
  | .recv t found max ok =>
    match s.pc t with
    | .out =>
      if found then some (finish t ok ((s.ch.msgs s.ch.head).len + 7) (s.goto t (.loop max)))
      else some (some .rejected, s)
    | _ => none
  | .resume t =>
    match s.pc t with
    | .blocked max true => some (none, s.goto t (.loop max))
    | _ => none
  | .go t ok =>
    match s.pc t with
    | .out => none
    | .blocked _ _ => none
    | _ => some (recvStep t ok s)

/-- The label of a step: the event and the answer, if a call is answered. -/
abbrev Label := Event × Option Answer

def Step (s : World) (l : Label) (s' : World) : Prop := exec s l.1 = some (l.2, s')

/-- A receiver that has looked for a message and has neither returned nor suspended itself. -/
def Receiver.busy : Receiver → Bool
  | .out | .blocked _ _ | .loop _ => false
  | _ => true

/-- A receiver that has moved the head and not yet corrected the count. -/
def Receiver.dropping : Receiver → Bool
  | .drop _ _ => true
  | _ => false

/-- A receiver that has seen no message and has not yet suspended itself. -/
def Receiver.parking : Receiver → Bool
  | .enter _ | .block _ | .suspend _ => true
  | _ => false

/-- The guard on histories: while a receiver is busy no other thread receives, and nobody sends
between its two assignments or before it has suspended itself. -/
def Undisturbed (s : World) (l : Label) : Prop :=
  match l.1 with
  | .send _ _ _ _ => ∀ t, (s.pc t).dropping = false ∧ (s.pc t).parking = false
  | .recv t _ _ _ => ∀ t', t' ≠ t → (s.pc t').busy = false
  | .go t _ => ∀ t', t' ≠ t → (s.pc t').busy = false
  | .resume _ => True

/-! ### What a channel is for -/

/-- How a receive of at most `max` bytes is answered: with the beginning of the first message, which
is then gone; with an error, for a bad pointer; not yet, when there is no message. -/
inductive Replies (max : ℕ) (ok : Bool) :
    List (List UInt8) → Answer → List (List UInt8) → Prop
  | received (m : List UInt8) (q : List (List UInt8)) :
      Replies max ok (m :: q) (.received max (m.take max)) q
  | fault (q : List (List UInt8)) (hbad : ok = false) : Replies max ok q .fault q
  | waits : Replies max ok [] .waits []

/-- A queue of at most 32 messages of at most 256 bytes. -/
inductive FifoStep : List (List UInt8) → Label → List (List UInt8) → Prop
  | sent {q : List (List UInt8)} (t : ℕ) (bytes : List UInt8) (ok : Bool)
    (hroom : q.length < msgMax) :
      FifoStep q (.send t true bytes ok, some (.sent (min msgLen bytes.length)))
        (q ++ [bytes.take msgLen])
  | full {q : List (List UInt8)} (t : ℕ) (bytes : List UInt8) (ok : Bool)
      (hfull : q.length = msgMax) : FifoStep q (.send t true bytes ok, some .full) q
  | sendFault {q : List (List UInt8)} (t : ℕ) (bytes : List UInt8) (hroom : q.length < msgMax)
      (hne : bytes ≠ []) : FifoStep q (.send t true bytes false, some .fault) q
  | sendRejected (q : List (List UInt8)) (t : ℕ) (bytes : List UInt8) (ok : Bool) :
      FifoStep q (.send t false bytes ok, some .rejected) q
  | recv {q q' : List (List UInt8)} (t max : ℕ) (ok : Bool) {a : Answer}
      (h : Replies max ok q a q') : FifoStep q (.recv t true max ok, some a) q'
  | recvRejected (q : List (List UInt8)) (t max : ℕ) (ok : Bool) :
      FifoStep q (.recv t false max ok, some .rejected) q
  | resume (q : List (List UInt8)) (t : ℕ) : FifoStep q (.resume t, none) q
  | go (q : List (List UInt8)) (t : ℕ) (ok : Bool) : FifoStep q (.go t ok, none) q
  | answer {q q' : List (List UInt8)} (t max : ℕ) (ok : Bool) {a : Answer}
      (h : Replies max ok q a q') : FifoStep q (.go t ok, some a) q'

/-- The messages that were sent, cut to the length of a message. -/
def sentMsgs (ls : List Label) : List (List UInt8) :=
  ls.filterMap fun
    | (.send _ _ bytes _, some (.sent _)) => some (bytes.take msgLen)
    | _ => none

/-- The receives that returned a message: what was asked for and what was returned. -/
def receipts (ls : List Label) : List (ℕ × List UInt8) :=
  ls.filterMap fun
    | (_, some (.received max got)) => some (max, got)
    | _ => none

/-- The messages taken from the queue are those sent, in order. -/
theorem fifo_in_order {q q' : List (List UInt8)} {ls : List Label} (h : Run FifoStep q ls q') :
    ∃ taken, q ++ sentMsgs ls = taken ++ q' ∧
      Forall₂ (fun m r => r.2 = m.take r.1) taken (receipts ls) := by
  induction h with
  | nil q => exact ⟨[], by rw [sentMsgs, filterMap_nil, append_nil]; rfl, .nil⟩
  | cons hstep _ ih =>
    obtain ⟨taken, htaken, hall⟩ := ih
    cases hstep with
    | sent t bytes ok hroom =>
      refine ⟨taken, ?_, hall⟩
      rw [← htaken, append_assoc]
      rfl
    | full | sendFault | sendRejected | recvRejected | resume | go => exact ⟨taken, htaken, hall⟩
    | recv t max ok h | answer t max ok h =>
      cases h with
      | received m q =>
        refine ⟨m :: taken, ?_, .cons rfl hall⟩
        exact congrArg (cons m) htaken
      | fault | waits => exact ⟨taken, htaken, hall⟩

/-! ### The invariant -/

def Msg.bytes (m : Msg) : List UInt8 := cells m.data m.len

/-- The `k` messages from the head on. -/
def Chan.queued (ch : Chan) (k : ℕ) : List (List UInt8) :=
  window msgMax ch.head.toNat k fun i => (ch.msgs i).bytes

/-- What a busy receiver knows: `Q` are the messages that are queued, its own included. -/
def Held (ch : Chan) (Q : List (List UInt8)) : Receiver → Prop
  | .enter _ | .block _ | .suspend _ => Q = []
  | .pick _ => Q ≠ []
  | .size _ m => Q ≠ [] ∧ m = ch.head
  | .copy max m n i got =>
    ∃ msg, Q.head? = some msg ∧ m = ch.head ∧ n = min msg.length max ∧ i ≤ n ∧ got = msg.take i
  | .deliver max _ got | .advance max got => ∃ msg, Q.head? = some msg ∧ got = msg.take max
  | .drop max got =>
    (∃ msg, Q.head? = some msg ∧ got = msg.take max) ∧ ch.queued (Q.length - 1) = Q.tail
  | _ => True

/-- **The invariant.**  The channel holds the queue `Q`, unless a receiver has moved the head and
not yet corrected the count. -/
structure Inv (s : World) (Q : List (List UInt8)) : Prop where
  head : 0 ≤ s.ch.head ∧ s.ch.head < msgMax
  count : s.ch.count = Q.length
  size : Q.length ≤ msgMax
  alone : ∀ t t', (s.pc t).busy = true → (s.pc t').busy = true → t = t'
  still : (∀ t, (s.pc t).dropping = false) → s.ch.queued Q.length = Q
  held : ∀ t, Held s.ch Q (s.pc t)

theorem idle (ch : Chan) (Q : List (List UInt8)) (r : Receiver) (h : r.busy = false) :
    r.dropping = false ∧ Held ch Q r := by
  cases r <;> simp_all [Receiver.busy, Receiver.dropping, Held]

theorem Msg.bytes_store (m : Msg) (tmp : List UInt8) : (m.store tmp).bytes = tmp := by
  refine cells_eq_iff.mpr ⟨rfl, ?_⟩
  intro j hj
  have hlt : j < tmp.length := hj
  show tmp[j]? = some (tmp.getD j _)
  rw [getD_eq_getElem?_getD, getElem?_eq_getElem hlt]
  rfl

variable {tail : ℤ} {n t : ℕ} {ok : Bool} {a : Answer} {s : World}

/-- A message is stored behind the last one. -/
theorem queued_store {k : ℕ} (hhead : 0 ≤ ch.head) (hk : k < msgMax)
    (tmp : List UInt8) (htail : tail = (ch.head + k).tmod msgMax) :
    Chan.queued { ch with msgs := update ch.msgs tail ((ch.msgs tail).store tmp) } (k + 1) =
      ch.queued k ++ [tmp] := by
  have hcast : tail = ((ch.head.toNat + k) % msgMax : ℕ) := by
    rw [htail, Int.natCast_mod, Int.natCast_add, Int.toNat_of_nonneg hhead,
      Int.tmod_eq_emod_of_nonneg (by omega)]
  rw [Chan.queued, Chan.queued, ← window_push _ _ hk]
  congr 1
  funext i
  by_cases hi : i = (ch.head.toNat + k) % msgMax
  · subst hi
    rw [update_self, ← hcast]
    show (update ch.msgs tail _ tail).bytes = tmp
    rw [update_self, Msg.bytes_store]
  · rw [update_of_ne hi]
    show (update ch.msgs tail _ i).bytes = _
    rw [update_of_ne]
    rw [hcast]
    exact fun h => hi (Int.ofNat_inj.mp h)

theorem queued_succ (hhead : 0 ≤ ch.head ∧ ch.head < msgMax) (k : ℕ) : ch.queued (k + 1) =
      (ch.msgs ch.head).bytes :: Chan.queued { ch with head := (ch.head + 1).tmod msgMax } k := by
  have hcast : ((ch.head + 1).tmod msgMax).toNat = (ch.head.toNat + 1) % msgMax := by
    rw [Int.tmod_eq_emod_of_nonneg (by omega)]
    simp only [msgMax]
    omega
  have hlt : ch.head.toNat < msgMax := by omega
  rw [Chan.queued, window_pop _ _ hlt, Int.toNat_of_nonneg hhead.1, Chan.queued, hcast]

/-! ### The steps of a receiver -/

section Receiving

variable {s : World} {Q : List (List UInt8)} {t : ℕ}

@[simp] theorem goto_pc_self (s : World) (t : ℕ) (r : Receiver) : (s.goto t r).pc t = r := by
  show update s.pc t r t = r
  rw [update_self]

theorem goto_pc_of_ne (s : World) {t' : ℕ} (r : Receiver) (h : t' ≠ t) :
    (s.goto t r).pc t' = s.pc t' := by
  show update s.pc t r t' = s.pc t'
  rw [update_of_ne h]

theorem Inv.first (h : Inv s Q) (hstill : ∀ t, (s.pc t).dropping = false) {msg : List UInt8}
    (hmsg : Q.head? = some msg) : (s.ch.msgs s.ch.head).bytes = msg := by
  obtain ⟨rest, rfl⟩ : ∃ rest, Q = msg :: rest := head?_eq_some_iff.mp hmsg
  have hq := h.still hstill
  rw [length_cons, queued_succ h.head] at hq
  exact (cons.inj hq).1

section

variable (h : Inv s Q) (hothers : ∀ t', t' ≠ t → (s.pc t').busy = false)

include h hothers

/-- A thread that is the only one allowed to be busy moves on, with another head perhaps; only its
own part of the invariant has to be shown. -/
theorem Inv.advance (hhead : 0 ≤ ch.head ∧ ch.head < msgMax) (hcount : ch.count = s.ch.count)
    (hheld : Held ch Q r) (hstill : r.dropping = false → ch.queued Q.length = Q) :
    Inv { s.goto t r with ch := ch } Q := by
  obtain ⟨halone, hstill, hheld⟩ := solo_update (idle ch Q) hothers hheld hstill
  exact ⟨hhead, hcount.trans h.count, h.size, halone, hstill, hheld⟩

theorem Inv.goto (hdropping : (s.pc t).dropping = false) (hheld : Held s.ch Q r) :
    Inv (s.goto t r) Q :=
  h.advance hothers h.head rfl hheld fun _ => h.still (not_mid (idle s.ch Q) hothers hdropping)

/-- The number of bytes a receiver asked for, while it is in the loop. -/
def Receiver.wants : Receiver → Option ℕ
  | .out | .blocked _ _ => none
  | .loop max | .enter max | .block max | .suspend max | .pick max | .size max _
  | .copy max _ _ _ _ | .deliver max _ _ | .advance max _ | .drop max _ => some max

/-- What a step of a receiver that is left alone comes to: either the call goes on, with the queue
as it was, or it is answered as the queue answers it. -/
def StepSpec (t max : ℕ) (ok : Bool) (s : World) (Q : List (List UInt8)) :
    Option Answer × World → Prop
  | (none, s') =>
    Inv s' Q ∧ (s'.pc t).wants = some max ∧ ∀ t', t' ≠ t → s'.pc t' = s.pc t'
  | (some a, s') => ∃ Q', Replies max ok Q a Q' ∧ Inv s' Q'

theorem Inv.stepSpec_goto (hdropping : (s.pc t).dropping = false) (hheld : Held s.ch Q r)
    (hwants : r.wants = some max) : StepSpec t max ok s Q (none, s.goto t r) :=
  ⟨h.goto hothers hdropping hheld, by rw [goto_pc_self]; exact hwants,
    fun t' hne => goto_pc_of_ne s r hne⟩

/-- **One step of a receiver** that no other receiver disturbs. -/
theorem Inv.recvStep (ok : Bool) (hwants : (s.pc t).wants = some max) :
    StepSpec t max ok s Q (recvStep t ok s) := by
  have hheld := h.held t
  have hstill := not_mid (idle s.ch Q) hothers
  unfold Channel.recvStep
  generalize hpc : s.pc t = pc at hheld hwants hstill
  have hdrop : pc.dropping = false → (s.pc t).dropping = false := hpc ▸ id
  cases pc with
  | out | blocked _ _ => cases hwants
  | loop max' =>
    cases hwants
    dsimp only
    have hcount := h.count
    split
    case isTrue hpos =>
      refine h.stepSpec_goto hothers (hdrop rfl) ?_ rfl
      rintro rfl
      rw [hcount] at hpos
      cases hpos
    case isFalse hpos =>
      have hnil : Q = [] := length_eq_zero_iff.mp (by omega)
      exact h.stepSpec_goto hothers (hdrop rfl) hnil rfl
  | enter max' =>
    cases hwants
    refine ⟨h.advance hothers h.head rfl hheld (fun _ => h.still (hstill rfl)), ?_, ?_⟩
    · rw [goto_pc_self]
      rfl
    · exact fun t' hne => goto_pc_of_ne s _ hne
  | block max' =>
    cases hwants
    exact h.stepSpec_goto hothers (hdrop rfl) hheld rfl
  | suspend max' =>
    cases hwants
    obtain rfl : Q = [] := hheld
    exact ⟨[], .waits, h.goto hothers (hdrop rfl) trivial⟩
  | pick max' =>
    cases hwants
    exact h.stepSpec_goto hothers (hdrop rfl) ⟨hheld, rfl⟩ rfl
  | size max' m =>
    cases hwants
    obtain ⟨hne, rfl⟩ := hheld
    obtain ⟨msg, hmsg⟩ : ∃ msg, Q.head? = some msg :=
      Option.ne_none_iff_exists'.mp (mt head?_eq_none_iff.mp hne)
    have hlen : (s.ch.msgs s.ch.head).len = msg.length := by
      rw [← h.first (hstill rfl) hmsg, Msg.bytes, length_cells]
    refine h.stepSpec_goto hothers (hdrop rfl) ?_ rfl
    refine ⟨msg, hmsg, rfl, ?_, Nat.zero_le _, rfl⟩
    rw [hlen]
    split <;> omega
  | copy max' m n i got =>
    cases hwants
    obtain ⟨msg, hmsg, rfl, rfl, hi, rfl⟩ := hheld
    have hbytes := cells_eq_iff.mp (h.first (hstill rfl) hmsg)
    dsimp only
    split
    case isTrue hlt =>
      refine h.stepSpec_goto hothers (hdrop rfl) ?_ rfl
      refine ⟨msg, hmsg, rfl, rfl, hlt, ?_⟩
      rw [take_add_one, hbytes.2 i (by omega)]
      rfl
    case isFalse hlt =>
      refine h.stepSpec_goto hothers (hdrop rfl) ?_ rfl
      refine ⟨msg, hmsg, ?_⟩
      rw [show i = min msg.length max by omega, take_eq_take_iff]
      omega
  | deliver max' n got =>
    cases hwants
    dsimp only
    split
    case isTrue hbad =>
      exact ⟨Q, .fault Q hbad.2, h.goto hothers (hdrop rfl) trivial⟩
    case isFalse => exact h.stepSpec_goto hothers (hdrop rfl) hheld rfl
  | advance max' got =>
    cases hwants
    obtain ⟨msg, hmsg, hgot⟩ := hheld
    have hq := h.still (hstill rfl)
    obtain ⟨rest, rfl⟩ : ∃ rest, Q = msg :: rest := head?_eq_some_iff.mp hmsg
    rw [length_cons, queued_succ h.head] at hq
    refine ⟨h.advance hothers ?_ rfl ⟨⟨msg, hmsg, hgot⟩, (cons.inj hq).2⟩ (fun hd => ?_), ?_, ?_⟩
    · have hhead := h.head
      rw [Int.tmod_eq_emod_of_nonneg (by omega)]
      simp only [msgMax]
      omega
    · cases hd
    · rw [goto_pc_self]
      rfl
    · exact fun t' hne => goto_pc_of_ne s _ hne
  | drop max' got =>
    cases hwants
    obtain ⟨⟨msg, hmsg, rfl⟩, hq⟩ := hheld
    obtain ⟨rest, rfl⟩ : ∃ rest, Q = msg :: rest := head?_eq_some_iff.mp hmsg
    have hcount := h.count
    have hsize := h.size
    rw [length_cons] at hcount hsize
    obtain ⟨halone, hstill, hheld⟩ := solo_update
      (idle { s.ch with count := s.ch.count - 1 } rest) hothers (r := .out) trivial fun _ => hq
    refine ⟨rest, .received msg rest, h.head, ?_, by omega, halone, hstill, hheld⟩
    show s.ch.count - 1 = _
    omega

end

/-- The steps a receiver has still to make before the one that answers. -/
def Receiver.left (ch : Chan) : Receiver → ℕ
  | .out | .blocked _ _ | .suspend _ | .drop _ _ => 0
  | .block _ => 1
  | .enter _ => 2
  | .advance _ _ => 1
  | .deliver _ _ _ => 2
  | .copy _ _ n i _ => n - i + 3
  | .size _ m => (ch.msgs m).len + 4
  | .pick _ => (ch.msgs ch.head).len + 5
  | .loop _ => (ch.msgs ch.head).len + 6

/-- A step that does not answer the call brings the answer nearer. -/
theorem recvStep_left (hwants : (s.pc t).wants = some max)
    (h : Channel.recvStep t ok s = (none, s')) :
    (s'.pc t).left s'.ch < (s.pc t).left s.ch := by
  unfold Channel.recvStep at h
  generalize s.pc t = pc at hwants h ⊢
  cases pc with
  | out | blocked _ _ => cases hwants
  | pick max' | advance max' got | enter max' | block max' =>
    cases h
    rw [goto_pc_self]
    exact Nat.lt_succ_self _
  | size max' m =>
    cases h
    rw [goto_pc_self]
    simp only [Receiver.left]
    split <;> omega
  | loop max' | copy max' m n i got | deliver max' n got =>
    dsimp only at h
    split at h <;> cases h
    all_goals
      rw [goto_pc_self]
      simp only [Receiver.left, World.goto]
      omega
  | drop max' got | suspend max' => cases h

/-- **A call that is not interrupted** gets its answer, within the number of steps that `exec`
allows for, and it is the one that the queue gives. -/
theorem Inv.finish (ok : Bool) (fuel : ℕ) (h : Inv s Q)
    (hothers : ∀ t', t' ≠ t → (s.pc t').busy = false) (hwants : (s.pc t).wants = some max)
    (hfuel : (s.pc t).left s.ch < fuel) :
    ∃ a s' Q', finish t ok fuel s = (some a, s') ∧ Replies max ok Q a Q' ∧ Inv s' Q' := by
  induction fuel generalizing s with
  | zero => exact absurd hfuel (Nat.not_lt_zero _)
  | succ fuel ih =>
    have hspec := h.recvStep hothers ok hwants
    unfold Channel.finish
    cases hstep : Channel.recvStep t ok s with
    | mk a1 s1 =>
      rw [hstep] at hspec
      cases a1 with
      | none =>
        obtain ⟨hinv, hwants1, hsame⟩ := hspec
        have hless := recvStep_left hwants hstep
        refine ih hinv ?_ hwants1 (by omega)
        intro t' hne
        rw [hsame t' hne]
        exact hothers t' hne
      | some a1 =>
        obtain ⟨Q', hreply, hinv⟩ := hspec
        exact ⟨a1, s1, Q', rfl, hreply, hinv⟩

end Receiving

/-! ### Sends, and the refinement -/

/-- A thread is woken; nobody else moves, and it stays outside the loop. -/
theorem schedWake_busy (pc : ℕ → Receiver) (who : Option ℕ) (t : ℕ) :
    schedWake pc who t = pc t ∨ (pc t).busy = false ∧ (schedWake pc who t).busy = false := by
  cases who with
  | none => exact .inl rfl
  | some t' =>
    cases hpc : pc t' with
    | blocked max ready =>
      simp only [schedWake, hpc]
      by_cases ht : t = t'
      · subst ht
        rw [update_self, hpc]
        exact .inr ⟨rfl, rfl⟩
      · exact .inl (update_of_ne ht _ _)
    | _ =>
      refine .inl ?_
      simp only [schedWake, hpc]

section Sending

variable {s : World} {Q : List (List UInt8)}

/-- Threads that are not busy may move on, as long as they do not become busy. -/
theorem Inv.relabel {pc' : ℕ → Receiver} (h : Inv s Q)
    (hpc : ∀ t, pc' t = s.pc t ∨ (s.pc t).busy = false ∧ (pc' t).busy = false) :
    Inv { s with pc := pc' } Q := by
  obtain ⟨halone, hstill, hheld⟩ :=
    Solo.relabel (idle s.ch Q) ⟨h.alone, h.still, h.held⟩ hpc
  exact ⟨h.head, h.count, h.size, halone, hstill, hheld⟩

/-- A busy receiver keeps what it knows when a message is sent. -/
theorem Held.send (h : Held ch Q r) (hdropping : r.dropping = false)
    (hparking : r.parking = false) (msg : List UInt8) {ch' : Chan} (hhead : ch'.head = ch.head) :
    Held ch' (Q ++ [msg]) r := by
  have hfirst : ∀ {m : List UInt8}, Q.head? = some m → (Q ++ [msg]).head? = some m := by
    intro m hm
    rw [head?_append, hm]
    rfl
  cases r with
  | out | blocked _ _ | loop _ => trivial
  | pick _ => exact append_ne_nil_of_left_ne_nil h _
  | size _ m => exact ⟨append_ne_nil_of_left_ne_nil h.1 _, h.2.trans hhead.symm⟩
  | copy max m n i got =>
    obtain ⟨m', hm', hslot, hrest⟩ := h
    exact ⟨m', hfirst hm', hslot.trans hhead.symm, hrest⟩
  | deliver max n got | advance max got =>
    obtain ⟨m', hm', hgot⟩ := h
    exact ⟨m', hfirst hm', hgot⟩
  | drop max got => cases hdropping
  | enter _ | block _ | suspend _ => cases hparking

/-- **A message is added** behind the last one. -/
theorem Inv.push (h : Inv s Q)
    (hstill : ∀ t, (s.pc t).dropping = false ∧ (s.pc t).parking = false)
    (hroom : Q.length < msgMax) (msg : List UInt8) (who : Option ℕ)
    (htail : tail = (s.ch.head + s.ch.count).tmod msgMax) : Inv { s with ch := { s.ch with
            msgs := update s.ch.msgs tail ((s.ch.msgs tail).store msg)
            count := s.ch.count + 1
            waitRecv := who } } (Q ++ [msg]) where
  head := h.head
  count := by
    rw [length_append, length_singleton, h.count]
    rfl
  size := by
    rw [length_append, length_singleton]
    exact hroom
  alone := h.alone
  still := by
    intro _
    rw [h.count] at htail
    have hq := queued_store h.head.1 hroom msg htail
    rw [h.still fun t => (hstill t).1] at hq
    rw [length_append, length_singleton]
    exact hq
  held := fun t => (h.held t).send (hstill t).1 (hstill t).2 msg rfl

/-- **A send** that does not fall between the two assignments of a receiver is answered as the queue
answers it. -/
theorem Inv.send (t : ℕ) (bytes : List UInt8) (ok : Bool) (h : Inv s Q)
    (hstill : ∀ t, (s.pc t).dropping = false ∧ (s.pc t).parking = false) :
    ∃ Q', FifoStep Q (.send t true bytes ok, some (sysIpcSend s bytes ok).1) Q' ∧
      Inv (sysIpcSend s bytes ok).2 Q' := by
  have hcount := h.count
  have hsize := h.size
  have hn : (if msgLen < bytes.length then msgLen else bytes.length) = min msgLen bytes.length := by
    split <;> omega
  unfold sysIpcSend
  rw [hn]
  dsimp only
  split
  case isTrue hfull => exact ⟨Q, .full t bytes ok (by omega), h⟩
  case isFalse hroom =>
    have hlt : Q.length < msgMax := by omega
    split
    case isTrue hbad =>
      obtain ⟨hne, rfl⟩ := hbad
      refine ⟨Q, .sendFault t bytes hlt ?_, h⟩
      rintro rfl
      exact hne (Nat.min_zero _)
    case isFalse =>
      refine ⟨Q ++ [bytes.take msgLen], .sent t bytes ok hlt, ?_⟩
      rw [show bytes.take msgLen = bytes.take (min msgLen bytes.length) from take_eq_take_min]
      exact (h.push hstill hlt _ none rfl).relabel (schedWake_busy s.pc s.ch.waitRecv)

/-- **The step lemma.**  What happens in a history that meets the guard is a step of the queue. -/
theorem Inv.exec {l : Label} (h : Inv s Q) (hguard : Undisturbed s l)
    (hstep : Step s l s') : ∃ Q', FifoStep Q l Q' ∧ Inv s' Q' := by
  obtain ⟨e, a⟩ := l
  unfold Step at hstep
  cases e with
  | send t found bytes ok =>
    simp only [Channel.exec] at hstep
    split at hstep
    · cases found with
      | true =>
        cases hstep
        exact h.send t bytes ok hguard
      | false =>
        cases hstep
        exact ⟨Q, .sendRejected Q t bytes ok, h⟩
    · cases hstep
  | recv t found max ok =>
    simp only [Channel.exec] at hstep
    split at hstep
    · rename_i hpc
      cases found with
      | true =>
        have hloop : Inv (s.goto t (.loop max)) Q := h.goto hguard (by rw [hpc]; rfl) trivial
        have hothers : ∀ t', t' ≠ t → ((s.goto t (.loop max)).pc t').busy = false := by
          intro t' hne
          rw [goto_pc_of_ne s _ hne]
          exact hguard t' hne
        have hwants : ((s.goto t (.loop max)).pc t).wants = some max := by
          rw [goto_pc_self]
          rfl
        obtain ⟨a', s1, Q', hfinish, hreply, hinv⟩ :=
          hloop.finish ok ((s.ch.msgs s.ch.head).len + 7) hothers hwants
            (by rw [goto_pc_self]; exact Nat.lt_succ_self _)
        rw [if_pos rfl, hfinish] at hstep
        cases hstep
        exact ⟨Q', .recv t max ok hreply, hinv⟩
      | false =>
        cases hstep
        exact ⟨Q, .recvRejected Q t max ok, h⟩
    · cases hstep
  | resume t =>
    simp only [Channel.exec] at hstep
    split at hstep
    · rename_i max hpc
      cases hstep
      refine ⟨Q, .resume Q t, h.relabel ?_⟩
      intro t'
      by_cases hne : t' = t
      · subst hne
        rw [update_self, hpc]
        exact .inr ⟨rfl, rfl⟩
      · exact .inl (update_of_ne hne _ _)
    · cases hstep
  | go t ok =>
    have hgo : ∀ {max : ℕ}, (s.pc t).wants = some max →
        some (Channel.recvStep t ok s) = some (a, s') →
        ∃ Q', FifoStep Q (.go t ok, a) Q' ∧ Inv s' Q' := by
      intro max hwants heq
      have hspec := h.recvStep hguard ok hwants
      rw [Option.some.inj heq] at hspec
      cases a with
      | none => exact ⟨Q, .go Q t ok, hspec.1⟩
      | some a =>
        obtain ⟨Q', hreply, hinv⟩ := hspec
        exact ⟨Q', .answer t max ok hreply, hinv⟩
    simp only [Channel.exec] at hstep
    cases hpc : s.pc t with
    | out | blocked _ _ =>
      rw [hpc] at hstep
      cases hstep
    | _ =>
      rw [hpc] at hstep hgo
      exact hgo rfl hstep

end Sending

/-- A channel as `sys_ipc_create` leaves it, with whatever is in the messages of an earlier use. -/
def fresh (msgs : ℤ → Msg) : World where
  ch := { msgs := msgs, count := 0, head := 0, waitRecv := none }
  pc := fun _ => .out

theorem inv_fresh (msgs : ℤ → Msg) : Inv (fresh msgs) [] where
  head := ⟨Int.le_refl 0, show (0 : ℤ) < msgMax by decide⟩
  count := rfl
  size := Nat.zero_le _
  alone := by
    exact nofun
  still := fun _ => rfl
  held := fun _ => trivial

/-- **A channel is a queue of at most 32 messages.**  In every history of sends and receives by any
threads, including failed calls and waiting receivers, in which a receiver that has waited is left
alone while it takes its message: the history, with its answers, is one of the queue; the channel
holds the queue, unless a receiver is between its two assignments; and the `n`-th receive that
returned a message returned the beginning of the `n`-th message sent. -/
theorem channel_refines_fifo (msgs : ℤ → Msg) {ls : List Label} {s : World}
    (hrun : RunIn Undisturbed Step (fresh msgs) ls s) :
    ∃ Q, Run FifoStep [] ls Q ∧ Q.length ≤ msgMax ∧
      ((∀ t, (s.pc t).dropping = false) → s.ch.count = Q.length ∧ s.ch.queued Q.length = Q) ∧
      ∀ (n max : ℕ) (got : List UInt8), (receipts ls)[n]? = some (max, got) →
        ∃ msg : List UInt8, (sentMsgs ls)[n]? = some msg ∧ got = msg.take max := by
  have hstep : ∀ s Q l s', Inv s Q → Undisturbed s l → Step s l s' →
      ∃ Q', FifoStep Q l Q' ∧ Inv s' Q' :=
    fun _ _ _ _ hinv hguard hexec => hinv.exec hguard hexec
  obtain ⟨Q, hfifo, h⟩ := RunIn.simulates Inv hstep hrun (inv_fresh msgs)
  refine ⟨Q, hfifo, h.size, fun hstill => ⟨h.count, h.still hstill⟩, ?_⟩
  intro n max got hn
  obtain ⟨taken, htaken, hall⟩ := fifo_in_order hfifo
  rw [nil_append] at htaken
  have hlt : n < taken.length := by
    rw [hall.length_eq]
    exact (List.getElem?_eq_some_iff.mp hn).1
  refine ⟨taken[n], ?_, ?_⟩
  · rw [htaken, List.getElem?_append_left hlt, List.getElem?_eq_getElem hlt]
  · obtain ⟨hlt', hget⟩ := List.getElem?_eq_some_iff.mp hn
    have hpair := hall.get hlt hlt'
    rw [get_eq_getElem, get_eq_getElem, hget] at hpair
    exact hpair

theorem channel_refines_fifo_two :
    ∃ Q, Run FifoStep [] [(.send 2 true [65, 66] true, some (.sent 2)),
      (.recv 1 true 1 true, some (.received 1 [65]))] Q ∧ Q.length ≤ msgMax := by
  obtain ⟨s, hrun⟩ : ∃ s, RunIn Undisturbed Step (fresh fun _ => ⟨fun _ => 0, 0⟩)
      [(.send 2 true [65, 66] true, some (.sent 2)),
        (.recv 1 true 1 true, some (.received 1 [65]))] s := by
    refine ⟨_, .cons ⟨?_, rfl⟩ (.cons ⟨?_, rfl⟩ (.nil _))⟩
    · exact fun _ => ⟨rfl, rfl⟩
    · exact fun _ _ => rfl
  obtain ⟨Q, hfifo, hsize, -⟩ := channel_refines_fifo _ hrun
  exact ⟨Q, hfifo, hsize⟩

/-! ### A receiver that is disturbed -/

/-- Executing events one after the other, with their answers. -/
def history (s : World) : List Event → Option (List Label)
  | [] => some []
  | e :: es => (exec s e).bind fun r => (history r.2 es).map ((e, r.1) :: ·)

/-- Thread 1 waits for a message, thread 2 sends `A`, thread 1 copies it; before it moves the head,
thread 3 receives. -/
def disturbed : List Event :=
  [.recv 1 true 1 true, .send 2 true [65] true, .resume 1, .go 1 true, .go 1 true, .go 1 true,
    .go 1 true, .go 1 true, .go 1 true, .recv 3 true 1 true, .go 1 true, .go 1 true]

/-- One message was sent, and it was received twice. -/
theorem message_received_twice :
    ∃ ls, history (fresh fun _ => ⟨fun _ => 0, 0⟩) disturbed = some ls ∧
      sentMsgs ls = [[65]] ∧ receipts ls = [(1, [65]), (1, [65])] :=
  ⟨_, rfl, rfl, rfl⟩

end AxiomeOS.Channel
