import AxiomeOS.Lib.Runs
import Mathlib.Data.List.FinRange
import Mathlib.Data.Nat.Notation
import Mathlib.Logic.Function.Basic

/-!
# The event ring of the xHCI driver

All events of the controller come through one ring.  While the ports are enumerated, `command` and
`transfer_wait` take events from it until they find their own; after that `xhci_poll` takes them
and gives those of interrupt transfers to `handle_transfer_event`, which queues the next transfer.
The first transfer of a device is queued as soon as its own port is done, so it can complete while
another port is enumerated.

* `completion_handled_iff`: in every schedule a step that takes the completion of a pending
  transfer handles it, exactly if it is not a round of one of the two waiting loops; and a
  completion that none of them takes stays in the ring until `xhci_poll` has handled it;
* `enumeration_discards_completion`: a key pressed between the enumeration of two ports is lost,
  and with it the keyboard.
-/

namespace AxiomeOS.Xhci

open Function List Runs

/-! ### The driver -/

/-- What the driver reads of an event to see whose it is. -/
structure Trb where
  type : ℕ
  pointer : ℕ
  slot : ℕ

/-- The interrupt transfers of an `xhci_device`; `enqueue` is the index of its ring `intr`. -/
structure Device where
  active : Bool
  pending : Bool
  slot : ℕ
  enqueue : ℕ
  pendingTrb : ℕ
deriving DecidableEq

/-- Where the interrupt rings are: each in a frame of its own. -/
structure Rings (n : ℕ) where
  phys : Fin n → ℕ
  apart : ∀ i j, i ≠ j → phys i + 4096 ≤ phys j ∨ phys j + 4096 ≤ phys i

/-- `queue_interrupt`, with `ring_push`: the last of the 256 entries is the link. -/
def queueInterrupt (phys : ℕ) (dev : Device) : Device :=
  { dev with
    pendingTrb := phys + dev.enqueue * 16
    enqueue := if dev.enqueue + 1 = 255 then 0 else dev.enqueue + 1
    pending := true }

/-- The test of `handle_transfer_event`. -/
def Device.awaits (dev : Device) (e : Trb) : Bool :=
  dev.active && dev.pending && dev.slot == e.slot && dev.pendingTrb == e.pointer

/-- What `command` and `transfer_wait` wait for. -/
inductive Wait
  | command (phys : ℕ)
  | transfer (slot wanted : ℕ)

def Wait.found : Wait → Trb → Bool
  | .command phys, e => e.type == 33 && e.pointer == phys
  | .transfer slot wanted, e => e.type == 32 && e.slot == slot && e.pointer == wanted

/-- The driver, with the events that the controller has posted and nobody has taken. -/
structure Controller (n : ℕ) where
  ready : Bool
  devices : Fin n → Device
  events : List Trb
  /-- The waiting loop it is in, and the rounds that `guard` leaves. -/
  loop : Option (Wait × ℕ)

variable {n : ℕ} {R : Rings n} {c : Controller n} {e : Trb} {i j : Fin n} {phys : ℕ} {d : Device}

/-- `handle_transfer_event`, without the report. -/
def handleTransferEvent (R : Rings n) (devices : Fin n → Device) (e : Trb) : Fin n → Device :=
  match (finRange n).find? fun i => (devices i).awaits e with
  | none => devices
  | some i => update devices i (queueInterrupt (R.phys i) { devices i with pending := false })

/-- A round of the loop of `command` or `transfer_wait`. -/
def waitRound (c : Controller n) (w : Wait) : ℕ → Controller n
  | 0 => { c with loop := none }
  | guard + 1 =>
    match c.events with
    | [] => { c with loop := some (w, guard) }
    | e :: rest => { c with events := rest, loop := if w.found e then none else some (w, guard) }

/-- A round of the loop of `xhci_poll`, or the second loop when there are no events. -/
def pollRound (R : Rings n) (c : Controller n) : Controller n :=
  match c.events with
  | [] =>
    { c with
      devices := fun i =>
        if (c.devices i).active && !(c.devices i).pending then
          queueInterrupt (R.phys i) (c.devices i)
        else c.devices i }
  | e :: rest =>
    { c with
      devices := if e.type = 32 then handleTransferEvent R c.devices e else c.devices
      events := rest }

inductive Act (n : ℕ)
  /-- The controller posts an event. -/
  | post (e : Trb)
  /-- `xhci_probe` comes to a call of `command` or `transfer_wait`. -/
  | wait (w : Wait)
  /-- It is done with a port, and queues the first transfer. -/
  | configured (i : Fin n) (slot : ℕ)
  /-- It is done. -/
  | ready
  /-- The driver goes through the loop that it is in once. -/
  | round

/-- `xhci_probe` is between two waits. -/
def Controller.probes (c : Controller n) : Bool := !c.ready && c.loop.isNone

def exec (R : Rings n) (c : Controller n) : Act n → Controller n
  | .post e => { c with events := c.events ++ [e] }
  | .wait w => if c.probes then { c with loop := some (w, 4000000) } else c
  | .configured i slot =>
    if c.probes && !(c.devices i).active then
      { c with
        devices := update c.devices i (queueInterrupt (R.phys i)
          { c.devices i with active := true, slot := slot, enqueue := 0 }) }
    else c
  | .ready => if c.probes then { c with ready := true } else c
  | .round =>
    match c.loop with
    | some (w, guard) => waitRound c w guard
    | none => if c.ready then pollRound R c else c

/-- The driver after a schedule. -/
def run (R : Rings n) (as : List (Act n)) : Controller n :=
  as.foldl (exec R) ⟨false, fun _ => ⟨false, false, 0, 0, 0⟩, [], none⟩

/-! ### Every schedule -/

/-- A step that takes the completion of a pending transfer from the ring clears `pending` and queues
the transfer again. -/
def Handled (R : Rings n) (c : Controller n) (a : Act n) : Prop :=
  ∀ e rest i, c.events = e :: rest → (exec R c a).events = rest → e.type = 32 →
    (c.devices i).awaits e = true →
    (exec R c a).devices i = queueInterrupt (R.phys i) { c.devices i with pending := false }

/-- **The condition**: no round of a waiting loop finds such a completion first in the ring. -/
def Spares (c : Controller n) (a : Act n) : Prop :=
  ∀ w guard e rest i, a = .round → c.loop = some (w, guard + 1) → c.events = e :: rest →
    e.type = 32 → (c.devices i).awaits e = false

/-- A pending transfer is an entry of the device's own ring. -/
structure Device.Ok (phys : ℕ) (d : Device) : Prop where
  room : d.enqueue < 255
  inside : d.pending = true → phys ≤ d.pendingTrb ∧ d.pendingTrb < phys + 4096

theorem ok_queueInterrupt (h : d.enqueue < 255) : (queueInterrupt phys d).Ok phys := by
  refine ⟨?_, fun _ => ?_⟩
  · simp only [queueInterrupt]
    split <;> omega
  · simp only [queueInterrupt]
    omega

def Inv (R : Rings n) (devices : Fin n → Device) : Prop := ∀ i, (devices i).Ok (R.phys i)

variable {devices : Fin n → Device}

theorem Inv.queue (h : Inv R devices) (i : Fin n) (hd : d.enqueue < 255) :
    Inv R (update devices i (queueInterrupt (R.phys i) d)) := by
  intro j
  by_cases hj : j = i
  · subst hj
    rw [update_self]
    exact ok_queueInterrupt hd
  · rw [update_of_ne hj]
    exact h j

/-- **One step.** -/
theorem Inv.exec (h : Inv R c.devices) (a : Act n) : Inv R (exec R c a).devices := by
  cases a with
  | post => exact h
  | wait | ready =>
    simp only [Xhci.exec]
    split <;> exact h
  | configured i slot =>
    simp only [Xhci.exec]
    split
    · exact h.queue i (Nat.succ_pos 254)
    · exact h
  | round =>
    simp only [Xhci.exec, waitRound, pollRound, Xhci.handleTransferEvent]
    repeat' split
    all_goals first | exact h | exact h.queue _ (h _).room | skip
    intro i
    dsimp only
    split
    · exact ok_queueInterrupt (h i).room
    · exact h i

theorem inv_run (R : Rings n) (as : List (Act n)) : Inv R (run R as).devices := by
  refine foldlRecOn (motive := fun c => Inv R c.devices) as (exec R) ?_ fun c h a _ => h.exec a
  exact fun i => ⟨Nat.succ_pos 254, nofun⟩

/-- The rings are apart, so the loop of `handle_transfer_event` stops at the right device. -/
theorem Inv.handleTransferEvent (h : Inv R devices) (hi : (devices i).awaits e = true) :
    handleTransferEvent R devices e i =
      queueInterrupt (R.phys i) { devices i with pending := false } := by
  unfold Xhci.handleTransferEvent
  cases hfind : (finRange n).find? fun i => (devices i).awaits e with
  | none => exact absurd hi (find?_eq_none.mp hfind i (mem_finRange i))
  | some j =>
    have hj := find?_some hfind
    obtain rfl : j = i := by
      by_contra hne
      simp only [Device.awaits, Bool.and_eq_true, beq_iff_eq] at hi hj
      have hini := (h i).inside hi.1.1.2
      have hinj := (h j).inside hj.1.1.2
      have := R.apart j i hne
      omega
    exact update_self ..

/-- **One step** handles the completion that it takes exactly if the condition holds at it. -/
theorem handled_iff (h : Inv R c.devices) (a : Act n) : Handled R c a ↔ Spares c a := by
  constructor
  · rintro hhandled w guard e rest i rfl hloop hevents htype
    have hround : exec R c .round =
        { c with events := rest, loop := if w.found e then none else some (w, guard) } := by
      simp only [exec, hloop, waitRound, hevents]
    rw [Bool.eq_false_iff]
    intro hawaits
    -- the device is as it was, so its ring has not moved on
    have heq := hhandled e rest i hevents (by rw [hround]) htype hawaits
    rw [hround] at heq
    have hnext := congrArg Device.enqueue heq
    simp only [queueInterrupt] at hnext
    split at hnext <;> omega
  · intro hspares e rest i hevents htakes htype hawaits
    have hkeeps : ¬ c.events.length ≤ (exec R c a).events.length := by
      rw [htakes, hevents, length_cons]
      omega
    cases a with
    | post e' => exact absurd (by simp [exec]) hkeeps
    | wait | configured | ready =>
      refine absurd ?_ hkeeps
      simp only [exec]
      split <;> exact Nat.le_refl _
    | round =>
      cases hloop : c.loop with
      | none =>
        cases hready : c.ready with
        | false => exact absurd (by simp [exec, hloop, hready]) hkeeps
        | true =>
          simp only [exec, hloop, hready, pollRound, hevents, htype, if_true]
          exact h.handleTransferEvent hawaits
      | some l =>
        obtain ⟨w, _ | guard⟩ := l
        · exact absurd (by simp [exec, hloop, waitRound]) hkeeps
        · rw [hspares w guard e rest i rfl hloop hevents htype] at hawaits
          cases hawaits

/-! ### A completion that is posted -/

/-- The events that the controller posts in a schedule. -/
def posted : List (Act n) → List Trb
  | [] => []
  | .post e :: as => e :: posted as
  | _ :: as => posted as

/-- The event `e` is in the ring, behind the events `before` and in front of those posted after it,
and the device still has the transfer pending that it completes. -/
def Queued (i : Fin n) (d : Device) (e : Trb) (before after : List Trb) (c : Controller n) : Prop :=
  c.events = before ++ e :: after ∧ c.devices i = d

/-- In the schedule `as` from `c` on, a round of the driver clears `pending` of the device and
queues the transfer again; until then the device stays as it was. -/
def Requeued (R : Rings n) (i : Fin n) (d : Device) (c : Controller n) (as : List (Act n)) : Prop :=
  ∃ as₁ as₂, as = as₁ ++ .round :: as₂ ∧ (as₁.foldl (exec R) c).devices i = d ∧
    (exec R (as₁.foldl (exec R) c) .round).devices i =
      queueInterrupt (R.phys i) { d with pending := false }

theorem Requeued.cons {a : Act n} {as : List (Act n)} (h : Requeued R i d (exec R c a) as) :
    Requeued R i d c (a :: as) := by
  obtain ⟨as₁, as₂, rfl, hkept, hqueued⟩ := h
  exact ⟨a :: as₁, as₂, rfl, hkept, hqueued⟩

/-- The event leaves the device as it is, unless it is a completion of its transfer. -/
theorem handleTransferEvent_other (h : (devices i).awaits e = false) :
    handleTransferEvent R devices e i = devices i := by
  unfold handleTransferEvent
  cases hfind : (finRange n).find? fun i => (devices i).awaits e with
  | none => rfl
  | some j =>
    refine update_of_ne ?_ ..
    rintro rfl
    rw [find?_some hfind] at h
    cases h

/-- **A completion in the ring**: a step that meets the condition leaves it there or handles the
transfer; a round of `xhci_poll` takes the first event. -/
theorem queued_exec {before after : List Trb} (h : Queued i d e before after c)
    (hinv : Inv R c.devices) (he : e.type = 32) (hd : d.awaits e = true) {a : Act n}
    (ha : Spares c a) :
    (∃ before', Queued i d e before' (after ++ posted [a]) (exec R c a) ∧
      before'.length ≤ before.length ∧
      (c.ready = true → c.loop = none → a = .round → before'.length < before.length)) ∨
    a = .round ∧
      (exec R c a).devices i = queueInterrupt (R.phys i) { d with pending := false } := by
  obtain ⟨hevents, rfl⟩ := h
  cases a with
  | post e' =>
    refine .inl ⟨before, ⟨?_, rfl⟩, Nat.le_refl _, nofun⟩
    simp [exec, hevents, posted]
  | wait | ready =>
    refine .inl ⟨before, ⟨?_, ?_⟩, Nat.le_refl _, nofun⟩
    · simp only [exec, posted, append_nil]
      split <;> exact hevents
    · simp only [exec]
      split <;> rfl
  | configured j slot =>
    refine .inl ⟨before, ⟨?_, ?_⟩, Nat.le_refl _, nofun⟩
    · simp only [exec, posted, append_nil]
      split <;> exact hevents
    · simp only [exec]
      split
      · rename_i hfresh
        refine update_of_ne ?_ ..
        rintro rfl
        simp only [Device.awaits, Bool.and_eq_true] at hd
        simp [hd.1.1.1] at hfresh
      · rfl
  | round =>
    cases hloop : c.loop with
    | some l =>
      obtain ⟨w, _ | guard⟩ := l
      · refine .inl ⟨before, ⟨?_, ?_⟩, Nat.le_refl _, nofun⟩ <;>
          simp [exec, hloop, waitRound, hevents, posted]
      · cases before with
        | nil => exact absurd (ha w guard e after i rfl hloop hevents he) (by simp [hd])
        | cons x before =>
          refine .inl ⟨before, ⟨?_, ?_⟩, Nat.le_succ _, nofun⟩ <;>
            simp [exec, hloop, waitRound, hevents, posted]
    | none =>
      cases hready : c.ready with
      | false =>
        refine .inl ⟨before, ⟨?_, ?_⟩, Nat.le_refl _, nofun⟩ <;>
          simp [exec, hloop, hready, hevents, posted]
      | true =>
        cases before with
        | nil =>
          refine .inr ⟨rfl, ?_⟩
          simp only [exec, hloop, hready, pollRound, hevents, nil_append, he, if_true]
          exact hinv.handleTransferEvent hd
        | cons x before =>
          by_cases hx : x.type = 32 ∧ (c.devices i).awaits x = true
          · refine .inr ⟨rfl, ?_⟩
            simp only [exec, hloop, hready, pollRound, hevents, cons_append, hx.1, if_true]
            exact hinv.handleTransferEvent hx.2
          · refine .inl ⟨before, ⟨?_, ?_⟩, Nat.le_succ _, fun _ _ _ => Nat.lt_succ_self _⟩
            · simp [exec, hloop, hready, pollRound, hevents, posted]
            · simp only [exec, hloop, hready, pollRound, hevents, cons_append, if_true]
              split
              · rename_i htype
                exact handleTransferEvent_other (by simpa [htype] using hx)
              · rfl

/-- The number of rounds in a schedule. -/
def rounds : List (Act n) → ℕ
  | [] => 0
  | .round :: as => rounds as + 1
  | _ :: as => rounds as

theorem ready_exec (h : c.ready = true → c.loop = none) (a : Act n) :
    (c.ready = true → (exec R c a).ready = true) ∧
      ((exec R c a).ready = true → (exec R c a).loop = none) := by
  cases a with
  | post e => exact ⟨id, h⟩
  | wait | configured | ready =>
    simp only [exec]
    split <;> simp_all [Controller.probes]
  | round =>
    simp only [exec]
    split
    · rename_i w guard hloop
      have hready : ¬ c.ready = true := fun hr => by simp [h hr] at hloop
      unfold waitRound
      repeat' split
      all_goals simp_all
    · split
      · unfold pollRound
        split <;> simp_all
      · simp_all

theorem ready_run (R : Rings n) (as : List (Act n)) :
    (run R as).ready = true → (run R as).loop = none :=
  foldlRecOn (motive := fun c => c.ready = true → c.loop = none) as (exec R) (fun _ => rfl)
    fun _ h a _ => (ready_exec h a).2

/-- **A completion in the ring over a schedule** whose steps all meet the condition: it stays there
until the transfer is handled, and enough rounds of `xhci_poll` handle it. -/
theorem queued_run {c' : Controller n} {as : List (Act n)} {before after : List Trb}
    (hrun : RunIn Spares (fun c a c' => c' = exec R c a) c as c')
    (h : Queued i d e before after c) (hinv : Inv R c.devices)
    (hidle : c.ready = true → c.loop = none) (he : e.type = 32) (hd : d.awaits e = true) :
    ((∃ before', Queued i d e before' (after ++ posted as) c') ∨ Requeued R i d c as) ∧
      (c.ready = true → before.length < rounds as → Requeued R i d c as) := by
  induction hrun generalizing before after with
  | nil s => exact ⟨.inl ⟨before, by simpa [posted] using h⟩, fun _ hlt => by simp [rounds] at hlt⟩
  | @cons s s₁ s₂ a as hst hrest ih =>
    obtain ⟨hspares, rfl⟩ := hst
    rcases queued_exec h hinv he hd hspares with ⟨before', hqueued, hle, hlt⟩ | ⟨rfl, hdone⟩
    · obtain ⟨hkept, hpolled⟩ := ih hqueued (hinv.exec a) (ready_exec hidle a).2
      have hposts : after ++ posted [a] ++ posted as = after ++ posted (a :: as) := by
        cases a <;> simp [posted]
      rw [hposts] at hkept
      refine ⟨hkept.imp_right Requeued.cons, fun hready hrounds => ?_⟩
      refine (hpolled ((ready_exec hidle a).1 hready) ?_).cons
      cases a with
      | round =>
        have := hlt hready (hidle hready) rfl
        simp only [rounds] at hrounds
        omega
      | _ => exact Nat.lt_of_le_of_lt hle hrounds
    · have hqueued : Requeued R i d s (.round :: as) := ⟨[], as, rfl, h.2, hdone⟩
      exact ⟨.inr hqueued, fun _ _ => hqueued⟩

theorem Requeued.of_run {c' : Controller n} {as bs : List (Act n)}
    (hrun : RunIn Spares (fun c a c' => c' = exec R c a) c as c') (h : Requeued R i d c' bs) :
    Requeued R i d c (as ++ bs) := by
  induction hrun with
  | nil => exact h
  | cons hst _ ih =>
    obtain ⟨-, rfl⟩ := hst
    exact (ih h).cons

/-- **When no completion is lost.**  For any number of ports, after every schedule of events and
driver steps: the next step handles the completion that it takes exactly if the condition holds at
it; and the completion of a pending transfer, when it is posted and the steps that follow all meet
the condition, stays in the ring until a round of the driver clears `pending` and queues the
transfer again, which happens as soon as `xhci_poll` has gone through the events in the ring. -/
theorem completion_handled_iff (R : Rings n) (as : List (Act n)) :
    (∀ a, Handled R (run R as) a ↔ Spares (run R as) a) ∧
      ∀ e i bs c, e.type = 32 → ((run R as).devices i).awaits e = true →
        RunIn Spares (fun c a c' => c' = exec R c a) (exec R (run R as) (.post e)) bs c →
        ((∃ before, Queued i ((run R as).devices i) e before (posted bs) c) ∨
          Requeued R i ((run R as).devices i) (exec R (run R as) (.post e)) bs) ∧
        (c.ready = true → ∀ bs' c', RunIn Spares (fun c a c' => c' = exec R c a) c bs' c' →
          c.events.length ≤ rounds bs' →
          Requeued R i ((run R as).devices i) (exec R (run R as) (.post e)) (bs ++ bs')) := by
  have hinv := inv_run R as
  refine ⟨handled_iff hinv, fun e i bs c he hawaits hrun => ?_⟩
  have hposted : Queued i ((run R as).devices i) e (run R as).events []
      (exec R (run R as) (.post e)) := ⟨rfl, rfl⟩
  have hkept := (queued_run hrun hposted hinv (ready_run R as) he hawaits).1
  refine ⟨hkept, fun hready bs' c' hrun' hrounds => ?_⟩
  rcases hkept with ⟨before, hqueued⟩ | ⟨bs₁, bs₂, rfl, hsame, hdone⟩
  · have hc : Inv R c.devices ∧ (c.ready = true → c.loop = none) := by
      refine RunIn.invariant (fun c => Inv R c.devices ∧ (c.ready = true → c.loop = none)) ?_ hrun
        ⟨hinv, ready_run R as⟩
      rintro c a _ ⟨hinv, hidle⟩ - rfl
      exact ⟨hinv.exec a, (ready_exec hidle a).2⟩
    have hlen : before.length < c.events.length := by
      rw [hqueued.1, length_append, length_cons]
      omega
    exact .of_run hrun ((queued_run hrun' hqueued hc.1 hc.2 he hawaits).2 hready (by omega))
  · exact ⟨bs₁, bs₂ ++ bs', by simp, hsame, hdone⟩

/-! ### A lost keyboard -/

def twoRings : Rings 2 := ⟨fun i => 4096 * i, by decide⟩

/-- The waits for one port: two commands, four descriptors, a command and two requests. -/
def waits (slot cmd : ℕ) : List Wait :=
  [.command cmd, .command (cmd + 16), .transfer slot 32, .transfer slot 80, .transfer slot 128,
    .transfer slot 176, .command (cmd + 32), .transfer slot 208, .transfer slot 240]

/-- The first port is enumerated, each wait with its answer; then the first command for the second
one is issued, and the transfer of the first device completes. -/
def keyPressed : List (Act 2) :=
  ((waits 1 8192).flatMap fun w =>
    [.wait w, .post (match w with
      | .command phys => ⟨33, phys, 1⟩
      | .transfer slot wanted => ⟨32, wanted, slot⟩), .round]) ++
    [.configured 0 1, .wait (.command 8240), .post ⟨32, 0, 1⟩]

/-- The same key, pressed when the probe is done: the next round of `xhci_poll` handles it. -/
theorem completion_handled_iff_polled :
    Requeued twoRings 0 ⟨true, true, 1, 1, 0⟩
      (exec twoRings (run twoRings [.configured 0 1, .ready]) (.post ⟨32, 0, 1⟩)) [.round] :=
  ((completion_handled_iff twoRings [.configured 0 1, .ready]).2 ⟨32, 0, 1⟩ 0 [] _ rfl
    (by decide +kernel) (.nil _)).2 rfl [.round] _
    (.cons ⟨by rintro w guard e rest i - ⟨⟩, rfl⟩ (.nil _))
    (by decide +kernel)

/-- **The completion is discarded** by `command`, and the transfer stays pending when the second
port is given up, the probe is done and the driver polls. -/
theorem enumeration_discards_completion : ¬ Handled twoRings (run twoRings keyPressed) .round ∧
      ((run twoRings (keyPressed ++ [.round, .post ⟨33, 8240, 0⟩, .round, .ready, .round])).devices
        0) = ⟨true, true, 1, 1, 0⟩ := by
  refine ⟨fun h => ?_, by decide +kernel⟩
  have hqueued := h ⟨32, 0, 1⟩ [] 0 rfl rfl rfl (by decide +kernel)
  exact absurd hqueued (by decide +kernel)

end AxiomeOS.Xhci
