import AxiomeOS.Lib.Runs
import Mathlib.Algebra.Group.Nat.Defs
import Mathlib.Logic.Function.Basic

/-!
# The transmit ring of the E1000 driver

`e1000_tx` puts a frame into the descriptor at the tail of a ring of 128, hands it to the card, and
then gives back the buffers of completed descriptors from the head on.  The card marks a descriptor
as completed at any time, also between two iterations of the loop that gives buffers back, so an
iteration of that loop is a step of its own.

The done bit of a descriptor is only cleared when the descriptor is used again, and the loop looks
at nothing else.  `transmit_ring_iff` says for which histories the ring works: the loop ends, the
head stays behind the tail, exactly the descriptors between them have a buffer, and no frame is
refused while the card has nothing to do.  `transmit_hangs` is a history in which the loop never
ends.
-/

namespace AxiomeOS.E1000

open Runs Function List Bool

/-- `struct e1000_tx_desc`, the fields the driver sets and reads. -/
structure TxDesc where
  addr : ℕ
  length : ℕ
  cmd : ℕ
  status : BitVec 8

/-- `status & E1000_TXD_STAT_DD` -/
def TxDesc.dd (d : TxDesc) : Bool := d.status.getLsbD 0

/-- A buffer that was filled for the card. -/
structure Mbuf where
  phys : ℕ
  data : List UInt8

/-- The transmit side of `struct e1000_softc`, and what has been done with it so far. -/
structure Softc where
  txRing : ℕ → TxDesc
  txMbufs : ℕ → Option Mbuf
  txHead : ℕ
  txTail : ℕ
  /-- `e1000_tx` is in the loop that gives buffers back. -/
  looping : Bool
  /-- The descriptors the card was given and has not completed. -/
  given : ℕ → Bool
  /-- How often the tail and the head have moved. -/
  submitted : ℕ
  reclaimed : ℕ
  /-- A frame was refused for a full ring while the card had nothing to do. -/
  refusedIdle : Bool

/-! ### Sending -/

/-- `mbuf_total_len`, of a chain of segments. -/
def mbufTotalLen (m : List (List UInt8)) : ℕ := m.foldl (fun total seg => total + seg.length) 0

/-- The loop that copies the segments into one buffer; `left` is `total - off`. -/
def flattenInto : List (List UInt8) → ℕ → List UInt8
  | [], _ => []
  | seg :: rest, left =>
    if left = 0 then []
    else
      let n := if left < seg.length then left else seg.length
      seg.take n ++ flattenInto rest (left - n)

def Softc.full (s : Softc) : Prop := (s.txTail + 1) % 128 = s.txHead

/-- Every descriptor the card was given has been completed. -/
def Softc.allDone (s : Softc) : Prop := ∀ i < 128, s.given i = false

instance (s : Softc) : Decidable s.full := inferInstanceAs (Decidable (_ = _))

instance (s : Softc) : Decidable s.allDone := inferInstanceAs (Decidable (∀ i < 128, _))

/-- The descriptor at the tail is filled and handed to the card. -/
def Softc.submit (s : Softc) (txm : Mbuf) (total : ℕ) : Softc :=
  { s with
    txMbufs := update s.txMbufs s.txTail (some txm)
    txRing := update s.txRing s.txTail
      { addr := txm.phys, length := total % 2 ^ 16, cmd := 1 ||| 2 ||| 8, status := 0 }
    txTail := (s.txTail + 1) % 128
    looping := true
    given := update s.given s.txTail true
    submitted := s.submitted + 1 }

/-- `e1000_tx` up to the loop that gives buffers back; `alloc` is what `mbuf_alloc` answers. -/
def e1000Tx (s : Softc) (m : List (List UInt8)) (alloc : Option ℕ) : Softc :=
  if s.full then { s with refusedIdle := s.refusedIdle || decide s.allDone }
  else if 2048 < mbufTotalLen m then s
  else
    match alloc with
    | none => s
    | some phys =>
      s.submit { phys := phys, data := flattenInto m (mbufTotalLen m) } (mbufTotalLen m)

/-- One iteration of the loop that gives buffers back, or its end. -/
def reclaimStep (s : Softc) : Softc :=
  if (s.txRing s.txHead).dd then
    { s with
      txMbufs := update s.txMbufs s.txHead none
      txHead := (s.txHead + 1) % 128
      reclaimed := s.reclaimed + 1 }
  else { s with looping := false }

/-- The loop, for at most the given number of iterations. -/
def reclaim : ℕ → Softc → Softc
  | 0, s => s
  | fuel + 1, s => if s.looping then reclaim fuel (reclaimStep s) else s

/-! ### Histories -/

inductive Event
  /-- A call of `e1000_tx`. -/
  | tx (m : List (List UInt8)) (alloc : Option ℕ)
  /-- The next iteration of its loop. -/
  | loop
  /-- The card completes a descriptor. -/
  | nic (i : ℕ)

/-- The card sets the done bit of a descriptor. -/
def Softc.complete (s : Softc) (i : ℕ) : Softc :=
  { s with
    txRing := update s.txRing i { s.txRing i with status := (s.txRing i).status ||| 1#8 }
    given := update s.given i false }

/-- `none` for what cannot happen. -/
def exec (s : Softc) : Event → Option Softc
  | .tx m alloc => if s.looping then none else some (e1000Tx s m alloc)
  | .loop => if s.looping then some (reclaimStep s) else none
  | .nic i => if s.given i then some (s.complete i) else none

/-- The ring as the driver sets it up. -/
def start : Softc where
  txRing := fun _ => { addr := 0, length := 0, cmd := 0, status := 0 }
  txMbufs := fun _ => none
  txHead := 0
  txTail := 0
  looping := false
  given := fun _ => false
  submitted := 0
  reclaimed := 0
  refusedIdle := false

/-- What is expected of the ring. -/
structure Good (s : Softc) : Prop where
  /-- The head does not pass the tail. -/
  behind : s.reclaimed ≤ s.submitted
  /-- The descriptors with a buffer are those from the head up to the tail. -/
  buffers : ∀ i < 128, (s.txMbufs i).isSome = true ↔
    (i + 128 - s.txHead) % 128 < (s.txTail + 128 - s.txHead) % 128
  /-- The loop ends. -/
  ends : ∃ fuel, (reclaim fuel s).looping = false
  /-- No frame was refused for a full ring while everything was completed. -/
  served : s.refusedIdle = false

/-- The condition on a step: no frame is given to a full ring whose descriptors are all completed,
and, once 128 frames were submitted, the card does not complete the last descriptor it has while the
loop is running. -/
def Fits (s : Softc) : Event → Prop
  | .tx _ _ => ¬ (s.looping = false ∧ s.full ∧ s.allDone)
  | .loop => True
  | .nic i => ¬ (s.looping = true ∧ 128 ≤ s.submitted ∧ ∀ j, s.given j = true → j = i)

/-! ### What reaches the card -/

/-! ### The loop -/

/-- The loop stops at the first descriptor that is not done. -/
theorem reclaim_ends (d : ℕ) : ∀ s : Softc, s.txHead < 128 →
    (s.txRing ((s.txHead + d) % 128)).dd = false → ∃ fuel, (reclaim fuel s).looping = false := by
  induction d with
  | zero =>
    intro s hhead hdd
    rw [Nat.add_zero, Nat.mod_eq_of_lt hhead] at hdd
    refine ⟨1, ?_⟩
    cases hloop : s.looping with
    | false => simp only [reclaim, hloop, false_eq_true, if_false]
    | true => simp only [reclaim, hloop, if_true, reclaimStep, hdd, false_eq_true, if_false]
  | succ d ih =>
    intro s hhead hdd
    cases hloop : s.looping with
    | false => exact ⟨0, hloop⟩
    | true =>
      cases hnow : (s.txRing s.txHead).dd with
      | false =>
        refine ⟨1, ?_⟩
        simp only [reclaim, hloop, if_true, reclaimStep, hnow, false_eq_true, if_false]
      | true =>
        have hnext : ((reclaimStep s).txRing (((reclaimStep s).txHead + d) % 128)).dd = false := by
          simp only [reclaimStep, hnow, if_true]
          rw [Nat.mod_add_mod, Nat.add_assoc, Nat.add_comm 1 d]
          exact hdd
        have hlt : (reclaimStep s).txHead < 128 := by
          simp only [reclaimStep, hnow, if_true]
          exact Nat.mod_lt _ (by decide)
        obtain ⟨fuel, hfuel⟩ := ih (reclaimStep s) hlt hnext
        exact ⟨fuel + 1, by rw [reclaim, hloop, if_pos rfl]; exact hfuel⟩

theorem reclaim_never_ends (fuel : ℕ) : ∀ s : Softc, s.txHead < 128 → s.looping = true →
    (∀ i < 128, (s.txRing i).dd = true) → (reclaim fuel s).looping = true := by
  induction fuel with
  | zero => exact fun _ _ hloop _ => hloop
  | succ fuel ih =>
    intro s hhead hloop hdd
    have hstep : reclaimStep s =
        { s with
          txMbufs := update s.txMbufs s.txHead none
          txHead := (s.txHead + 1) % 128
          reclaimed := s.reclaimed + 1 } := by
      rw [reclaimStep, if_pos (hdd _ hhead)]
    rw [reclaim, hloop, if_pos rfl, hstep]
    exact ih _ (Nat.mod_lt _ (by decide)) hloop hdd

/-! ### The invariant -/

/-- The descriptor is between head and tail. -/
def Softc.InUse (s : Softc) (i : ℕ) : Prop :=
  (i + 128 - s.reclaimed % 128) % 128 < s.submitted - s.reclaimed

/-- **The invariant.**  A descriptor in use is done unless the card still has it; one that is not in
use has the done bit of its last use, if it was ever used. -/
structure Inv (s : Softc) : Prop where
  order : s.reclaimed ≤ s.submitted ∧ s.submitted ≤ s.reclaimed + 127
  head : s.txHead = s.reclaimed % 128
  tail : s.txTail = s.submitted % 128
  inside : ∀ i < 128, s.InUse i → (s.txMbufs i).isSome = true ∧ s.given i = !(s.txRing i).dd
  outside : ∀ i < 128, ¬ s.InUse i → (s.txMbufs i).isSome = false ∧ s.given i = false ∧
    ((s.txRing i).dd = true ↔ i < s.submitted)
  range : ∀ i, s.given i = true → i < 128
  waits : s.looping = true → 128 ≤ s.submitted → ∃ i, s.given i = true
  served : s.refusedIdle = false

section Steps

variable {s : Softc}

theorem Inv.inUse_of_given (h : Inv s) {i : ℕ} (hgiven : s.given i = true) : s.InUse i := by
  by_contra hnot
  cases hgiven.symm.trans (h.outside i (h.range i hgiven) hnot).2.1

/-- Somewhere between head and tail there is a descriptor that is not done, or the tail itself was
never used. -/
theorem Inv.ends (h : Inv s) (hloop : s.looping = true) :
    ∃ fuel, (reclaim fuel s).looping = false := by
  have horder := h.order
  have hhead := h.head
  by_cases hlap : 128 ≤ s.submitted
  · obtain ⟨i, hi⟩ := h.waits hloop hlap
    have hlt := h.range i hi
    have hdd := (h.inside i hlt (h.inUse_of_given hi)).2
    rw [hi] at hdd
    refine reclaim_ends ((i + 128 - s.txHead) % 128) s (by omega) ?_
    rw [show (s.txHead + (i + 128 - s.txHead) % 128) % 128 = i by omega]
    cases hcase : (s.txRing i).dd with
    | false => rfl
    | true =>
      rw [hcase] at hdd
      cases hdd
  · have hnot : ¬ s.InUse s.submitted := by
      unfold Softc.InUse
      omega
    have hdd := (h.outside s.submitted (by omega) hnot).2.2
    refine reclaim_ends (s.submitted - s.reclaimed) s (by omega) ?_
    rw [show (s.txHead + (s.submitted - s.reclaimed)) % 128 = s.submitted by omega]
    cases hcase : (s.txRing s.submitted).dd with
    | false => rfl
    | true => exact absurd (hdd.mp hcase) (Nat.lt_irrefl _)

theorem Inv.good (h : Inv s) : Good s where
  behind := h.order.1
  buffers := by
    intro i hi
    have horder := h.order
    have huse : s.InUse i ↔ (i + 128 - s.txHead) % 128 < (s.txTail + 128 - s.txHead) % 128 := by
      rw [h.head, h.tail]
      unfold Softc.InUse
      omega
    rw [← huse]
    by_cases hin : s.InUse i
    · exact iff_of_true (h.inside i hi hin).1 hin
    · refine iff_of_false ?_ hin
      rw [(h.outside i hi hin).1]
      exact false_ne_true
  ends := by
    cases hloop : s.looping with
    | false => exact ⟨0, hloop⟩
    | true => exact h.ends hloop
  served := h.served

/-- **A frame is submitted.** -/
theorem Inv.submit (h : Inv s) (hroom : ¬ s.full) (txm : Mbuf) (total : ℕ) :
    Inv (s.submit txm total) := by
  have horder := h.order
  have hhead := h.head
  have htail := h.tail
  unfold Softc.full at hroom
  have hless : s.submitted + 1 ≤ s.reclaimed + 127 := by omega
  have huse : ∀ i < 128, (s.submit txm total).InUse i ↔ s.InUse i ∨ i = s.txTail := by
    intro i hi
    show (i + 128 - s.reclaimed % 128) % 128 < s.submitted + 1 - s.reclaimed ↔
      (i + 128 - s.reclaimed % 128) % 128 < s.submitted - s.reclaimed ∨ i = s.txTail
    omega
  refine ⟨⟨Nat.le_succ_of_le horder.1, hless⟩, hhead, ?_, ?_, ?_, ?_, ?_, h.served⟩
  · show (s.txTail + 1) % 128 = (s.submitted + 1) % 128
    omega
  · intro i hi hin
    show (update s.txMbufs s.txTail _ i).isSome = true ∧
      update s.given s.txTail true i = !(update s.txRing s.txTail _ i).dd
    by_cases hi' : i = s.txTail
    · subst hi'
      rw [update_self, update_self, update_self]
      refine ⟨rfl, ?_⟩
      show true = !(0#8).getLsbD 0
      decide
    · rw [update_of_ne hi', update_of_ne hi', update_of_ne hi']
      exact h.inside i hi (((huse i hi).mp hin).resolve_right hi')
  · intro i hi hout
    have hi' : i ≠ s.txTail := fun heq => hout ((huse i hi).mpr (.inr heq))
    have hold := h.outside i hi fun hin => hout ((huse i hi).mpr (.inl hin))
    show (update s.txMbufs s.txTail _ i).isSome = false ∧
      update s.given s.txTail true i = false ∧
      ((update s.txRing s.txTail _ i).dd = true ↔ i < s.submitted + 1)
    rw [update_of_ne hi', update_of_ne hi', update_of_ne hi']
    refine ⟨hold.1, hold.2.1, hold.2.2.trans ?_⟩
    omega
  · intro i hi
    by_cases hi' : i = s.txTail
    · omega
    · apply h.range
      rwa [show (s.submit txm total).given i = s.given i from update_of_ne hi' _ _] at hi
  · exact fun _ _ => ⟨s.txTail, update_self _ _ _⟩

/-- **The loop goes on**, or ends. -/
theorem Inv.reclaimStep (h : Inv s) (hloop : s.looping = true) : Inv (reclaimStep s) := by
  have horder := h.order
  have hhead := h.head
  unfold E1000.reclaimStep
  split
  case isFalse => exact { h with waits := nofun }
  case isTrue hdd =>
    have hlt : s.reclaimed < s.submitted := by
      by_contra hnot
      have hnone : ∀ i, ¬ s.InUse i := by
        intro i
        unfold Softc.InUse
        omega
      have hused := (h.outside s.txHead (by omega) (hnone _)).2.2.mp hdd
      obtain ⟨i, hi⟩ := h.waits hloop (by omega)
      exact hnone i (h.inUse_of_given hi)
    have hin : s.InUse s.txHead := by
      unfold Softc.InUse
      omega
    have huse : ∀ i < 128,
        ((i + 128 - (s.reclaimed + 1) % 128) % 128 < s.submitted - (s.reclaimed + 1) ↔
          s.InUse i ∧ i ≠ s.txHead) := by
      intro i hi
      unfold Softc.InUse
      omega
    refine ⟨?_, ?_, h.tail, ?_, ?_, h.range, h.waits, h.served⟩
    · show s.reclaimed + 1 ≤ s.submitted ∧ s.submitted ≤ s.reclaimed + 1 + 127
      omega
    · show (s.txHead + 1) % 128 = (s.reclaimed + 1) % 128
      omega
    · intro i hi hin'
      obtain ⟨hold, hne⟩ := (huse i hi).mp hin'
      show (update s.txMbufs s.txHead none i).isSome = true ∧ _
      rw [update_of_ne hne]
      exact h.inside i hi hold
    · intro i hi hout
      show (update s.txMbufs s.txHead none i).isSome = false ∧ _
      by_cases hi' : i = s.txHead
      · subst hi'
        have hgiven := (h.inside _ hi hin).2
        rw [hdd] at hgiven
        rw [update_self]
        refine ⟨rfl, hgiven, iff_of_true hdd ?_⟩
        show s.txHead < s.submitted
        omega
      · rw [update_of_ne hi']
        exact h.outside i hi fun hin' => hout ((huse i hi).mpr ⟨hin', hi'⟩)

theorem dd_complete (s : Softc) (i j : ℕ) :
    ((s.complete i).txRing j).dd = (decide (j = i) || (s.txRing j).dd) := by
  show (update s.txRing i _ j).dd = _
  by_cases hj : j = i
  · subst hj
    rw [update_self, decide_eq_true rfl, Bool.true_or]
    show ((s.txRing j).status ||| 1#8).getLsbD 0 = true
    rw [BitVec.getLsbD_or]
    exact Bool.or_true _
  · rw [update_of_ne hj, decide_eq_false hj, Bool.false_or]

theorem given_complete (s : Softc) (i j : ℕ) :
    (s.complete i).given j = (!decide (j = i) && s.given j) := by
  show update s.given i false j = _
  by_cases hj : j = i
  · subst hj
    rw [update_self, decide_eq_true rfl]
    rfl
  · rw [update_of_ne hj, decide_eq_false hj]
    rfl

/-- **The card completes a descriptor**, not the last one it has while the loop is running. -/
theorem Inv.complete (h : Inv s) {i : ℕ} (hgiven : s.given i = true) (hfits : Fits s (.nic i)) :
    Inv (s.complete i) := by
  have hin := h.inUse_of_given hgiven
  refine ⟨h.order, h.head, h.tail, ?_, ?_, ?_, ?_, h.served⟩
  · intro j hj hin'
    rw [dd_complete, given_complete]
    obtain ⟨hbuf, hdd⟩ := h.inside j hj hin'
    refine ⟨hbuf, ?_⟩
    rw [hdd]
    cases decide (j = i) <;> rfl
  · intro j hj hout
    have hne : j ≠ i := fun heq => hout (heq ▸ hin)
    rw [dd_complete, given_complete, decide_eq_false hne]
    exact h.outside j hj hout
  · intro j hj
    rw [given_complete] at hj
    exact h.range j (and_eq_true_iff.mp hj).2
  · intro hloop hlap
    by_contra hnone
    refine hfits ⟨hloop, hlap, ?_⟩
    intro j hj
    by_contra hne
    refine hnone ⟨j, ?_⟩
    rw [given_complete, decide_eq_false hne, hj]
    rfl

/-- **The step lemma.**  A step keeps the invariant under the condition, and without it the ring is
broken. -/
theorem Inv.exec {e : Event} {s' : Softc} (h : Inv s) (hexec : exec s e = some s') :
    (Good s' → Fits s e) ∧ (Fits s e → Inv s') := by
  cases e with
  | tx m alloc =>
    simp only [E1000.exec] at hexec
    split at hexec
    case isTrue => cases hexec
    case isFalse hidle =>
      cases hexec
      have hidle' : s.looping = false := eq_false_iff.mpr hidle
      unfold e1000Tx
      split
      case isTrue hfull =>
        constructor
        · rintro hgood ⟨-, -, hdone⟩
          have hserved : (s.refusedIdle || decide s.allDone) = false := hgood.served
          rw [decide_eq_true hdone, Bool.or_true] at hserved
          cases hserved
        · intro hfits
          have hnot : ¬ s.allDone := fun hdone => hfits ⟨hidle', hfull, hdone⟩
          refine { h with served := ?_ }
          rw [h.served, decide_eq_false hnot]
          rfl
      case isFalse hroom =>
        refine ⟨fun _ hbad => hroom hbad.2.1, fun _ => ?_⟩
        split
        · exact h
        · split
          · exact h
          · exact h.submit hroom _ _
  | loop =>
    simp only [E1000.exec] at hexec
    split at hexec
    case isTrue hloop =>
      cases hexec
      exact ⟨fun _ => trivial, fun _ => h.reclaimStep hloop⟩
    case isFalse => cases hexec
  | nic i =>
    simp only [E1000.exec] at hexec
    split at hexec
    case isTrue hgiven =>
      cases hexec
      refine ⟨?_, h.complete hgiven⟩
      rintro hgood ⟨hloop, hlap, honly⟩
      obtain ⟨fuel, hfuel⟩ := hgood.ends
      have hdd : ∀ j < 128, ((s.complete i).txRing j).dd = true := by
        intro j hj
        rw [dd_complete]
        by_cases hji : j = i
        · rw [decide_eq_true hji]
          rfl
        rw [decide_eq_false hji, Bool.false_or]
        by_cases hin : s.InUse j
        · have hdone := (h.inside j hj hin).2
          cases hgj : s.given j with
          | true => exact absurd (honly j hgj) hji
          | false =>
            rw [hgj] at hdone
            exact (not_eq_false' _).mp hdone.symm
        · exact (h.outside j hj hin).2.2.mpr (by omega)
      have hhead : s.txHead < 128 := by
        rw [h.head]
        exact Nat.mod_lt _ (by decide)
      cases hfuel.symm.trans (reclaim_never_ends fuel (s.complete i) hhead hloop hdd)
    case isFalse => cases hexec

theorem fits_of_exec_none {e : Event} (h : Inv s) (hexec : exec s e = none) : Fits s e := by
  cases e with
  | tx m alloc =>
    rintro ⟨hidle, -, -⟩
    simp only [E1000.exec, hidle, false_eq_true, if_false] at hexec
    cases hexec
  | loop => trivial
  | nic i =>
    rintro ⟨hloop, hlap, honly⟩
    obtain ⟨j, hj⟩ := h.waits hloop hlap
    have hi := honly j hj
    subst hi
    simp only [E1000.exec, hj, if_true] at hexec
    cases hexec

end Steps

theorem inv_start : Inv start where
  order := ⟨Nat.le_refl 0, Nat.zero_le _⟩
  head := rfl
  tail := rfl
  inside := by
    intro i _ hin
    exact absurd hin (Nat.not_lt_zero _)
  outside := by
    intro i _ _
    have hclear : ¬ (0#8).getLsbD 0 = true := by decide
    exact ⟨rfl, rfl, iff_of_false hclear (Nat.not_lt_zero i)⟩
  range := nofun
  waits := nofun
  served := rfl

/-- **When the transmit ring works.**  For every sequence of frames and completions, in any
interleaving: in all states on the way the loop ends, the head is behind the tail, the descriptors
between them are those with a buffer and no frame was refused while everything was completed,
exactly when every step on the way meets the condition. -/
theorem transmit_ring_iff (es : List Event) :
    (∀ pre, pre <+: es → ∀ s, execList exec start pre = some s → Good s) ↔
      ∀ pre e, pre ++ [e] <+: es → ∀ s, execList exec start pre = some s → Fits s e := by
  have hstep : ∀ s e s', Inv s → exec s e = some s' → (Good s' → Fits s e) ∧ (Fits s e → Inv s') :=
    fun _ _ _ h hexec => h.exec hexec
  have hnone : ∀ s e, Inv s → exec s e = none → Fits s e :=
    fun _ _ h hexec => fits_of_exec_none h hexec
  exact execList_property_iff (fun _ h => h.good) hstep hnone inv_start es

/-- The card completes each frame at once, and the loop gives its buffer back: `n` frames. -/
def frames (n : ℕ) : List Event :=
  (List.range n).flatMap fun i => [.tx [[0]] (some 4096), .nic i, .loop, .loop]

/-- The 128th frame, completed at once like the 127 before it, leaves the driver in its loop for
ever. -/
theorem transmit_hangs :
    ∃ s, execList exec start (frames 127 ++ [.tx [[0]] (some 4096), .nic 127]) = some s ∧
      ∀ fuel, (reclaim fuel s).looping = true := by
  have hrun : ((execList exec start (frames 127 ++ [.tx [[0]] (some 4096), .nic 127])).map fun s =>
      decide (s.txHead < 128) && s.looping && (range 128).all fun i => (s.txRing i).dd) =
        some true := by
    decide +kernel
  obtain ⟨s, hs, hall⟩ := Option.map_eq_some_iff.mp hrun
  rw [and_eq_true, and_eq_true] at hall
  have hdd : ∀ i < 128, (s.txRing i).dd = true :=
    fun i hi => all_eq_true.mp hall.2 i (mem_range.mpr hi)
  exact ⟨s, hs, fun fuel =>
    reclaim_never_ends fuel s (of_decide_eq_true hall.1.1) hall.1.2 hdd⟩

end AxiomeOS.E1000
