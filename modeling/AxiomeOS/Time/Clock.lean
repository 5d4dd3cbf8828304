import AxiomeOS.Lib.Bits
import AxiomeOS.Sched.Switch
import Mathlib.Logic.Function.Iterate

/-!
# The monotonic clock, the wall clock and sleep deadlines

`timer_ticks` counts timer interrupts, one a millisecond after calibration.  The clock turns the
ticks since `clock_init` into nanoseconds with one 64-bit multiplication by the fixed-point ratio
`10⁶ · 2²⁰` and a shift by 20.  The product keeps 64 bits, so the result keeps 44
(`toNat_clockMonoNs`): after `2⁴⁴ / 10⁶` ticks, a little under five hours, the clock starts again
from zero.  `clock_forward_iff` says exactly for which uptimes, boot times and sleep lengths the
clocks and the deadlines made from them go forward; `deadline_never_passes` says what becomes of a
deadline beyond the point at which the clock starts again.
-/

namespace AxiomeOS.Time

open Bits BitVec

/-- The variables of `apic.c` and `clock.c` that the clock reads. -/
structure Clock where
  /-- Timer interrupts since `apic_init`. -/
  timerTicks : U64
  /-- Nanoseconds in a tick, times `2²⁰`; zero until the calibration. -/
  nsPerTickScaled : U64
  /-- The tick count at `clock_init`. -/
  bootTick : U64
  /-- The wall-clock epoch at `clock_init`. -/
  bootUnixSec : U64
  deriving DecidableEq, Repr

def apicTimerTick (c : Clock) : Clock := { c with timerTicks := c.timerTicks + 1 }

def apicCalibratePostIrq (c : Clock) : Clock := { c with nsPerTickScaled := 1000000#64 <<< 20 }

def apicGetTicks (c : Clock) : U64 := c.timerTicks

def apicTicksToNs (c : Clock) (ticks : U64) : U64 := (ticks * c.nsPerTickScaled) >>> 20

/-- The offset is an `int64_t`; as a word it is added like any other. -/
def clockInit (c : Clock) (bootUnix tzOffsetSec : U64) : Clock :=
  { c with bootUnixSec := bootUnix + tzOffsetSec, bootTick := apicGetTicks c }

def clockMonoNs (c : Clock) : U64 := apicTicksToNs c (apicGetTicks c - c.bootTick)

def clockWallSec (c : Clock) : U64 := c.bootUnixSec + clockMonoNs c / 1000000000

/-- Seconds and nanoseconds. -/
def clockWallNs (c : Clock) : U64 × U64 :=
  (c.bootUnixSec + clockMonoNs c / 1000000000, clockMonoNs c % 1000000000)

/-- The deadline `sched_sleep_ns` stores; a sleep of zero returns at once and stores none. -/
def schedSleepNs (c : Clock) (ns : U64) : Option U64 :=
  if ns = 0 then none else some (clockMonoNs c + ns)

/-- The test of `sched_tick` that ends a sleep. -/
def deadlinePassed (c : Clock) (deadline : U64) : Bool :=
  deadline != 0 && decide (deadline ≤ clockMonoNs c)

/-- The clock after `n` more timer interrupts. -/
def after (c : Clock) (n : ℕ) : Clock := apicTimerTick^[n] c

/-- A calibrated clock at the moment it is initialised. -/
def started (c : Clock) (bootUnix tzOffsetSec : U64) : Clock :=
  clockInit (apicCalibratePostIrq c) bootUnix tzOffsetSec

/-! ### What the clock shows after `n` ticks -/

theorem after_eq (c : Clock) (n : ℕ) :
    after c n = { c with timerTicks := c.timerTicks + BitVec.ofNat 64 n } := by
  induction n with
  | zero => rw [after, Function.iterate_zero, id, BitVec.add_zero]
  | succ n ih =>
    rw [after] at ih ⊢
    rw [Function.iterate_succ_apply', ih, apicTimerTick]
    congr 1
    rw [BitVec.add_assoc, BitVec.ofNat_add]
    rfl

/-- **The clock keeps 44 bits.**  After `n` ticks it shows `n` milliseconds modulo `2⁴⁴` ns. -/
theorem toNat_clockMonoNs (c : Clock) (bootUnix tz : U64) (n : ℕ) :
    (clockMonoNs (after (started c bootUnix tz) n)).toNat = n * 1000000 % 2 ^ 44 := by
  have helapsed : c.timerTicks + BitVec.ofNat 64 n - c.timerTicks = BitVec.ofNat 64 n := by
    rw [BitVec.add_comm, BitVec.add_sub_cancel]
  rw [after_eq]
  show (((c.timerTicks + BitVec.ofNat 64 n - c.timerTicks) * (1000000#64 <<< 20)) >>> 20).toNat = _
  rw [helapsed, BitVec.toNat_ushiftRight, BitVec.toNat_mul, BitVec.toNat_ofNat,
    Nat.shiftRight_eq_div_pow]
  show n % 2 ^ 64 * 1048576000000 % 2 ^ 64 / 2 ^ 20 = _
  omega

theorem clockWallNs_after (c : Clock) (bootUnix tz : U64) (n : ℕ) :
    (clockWallNs (after (started c bootUnix tz) n)).1.toNat =
        ((bootUnix + tz).toNat + n * 1000000 % 2 ^ 44 / 1000000000) % 2 ^ 64 ∧
      (clockWallNs (after (started c bootUnix tz) n)).2.toNat =
        n * 1000000 % 2 ^ 44 % 1000000000 := by
  have hmono := toNat_clockMonoNs c bootUnix tz n
  have hboot : (after (started c bootUnix tz) n).bootUnixSec = bootUnix + tz := by
    rw [after_eq]
    rfl
  refine ⟨?_, ?_⟩
  · rw [clockWallNs, hboot, toNat_add, toNat_udiv, hmono]
    rfl
  · rw [clockWallNs, toNat_umod, hmono]
    rfl

/-! ### When the clocks go forward -/

/-- Between the `a`-th and the `b`-th tick after the start nothing goes backwards, and the clock
shows `b` milliseconds: the monotonic clock, both forms of the wall clock (seconds and
nanoseconds compared as a pair), and the deadline of a sleep of `ns`. -/
structure Forward (start : Clock) (ns : U64) (a b : ℕ) : Prop where
  mono : clockMonoNs (after start a) ≤ clockMonoNs (after start b)
  shown : (clockMonoNs (after start b)).toNat = b * 1000000
  wallSec : clockWallSec (after start a) ≤ clockWallSec (after start b)
  wallNs : clockWallSec (after start a) = clockWallSec (after start b) →
    (clockWallNs (after start a)).2 ≤ (clockWallNs (after start b)).2
  deadline : ∀ d ∈ schedSleepNs (after start a) ns, ∀ e ∈ schedSleepNs (after start b) ns, d ≤ e

/-- The multiplication of the clock keeps its product. -/
def Fits (b : ℕ) : Prop := b * 1000000 < 2 ^ 44

/-- A sum that advances from `x + base` to `y + base` does not pass the end of the word. -/
def Together (base : U64) (x y : ℕ) : Prop :=
  base.toNat + y < 2 ^ 64 ∨ 2 ^ 64 ≤ base.toNat + x

instance (b : ℕ) : Decidable (Fits b) := inferInstanceAs (Decidable (_ < _))

instance (base : U64) (x y : ℕ) : Decidable (Together base x y) :=
  inferInstanceAs (Decidable (_ ∨ _))

theorem mod_le_mod_iff (base : U64) (x y : ℕ) (hxy : x ≤ y) (hy : y < 2 ^ 64) :
    (base.toNat + x) % 2 ^ 64 ≤ (base.toNat + y) % 2 ^ 64 ↔ Together base x y := by
  unfold Together
  omega

theorem Fits.le {a b : ℕ} (hb : Fits b) (hab : a ≤ b) : Fits a :=
  Nat.lt_of_le_of_lt (Nat.mul_le_mul_right _ hab) hb

theorem Fits.clockMonoNs {n : ℕ} (h : Fits n) (c : Clock) (bootUnix tz : U64) :
    (clockMonoNs (after (started c bootUnix tz) n)).toNat = n * 1000000 := by
  rw [toNat_clockMonoNs, Nat.mod_eq_of_lt h]

theorem Fits.clockWallNs {n : ℕ} (h : Fits n) (c : Clock) (bootUnix tz : U64) :
    (clockWallNs (after (started c bootUnix tz) n)).1.toNat =
        ((bootUnix + tz).toNat + n / 1000) % 2 ^ 64 ∧
      (clockWallNs (after (started c bootUnix tz) n)).2.toNat = n % 1000 * 1000000 := by
  obtain ⟨hsec, hns⟩ := clockWallNs_after c bootUnix tz n
  rw [Nat.mod_eq_of_lt h] at hsec hns
  rw [hsec, hns, show n * 1000000 / 1000000000 = n / 1000 by omega]
  exact ⟨rfl, by omega⟩

theorem Fits.quotient_lt {n : ℕ} (h : Fits n) : n / 1000 < 2 ^ 64 := by
  unfold Fits at h
  omega

theorem wallSec_le_iff (c : Clock) (bootUnix tz : U64) (a b : ℕ) (hab : a ≤ b) (hb : Fits b) :
    clockWallSec (after (started c bootUnix tz) a) ≤
        clockWallSec (after (started c bootUnix tz) b) ↔
      Together (bootUnix + tz) (a / 1000) (b / 1000) := by
  rw [← mod_le_mod_iff _ _ _ (Nat.div_le_div_right hab) hb.quotient_lt,
    ← ((hb.le hab).clockWallNs c bootUnix tz).1, ← (hb.clockWallNs c bootUnix tz).1]
  exact le_def

theorem deadline_le_iff (c : Clock) (bootUnix tz ns : U64) (a b : ℕ) (hab : a ≤ b) (hb : Fits b) :
    (∀ d ∈ schedSleepNs (after (started c bootUnix tz) a) ns,
        ∀ e ∈ schedSleepNs (after (started c bootUnix tz) b) ns, d ≤ e) ↔
      Together ns (a * 1000000) (b * 1000000) := by
  have hsum : ∀ n : ℕ, Fits n → (clockMonoNs (after (started c bootUnix tz) n) + ns).toNat =
      (ns.toNat + n * 1000000) % 2 ^ 64 := by
    intro n hn
    rw [toNat_add, hn.clockMonoNs, Nat.add_comm]
  have hmul : a * 1000000 ≤ b * 1000000 := Nat.mul_le_mul_right _ hab
  have hword : b * 1000000 < 2 ^ 64 := Nat.lt_trans hb (by decide)
  rw [← mod_le_mod_iff ns _ _ hmul hword, ← hsum a (hb.le hab), ← hsum b hb, ← le_def]
  by_cases hns : ns = 0#64
  · -- no deadline is stored, and the sums are the clock itself
    have hnone : ∀ c : Clock, schedSleepNs c ns = none := fun c => if_pos hns
    have hle : clockMonoNs (after (started c bootUnix tz) a) + ns ≤
        clockMonoNs (after (started c bootUnix tz) b) + ns := by
      rw [hns, BitVec.add_zero, BitVec.add_zero, BitVec.le_def, (hb.le hab).clockMonoNs,
        hb.clockMonoNs]
      exact hmul
    rw [hnone]
    exact ⟨fun _ => hle, fun _ d hd => nomatch hd⟩
  · have hsome : ∀ c : Clock, schedSleepNs c ns = some (clockMonoNs c + ns) := fun c => if_neg hns
    rw [hsome, hsome]
    exact ⟨fun h => h _ rfl _ rfl, fun h d hd e he => by cases hd; cases he; exact h⟩

/-- **When the clocks go forward.**  For an initialised and calibrated clock, any boot time, any
sleep length and any two tick counts: the monotonic clock shows `b` milliseconds and
neither it, nor the wall clock, nor the sleep deadline goes backwards from tick `a` to tick `b`
exactly when `b` milliseconds fit in the 44 bits the clock keeps and neither sum made from the
clock passes the end of its word in between. -/
theorem clock_forward_iff (c : Clock) (bootUnix tz ns : U64) (a b : ℕ) (hab : a ≤ b) :
    Forward (started c bootUnix tz) ns a b ↔
      Fits b ∧ Together (bootUnix + tz) (a / 1000) (b / 1000) ∧
        Together ns (a * 1000000) (b * 1000000) := by
  constructor
  · intro h
    have hfits : Fits b := by
      rw [Fits, ← h.shown, toNat_clockMonoNs]
      exact Nat.mod_lt _ (by decide)
    exact ⟨hfits, (wallSec_le_iff c bootUnix tz a b hab hfits).mp h.wallSec,
      (deadline_le_iff c bootUnix tz ns a b hab hfits).mp h.deadline⟩
  · rintro ⟨hfits, hwall, hdeadline⟩
    refine ⟨?_, hfits.clockMonoNs c bootUnix tz,
      (wallSec_le_iff c bootUnix tz a b hab hfits).mpr hwall, ?_,
      (deadline_le_iff c bootUnix tz ns a b hab hfits).mpr hdeadline⟩
    · rw [le_def, (hfits.le hab).clockMonoNs, hfits.clockMonoNs]
      exact Nat.mul_le_mul_right _ hab
    · -- the same second on both sides: the milliseconds within it decide
      intro hsec
      obtain ⟨hsecA, hnsA⟩ := (hfits.le hab).clockWallNs c bootUnix tz
      obtain ⟨hsecB, hnsB⟩ := hfits.clockWallNs c bootUnix tz
      have hseconds : ((bootUnix + tz).toNat + a / 1000) % 2 ^ 64 =
          ((bootUnix + tz).toNat + b / 1000) % 2 ^ 64 := by
        rw [← hsecA, ← hsecB]
        exact congrArg BitVec.toNat hsec
      have hlt := hfits.quotient_lt
      rw [le_def, hnsA, hnsB]
      omega

/-- After 17 592 187 milliseconds the clock shows less than it did a millisecond before. -/
theorem clock_backwards : clockMonoNs (after (started ⟨0, 0, 0, 0⟩ 0 0) 17592187) <
      clockMonoNs (after (started ⟨0, 0, 0, 0⟩ 0 0) 17592186) := by
  rw [lt_def, toNat_clockMonoNs, toNat_clockMonoNs]
  decide

theorem clock_forward_iff_hour : Forward (started ⟨0, 0, 0, 0⟩ 1700000000 7200) 5000000 0 3600000 :=
  (clock_forward_iff ⟨0, 0, 0, 0⟩ 1700000000 7200 5000000 0 3600000 (by decide)).mpr
    ⟨by decide, by decide, by decide⟩

/-- **A deadline beyond the 44 bits never passes.**  A thread that sleeps up to such a deadline is
not woken by any later tick. -/
theorem deadline_never_passes (c : Clock) (bootUnix tz d : U64) (hd : 2 ^ 44 ≤ d.toNat) (n : ℕ) :
    deadlinePassed (after (started c bootUnix tz) n) d = false := by
  have hlt : (clockMonoNs (after (started c bootUnix tz) n)).toNat < 2 ^ 44 := by
    rw [toNat_clockMonoNs]
    exact Nat.mod_lt _ (by decide)
  have hnot : ¬ d ≤ clockMonoNs (after (started c bootUnix tz) n) := by
    rw [le_def]
    omega
  rw [deadlinePassed, decide_eq_false hnot, Bool.and_false]

theorem deadline_never_passes_max :
    deadlinePassed (after (started ⟨0, 0, 0, 0⟩ 0 0) 5) 0x100000000000 = false :=
  deadline_never_passes _ 0 0 _ (by decide) 5

/-- `sched_tick` of the scheduler leaves a sleeper alone until the test says that its deadline has
passed. -/
theorem schedTick_keeps_sleeper {s : Sched.State} {t : Sched.ThreadPtr} {c : Clock} {d : U64}
    (h : Sched.Inv s) (ht : t ≠ s.current) (hd : (s.heap t).sleepDeadlineNs = d.toNat)
    (hpassed : deadlinePassed c d = false) :
    ∃ s', Sched.schedTick s (clockMonoNs c).toNat = some s' ∧ s'.heap t = s.heap t := by
  have hexpire : (s.heap t).expire (clockMonoNs c).toNat = s.heap t := by
    refine if_neg fun hall => ?_
    rw [hd] at hall
    have hne : d ≠ 0#64 := fun heq => hall.2.1 (by rw [heq]; rfl)
    rw [deadlinePassed, decide_eq_true (le_def.mpr hall.2.2), Bool.and_true] at hpassed
    exact hne (by simpa using hpassed)
  refine ⟨_, h.schedTick_eq _, ?_⟩
  dsimp only
  rw [Sched.State.set_heap_of_ne _ _ ht, hexpire, ite_self]

end AxiomeOS.Time
