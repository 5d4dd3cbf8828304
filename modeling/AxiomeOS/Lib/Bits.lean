import Mathlib.Algebra.Group.Nat.Defs

/-!
# Flag words

A 64-bit machine word used as a set of flags, as C code does: a flag is a one-bit mask, a test is
`x & mask` read as a condition, and fields are cut out with wider masks.  Every test is reduced
to one bit (`flagSet_shift`), and an aligned address field to a quotient and a remainder
(`toNat_and_field`), where `omega` takes over.
-/

namespace AxiomeOS.Bits

/-- `uint64_t`. -/
abbrev U64 := BitVec 64

/-- `x & mask` read as a C condition. -/
def flagSet {w : ℕ} (x mask : BitVec w) : Bool := x &&& mask != 0#w

theorem flagSet_shift {w : ℕ} (x : BitVec w) (k : ℕ) (hk : k < w) :
    flagSet x (1#w <<< k) = x.getLsbD k := by
  have hpos : BitVec.twoPow w k ≠ 0#w := by
    intro h
    have hbit := congrArg (fun y => BitVec.getLsbD y k) h
    simp [hk] at hbit
  rw [flagSet, ← BitVec.twoPow_eq, BitVec.and_twoPow]
  cases hx : x.getLsbD k
  · simp
  · simpa using hpos

/-- **A field mask.**  The mask of `k` bits from position `s` on cuts out the field, in place. -/
theorem toNat_and_field {w : ℕ} (x : BitVec w) (s k : ℕ) (h : s + k ≤ w) :
    (x &&& (BitVec.ofNat w (2 ^ k - 1) <<< s)).toNat = x.toNat / 2 ^ s % 2 ^ k * 2 ^ s := by
  apply Nat.eq_of_testBit_eq
  intro i
  rw [Nat.testBit_mul_two_pow, Nat.testBit_mod_two_pow, Nat.testBit_div_two_pow,
    BitVec.testBit_toNat, BitVec.getLsbD_and, BitVec.getLsbD_shiftLeft, BitVec.getLsbD_ofNat,
    Nat.testBit_two_pow_sub_one, ← BitVec.testBit_toNat]
  by_cases hs : s ≤ i
  · rw [show i - s + s = i by omega]
    by_cases hw : i < w
    · simp [hs, hw, show ¬ i < s by omega, show i - s < w by omega, Bool.and_comm]
    · simp [hw, show ¬ i - s < k by omega]
  · simp [hs, show i < s by omega]

theorem getLsbD_ofNat_mul_low {w : ℕ} (g s k : ℕ) (hk : k < s) :
    (BitVec.ofNat w (g * 2 ^ s)).getLsbD k = false := by
  rw [BitVec.getLsbD_ofNat, Nat.testBit_mul_two_pow]
  simp [show ¬ s ≤ k by omega]

theorem getLsbD_ofNat_high {w : ℕ} (n k : ℕ) (h : n < 2 ^ k) (j : ℕ) (hj : k ≤ j) :
    (BitVec.ofNat w n).getLsbD j = false := by
  rw [BitVec.getLsbD_ofNat, Nat.testBit_lt_two_pow (Nat.lt_of_lt_of_le h
    (Nat.pow_le_pow_right (by omega) hj)), Bool.and_false]

end AxiomeOS.Bits
