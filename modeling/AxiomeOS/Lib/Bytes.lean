import Mathlib.Algebra.Group.Nat.Defs

/-!
# Little-endian fields in byte buffers

A buffer is a function from offsets to bytes.  C structures laid over raw memory are read and
written field by field; a field is an offset and a width in bytes.  Reading back a field that was
written gives the value (`getLe_setLe`), and fields that do not overlap do not see each other
(`getLe_setLe_of_disjoint`).

Over this: `Field`, a named offset and width, with the same two laws (`Field.get_put`,
`Field.get_put_of_disjoint`); `blit`, the copy of a range of bytes; footprints, the bytes that an
operation may change (`Confined`); and bitmaps, in which setting one bit changes that bit only
(`getBit_setBit`).
-/

namespace AxiomeOS.Bytes

/-- A byte buffer; only the offsets of the structure it holds are looked at. -/
abbrev Buffer := ℕ → UInt8

/-- The unsigned number in the `n` bytes from `off` on. -/
def getLe (b : Buffer) (off : ℕ) : ℕ → ℕ
  | 0 => 0
  | n + 1 => getLe b off n + (b (off + n)).toNat * 256 ^ n

/-- Store `v` in the `n` bytes from `off` on. -/
def setLe (b : Buffer) (off n v : ℕ) : Buffer := fun j =>
  if off ≤ j ∧ j < off + n then UInt8.ofNat (v / 256 ^ (j - off)) else b j

theorem getLe_lt (b : Buffer) (off n : ℕ) : getLe b off n < 256 ^ n := by
  induction n with
  | zero => exact Nat.one_pos
  | succ n ih =>
    have hbyte : (b (off + n)).toNat + 1 ≤ 256 := (b (off + n)).toNat_lt
    calc getLe b off n + (b (off + n)).toNat * 256 ^ n
        < 256 ^ n + (b (off + n)).toNat * 256 ^ n := Nat.add_lt_add_right ih _
      _ = ((b (off + n)).toNat + 1) * 256 ^ n := by rw [Nat.add_mul, Nat.one_mul, Nat.add_comm]
      _ ≤ 256 * 256 ^ n := Nat.mul_le_mul_right _ hbyte
      _ = 256 ^ (n + 1) := by rw [Nat.pow_succ, Nat.mul_comm]

variable {b b' : Buffer} {j : ℕ} {S : ℕ → Prop}

theorem getLe_congr {off n : ℕ} (h : ∀ j, j < n → b (off + j) = b' (off + j)) :
    getLe b off n = getLe b' off n := by
  induction n with
  | zero => rfl
  | succ n ih => rw [getLe, getLe, ih fun j hj => h j (by omega), h n (by omega)]

section

variable (b : Buffer) (off : ℕ)

theorem setLe_of_lt (n v : ℕ) (h : j < off ∨ off + n ≤ j) : setLe b off n v j = b j :=
  if_neg (by omega)

theorem setLe_at (n v : ℕ) (h : j < n) : setLe b off n v (off + j) = UInt8.ofNat (v / 256 ^ j) := by
  rw [setLe, if_pos (by omega), show off + j - off = j by omega]

theorem getLe_setLe_mod (v w n : ℕ) (hw : n ≤ w) :
    getLe (setLe b off w v) off n = v % 256 ^ n := by
  induction n with
  | zero => rw [getLe, Nat.pow_zero, Nat.mod_one]
  | succ n ih =>
    have hsucc : v % 256 ^ (n + 1) = v % 256 ^ n + 256 ^ n * (v / 256 ^ n % 256) := Nat.mod_pow_succ
    rw [getLe, ih (by omega), setLe_at b off w v (by omega), UInt8.toNat_ofNat', hsucc,
      Nat.mul_comm (256 ^ n)]

/-- **A stored field is read back.** -/
theorem getLe_setLe (n v : ℕ) (h : v < 256 ^ n) : getLe (setLe b off n v) off n = v := by
  rw [getLe_setLe_mod b off v n n (Nat.le_refl n), Nat.mod_eq_of_lt h]

/-- The bytes of a field are the digits of its value. -/
theorem getLe_digit (n : ℕ) (hj : j < n) : getLe b off n / 256 ^ j % 256 = (b (off + j)).toNat := by
  induction n with
  | zero => omega
  | succ n ih =>
    rw [getLe]
    by_cases hlast : j = n
    · subst hlast
      rw [Nat.add_mul_div_right _ _ (Nat.pow_pos (by omega)), Nat.div_eq_of_lt (getLe_lt b off j),
        Nat.zero_add, Nat.mod_eq_of_lt (b (off + j)).toNat_lt]
    · have hpow : 256 ^ n = 256 ^ (n - j - 1) * 256 * 256 ^ j := by
        rw [← Nat.pow_succ, ← Nat.pow_add]
        congr 1
        omega
      rw [hpow, ← Nat.mul_assoc, Nat.add_mul_div_right _ _ (Nat.pow_pos (by omega)),
        ← Nat.mul_assoc, Nat.add_mul_mod_self_right]
      exact ih (by omega)

theorem setLe_getLe (n : ℕ) : setLe b off n (getLe b off n) = b := by
  funext j
  by_cases h : off ≤ j ∧ j < off + n
  · obtain ⟨k, rfl⟩ := Nat.exists_eq_add_of_le h.1
    have hk : k < n := by omega
    rw [setLe_at b off n _ hk]
    apply UInt8.toNat_inj.mp
    rw [UInt8.toNat_ofNat', getLe_digit b off n hk]
  · exact if_neg h

/-- **Disjoint fields do not see each other.** -/
theorem getLe_setLe_of_disjoint (n v off' n' : ℕ) (h : off' + n' ≤ off ∨ off + n ≤ off') :
    getLe (setLe b off n v) off' n' = getLe b off' n' :=
  getLe_congr fun j hj => setLe_of_lt b off n v (by omega)

end

/-! ### Named fields -/

/-- A field of a packed structure: where it starts and how many bytes it takes. -/
structure Field where
  off : ℕ
  width : ℕ
  deriving DecidableEq

/-- The value of the field `f` in the structure `b`. -/
def Field.get (f : Field) (b : Buffer) : ℕ := getLe b f.off f.width

/-- The structure `b` with `v` stored in its field `f`, cut to the field's width. -/
def Field.put (f : Field) (v : ℕ) (b : Buffer) : Buffer := setLe b f.off f.width v

/-- Two fields share no byte. -/
def Field.Disjoint (f g : Field) : Prop := f.off + f.width ≤ g.off ∨ g.off + g.width ≤ f.off

instance (f g : Field) : Decidable (f.Disjoint g) :=
  inferInstanceAs (Decidable (f.off + f.width ≤ g.off ∨ g.off + g.width ≤ f.off))

section

variable (f : Field) (v : ℕ)

theorem Field.get_put_mod (b : Buffer) : f.get (f.put v b) = v % 256 ^ f.width :=
  getLe_setLe_mod b f.off v f.width f.width (Nat.le_refl _)

theorem Field.get_put {v : ℕ} (b : Buffer) (h : v < 256 ^ f.width) : f.get (f.put v b) = v :=
  getLe_setLe b f.off f.width v h

theorem Field.put_get (b : Buffer) : f.put (f.get b) b = b :=
  setLe_getLe b f.off f.width

theorem Field.get_lt (b : Buffer) : f.get b < 256 ^ f.width :=
  getLe_lt b f.off f.width

theorem Field.get_put_of_disjoint {f g : Field} (b : Buffer) (h : f.Disjoint g) :
    g.get (f.put v b) = g.get b := by
  apply getLe_setLe_of_disjoint
  rcases h with h | h
  · exact .inr h
  · exact .inl h

theorem Field.put_apply_of_outside (b : Buffer) (h : j < f.off ∨ f.off + f.width ≤ j) :
    f.put v b j = b j :=
  setLe_of_lt b f.off f.width v h

theorem Field.get_congr (h : ∀ j, f.off ≤ j → j < f.off + f.width → b j = b' j) :
    f.get b = f.get b' :=
  getLe_congr fun j hj => h (f.off + j) (by omega) (by omega)

end

/-! ### Copying bytes -/

/-- `b` with the `n` bytes from `off` on replaced by the first `n` bytes of `src`. -/
def blit (b : Buffer) (off : ℕ) (src : ℕ → UInt8) (n : ℕ) : Buffer := fun j =>
  if off ≤ j ∧ j < off + n then src (j - off) else b j

theorem blit_apply_of_outside (b : Buffer) (off : ℕ) (src : ℕ → UInt8) (n : ℕ)
    (h : j < off ∨ off + n ≤ j) : blit b off src n j = b j := if_neg (by omega)

theorem blit_apply_of_inside (b : Buffer) (off : ℕ) (src : ℕ → UInt8) (n : ℕ)
    (h : off ≤ j) (h' : j < off + n) : blit b off src n j = src (j - off) := if_pos ⟨h, h'⟩

theorem Field.get_blit_of_disjoint (f : Field) (b : Buffer) (off : ℕ) (src : ℕ → UInt8) (n : ℕ)
    (h : f.off + f.width ≤ off ∨ off + n ≤ f.off) : f.get (blit b off src n) = f.get b :=
  f.get_congr fun j _ _ => blit_apply_of_outside b off src n (by omega)

/-! ### Footprints -/

/-- The operation changes only bytes in `S`. -/
def Confined (S : ℕ → Prop) (f : Buffer → Buffer) : Prop := ∀ b j, ¬ S j → f b j = b j

theorem Confined.mono {S' : ℕ → Prop} {f : Buffer → Buffer} (h : Confined S f)
    (hS : ∀ j, S j → S' j) : Confined S' f :=
  fun b j hj => h b j fun hin => hj (hS j hin)

theorem Confined.foldl {β : Type*} {f : β → Buffer → Buffer} {xs : List β}
    (h : ∀ x ∈ xs, Confined S (f x)) : Confined S fun b => xs.foldl (fun b x => f x b) b := by
  induction xs with
  | nil => exact fun _ _ _ => rfl
  | cons x xs ih =>
    intro b j hj
    have hrest := ih fun y hy => h y (List.mem_cons_of_mem x hy)
    exact (hrest (f x b) j hj).trans (h x List.mem_cons_self b j hj)

theorem confined_setLe (off n v : ℕ) :
    Confined (fun j => off ≤ j ∧ j < off + n) fun b => setLe b off n v :=
  fun b _ hj => setLe_of_lt b off n v (by omega)

/-! ### Bitmaps -/

/-- Bit `i` of a bitmap, eight to a byte, lowest first. -/
def getBit (b : Buffer) (i : ℕ) : Bool := (b (i / 8)).toBitVec.getLsbD (i % 8)

def setBit (b : Buffer) (i : ℕ) : Buffer := fun j =>
  if j = i / 8 then UInt8.ofBitVec ((b j).toBitVec ||| BitVec.twoPow 8 (i % 8)) else b j

/-- **Setting a bit** changes that bit only. -/
theorem getBit_setBit (b : Buffer) (i k : ℕ) :
    getBit (setBit b i) k = (getBit b k || decide (k = i)) := by
  unfold getBit setBit
  by_cases hbyte : k / 8 = i / 8
  · have hbit : (i % 8 = k % 8) ↔ k = i := by omega
    have hlt : i % 8 < 8 := Nat.mod_lt i (by omega)
    rw [if_pos hbyte, BitVec.getLsbD_or, BitVec.getLsbD_twoPow]
    simp only [hbit, hlt, decide_true, Bool.true_and]
  · have hne : k ≠ i := fun h => hbyte (by rw [h])
    rw [if_neg hbyte, decide_eq_false hne, Bool.or_false]

end AxiomeOS.Bytes
