import AxiomeOS.Paging.Hardware

/-!
# Checking a user pointer

`user_range_ok` (`kernel/syscall.c`) guards every user pointer that crosses the system-call
boundary; it rests on `mmu_check_user_range` and `range_pte` of `mmu.c`.  The check looks at one
entry a page: the one at which the walk stops.  The processor combines the rights of **all**
entries on the way, and refuses addresses at or above `2 ^ 47` that are not sign-extended.

* `mmuCheckUserRange_iff` — what the check accepts: a range whose end does not wrap, every
  byte of which has a leaf entry that allows the access;
* `userRangeOk_granted_iff` — the accepted range is one the processor grants **exactly** when
  the two things the check does not look at are as they should be: the range lies in the lower
  half, and the upper-level entries allow the access too.
-/

namespace AxiomeOS.Paging

open Bits

/-- `USERSPACE_BASE` -/
def userspaceBase : ℕ := 0x10000000000

/-- `range_pte`: the entry covering `virt`, or 0 if some level is not present. -/
def rangePte (m : Machine) (root virt : ℕ) : U64 :=
  let e := m.mem root (idx4 virt)
  if !isPresent e then 0#64
  else if isHuge e then e
  else
    let e := m.mem (frameOf e) (idx3 virt)
    if !isPresent e then 0#64
    else if isHuge e then e
    else
      let e := m.mem (frameOf e) (idx2 virt)
      if !isPresent e then 0#64
      else if isHuge e then e
      else
        let e := m.mem (frameOf e) (idx1 virt)
        if !isPresent e then 0#64 else e

/-- The `while (virt < end)` loop of `mmu_check_user_range`.  Each round moves `virt` forward,
so `end - virt` rounds are enough. -/
def checkRange (m : Machine) (root : ℕ) (write : Bool) : ℕ → ℕ → ℕ → Bool
  | 0, _, _ => true
  | fuel + 1, virt, stop =>
    if virt < stop then
      let flags := rangePte m root virt
      if !isPresent flags || !isUser flags then false
      else if write && !isWrite flags then false
      else
        let step := 4096 - virt % 4096
        let remain := stop - virt
        checkRange m root write fuel (virt + if remain < step then remain else step) stop
    else true

/-- `mmu_check_user_range` -/
def mmuCheckUserRange (m : Machine) (root virt len : ℕ) (write : Bool) : Bool :=
  let root := m.root root
  if len = 0 then true
  else if 2 ^ 64 - 1 - len < virt then false
  else checkRange m root write len virt (virt + len)

/-- The root that `user_range_ok` checks against: that of the current thread, and the kernel's
when there is no thread or it has none. -/
def currentRoot (m : Machine) (mmu : Option ℕ) : ℕ := m.root (mmu.getD 0)

/-- `user_range_ok`.  `mmu` is `sched_current()->mmu`, `none` without a current thread. -/
def userRangeOk (m : Machine) (mmu : Option ℕ) (uptr n : ℕ) (write : Bool) : Bool :=
  if n = 0 then true
  else if uptr < userspaceBase then false
  else if 2 ^ 64 - 1 - n < uptr then false
  else mmuCheckUserRange m (currentRoot m mmu) uptr n write

/-! ### What the check accepts -/

theorem allows_zero (write : Bool) : allows write 0#64 = false := by
  cases write <;> decide

theorem allows_of_not_present {e : U64} (hp : isPresent e = false) (write : Bool) :
    allows write e = false := by
  rw [allows, hp, Bool.false_and, Bool.false_and]

/-- One level of `range_pte` against one level of the walk: a missing entry is reported as 0,
which allows as little as the entry itself. -/
theorem allows_level {write : Bool} {e a b : U64} (h : allows write a = allows write b) :
    allows write (if !isPresent e then 0#64 else if isHuge e then e else a) =
      allows write (if isPresent e && !isHuge e then b else e) := by
  cases hp : isPresent e with
  | false => simp [allows_zero, allows_of_not_present hp]
  | true => cases hh : isHuge e <;> simp [h]

theorem allows_rangePte (m : Machine) (root virt : ℕ) (write : Bool) :
    allows write (rangePte m root virt) = allows write (leafEntry m root virt) := by
  rw [leafEntry, walkEntries, tableIndices, pathFrom_getLastD, pathFrom_getLastD,
    pathFrom_getLastD, pathFrom_getLastD]
  refine allows_level (allows_level (allows_level ?_))
  generalize m.mem _ (idx1 virt) = e
  cases hp : isPresent e with
  | false => simp [hp, allows_zero, allows_of_not_present hp]
  | true => simp [hp, pathFrom]

theorem leafEntry_congr {a b : ℕ} (h : a / 4096 = b / 4096) (m : Machine) (root : ℕ) :
    leafEntry m root a = leafEntry m root b := by
  rw [leafEntry, leafEntry, walkEntries, walkEntries, tableIndices_congr h]

section

variable (m : Machine) (root : ℕ)

theorem checkRange_succ (write : Bool) (fuel virt stop : ℕ) (h : virt < stop) :
    checkRange m root write (fuel + 1) virt stop = (allows write (leafEntry m root virt) &&
        checkRange m root write fuel (virt + min (stop - virt) (4096 - virt % 4096)) stop) := by
  rw [← allows_rangePte, checkRange, if_pos h, Nat.min_def]
  have hle : (if stop - virt < 4096 - virt % 4096 then stop - virt else 4096 - virt % 4096)
      = if stop - virt ≤ 4096 - virt % 4096 then stop - virt else 4096 - virt % 4096 := by
    split <;> split <;> omega
  rw [← hle]
  generalize rangePte m root virt = e
  cases hp : isPresent e <;> cases hu : isUser e <;> cases hw : isWrite e <;> cases write <;>
    simp [allows, hp, hu, hw]

/-- **The loop.**  With enough rounds it accepts exactly when the leaf entry of every byte allows
the access: all bytes of one round share their leaf entry. -/
theorem checkRange_iff (write : Bool) (stop fuel virt : ℕ) (hfuel : stop - virt ≤ fuel) :
    checkRange m root write fuel virt stop = true ↔
      ∀ a, virt ≤ a → a < stop → allows write (leafEntry m root a) = true := by
  induction fuel generalizing virt with
  | zero => exact ⟨fun _ a h1 h2 => by omega, fun _ => rfl⟩
  | succ fuel ih =>
    by_cases hlt : virt < stop
    · have hstep : 0 < min (stop - virt) (4096 - virt % 4096) := by omega
      rw [checkRange_succ m root write fuel virt stop hlt, Bool.and_eq_true, ih _ (by omega)]
      constructor
      · rintro ⟨hleaf, hrest⟩ a h1 h2
        by_cases ha : a < virt + min (stop - virt) (4096 - virt % 4096)
        · rw [leafEntry_congr (show a / 4096 = virt / 4096 by omega)]
          exact hleaf
        · exact hrest a (by omega) h2
      · intro hall
        exact ⟨hall virt (Nat.le_refl _) hlt, fun a h1 h2 => hall a (by omega) h2⟩
    · rw [checkRange, if_neg hlt]
      exact ⟨fun _ a h1 h2 => by omega, fun _ => rfl⟩

theorem mmuCheckUserRange_iff (virt len : ℕ) (write : Bool) (hlen : 0 < len) :
    mmuCheckUserRange m root virt len write = true ↔
      virt ≤ 2 ^ 64 - 1 - len ∧
        ∀ k, k < len → allows write (leafEntry m (m.root root) (virt + k)) = true := by
  rw [mmuCheckUserRange, if_neg (by omega)]
  by_cases hwrap : 2 ^ 64 - 1 - len < virt
  · rw [if_pos hwrap]
    exact ⟨nofun, fun h => by omega⟩
  · rw [if_neg hwrap, checkRange_iff m _ write _ len virt (by omega)]
    refine ⟨fun h => ⟨by omega, fun k hk => h _ (by omega) (by omega)⟩, fun h a h1 h2 => ?_⟩
    have := h.2 (a - virt) (by omega)
    rwa [show virt + (a - virt) = a by omega] at this

theorem root_root : m.root (m.root root) = m.root root := by
  by_cases h : root = 0 <;> simp [Machine.root, h]

theorem userRangeOk_iff (mmu : Option ℕ) (uptr n : ℕ) (write : Bool) (hn : 0 < n) :
    userRangeOk m mmu uptr n write = true ↔
      userspaceBase ≤ uptr ∧ uptr ≤ 2 ^ 64 - 1 - n ∧
        ∀ k, k < n → allows write (leafEntry m (currentRoot m mmu) (uptr + k)) = true := by
  rw [userRangeOk, if_neg (by omega)]
  by_cases hbase : uptr < userspaceBase
  · rw [if_pos hbase]
    exact ⟨nofun, fun h => by omega⟩
  · rw [if_neg hbase]
    by_cases hwrap : 2 ^ 64 - 1 - n < uptr
    · rw [if_pos hwrap]
      exact ⟨nofun, fun h => by omega⟩
    · rw [if_neg hwrap, mmuCheckUserRange_iff m _ _ _ _ hn, currentRoot, root_root]
      exact ⟨fun h => ⟨by omega, h⟩, fun h => h.2⟩

end

/-! ### Accepted against granted -/

/-- What `user_range_ok` leaves unchecked about the byte at `a`: that it lies in the lower half,
that the reserved bit of the top-level entry is clear, and that the entries above the leaf allow
the access. -/
def UpperGranted (m : Machine) (root a : ℕ) (write : Bool) : Prop :=
  a < 2 ^ 47 ∧ topReserved m root a = false ∧ (upperEntries m root a).all (allows write) = true

/-- The arguments are refused: the pointer is below the user window, its range wraps, or a leaf
entry denies the access. -/
def RangeRefused (m : Machine) (root uptr n : ℕ) (write : Bool) : Prop :=
  uptr < userspaceBase ∨ 2 ^ 64 ≤ uptr + n ∨
    ∃ k, k < n ∧ allows write (leafEntry m root (uptr + k)) = false

/-- **An accepted range is granted by the processor exactly when** the arguments are refused
anyway, or the range lies in the lower half and the entries above each leaf allow the access
too. -/
theorem userRangeOk_granted_iff (m : Machine) (mmu : Option ℕ) (uptr n : ℕ) (write : Bool)
    (hn : 0 < n) (hn64 : n < 2 ^ 64) : (userRangeOk m mmu uptr n write = true →
        ∀ k, k < n → uptr + k < 2 ^ 47 ∧ hwGrants m (currentRoot m mmu) (uptr + k) write = true) ↔
      RangeRefused m (currentRoot m mmu) uptr n write ∨
        ∀ k, k < n → UpperGranted m (currentRoot m mmu) (uptr + k) write := by
  rw [userRangeOk_iff m mmu uptr n write hn]
  constructor
  · intro h
    by_cases hr : RangeRefused m (currentRoot m mmu) uptr n write
    · exact .inl hr
    · refine .inr fun k hk => ?_
      simp only [RangeRefused, not_or, not_exists, not_and, Bool.not_eq_false] at hr
      obtain ⟨hbase, hwrap, hleaf⟩ := hr
      have hgrant := (h ⟨by omega, by omega, hleaf⟩ k hk).2
      obtain ⟨hlow, hres, hup, -⟩ := (hwGrants_iff _ _ _ _).mp hgrant
      exact ⟨hlow, hres, hup⟩
  · rintro (hr | hup) ⟨hbase, hwrap, hleaf⟩ k hk
    · exfalso
      rcases hr with h | h | ⟨j, hj, hdeny⟩
      · omega
      · omega
      · rw [hleaf j hj] at hdeny
        cases hdeny
    · obtain ⟨hlow, hres, hupper⟩ := hup k hk
      exact ⟨hlow, (hwGrants_iff _ _ _ _).mpr ⟨hlow, hres, hupper, hleaf k hk⟩⟩

/-- On a page of an ordinary user mapping the check agrees with the processor. -/
theorem userRangeOk_granted_one_page : 2 ^ 40 + 0 < 2 ^ 47 ∧
      hwGrants (onePage (2 ^ 40) tableFlags tableFlags)
        (currentRoot (onePage (2 ^ 40) tableFlags tableFlags) (some 1)) (2 ^ 40 + 0) true
        = true := by
  have hok : userRangeOk (onePage (2 ^ 40) tableFlags tableFlags) (some 1) (2 ^ 40) 1 true
      = true := by decide
  refine (userRangeOk_granted_iff (onePage (2 ^ 40) tableFlags tableFlags) (some 1) (2 ^ 40) 1 true
    (by decide) (by decide)).mpr (.inr fun k hk => ?_) hok 0 (by decide)
  obtain rfl : k = 0 := by omega
  unfold UpperGranted
  decide

/-- The check accepts `2 ^ 48 + 2 ^ 40` when the page at `2 ^ 40` is mapped, and it accepts a page
under a supervisor top-level entry; the processor grants neither. -/
theorem userRangeOk_accepts_ungranted :
    (userRangeOk (onePage (2 ^ 40) tableFlags tableFlags) (some 1) (2 ^ 48 + 2 ^ 40) 8 true = true ∧
        hwGrants (onePage (2 ^ 40) tableFlags tableFlags) 1 (2 ^ 48 + 2 ^ 40) true = false) ∧
      userRangeOk (onePage (2 ^ 40) x86PtePresent tableFlags) (some 1) (2 ^ 40) 8 true = true ∧
        hwGrants (onePage (2 ^ 40) x86PtePresent tableFlags) 1 (2 ^ 40) true = false := by
  decide

end AxiomeOS.Paging
