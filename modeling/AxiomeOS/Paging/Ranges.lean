import AxiomeOS.Paging.Shared

/-!
# Mapping a range of pages

`sys_shm_attach`, `dri_mmap` and `fb_mmap` map the pages of a range one after the other and give up
at the first one that `mmu_map` refuses.  Below the own entries of a private address space a range
is mapped exactly if all its pages are free and the tables for them can be had (`mapPages_iff`).
-/

namespace AxiomeOS.Paging

open Bits Frames List

variable {m m' : Machine} {root virt : ℕ} {own : ℕ → Bool} {n va : ℕ}

/-- Map `n` pages from `va` on to the frames from `phys` on, until one of them is refused. -/
def mapPages (root : ℕ) (flags : MmuFlags) : ℕ → Machine → ℕ → ℕ → Machine × Bool
  | 0, m, _, _ => (m, true)
  | n + 1, m, va, phys =>
    match mmuMap m root va phys flags with
    | (m, false) => (m, false)
    | (m, true) => mapPages root flags n m (va + 4096) (phys + 4096)

/-- None of the walks of `mapPages` comes back without its tables. -/
def tableMemory (root : ℕ) (flags : MmuFlags) : ℕ → Machine → ℕ → ℕ → Bool
  | 0, _, _, _ => true
  | n + 1, m, va, phys =>
    (walkPage m root va true).2.isSome &&
      match mmuMap m root va phys flags with
      | (_, false) => true
      | (m, true) => tableMemory root flags n m (va + 4096) (phys + 4096)

/-- The pages of a range lie below own entries. -/
def OwnRange (own : ℕ → Bool) (va n : ℕ) : Prop := ∀ k < n, own (idx4 (va + 4096 * k)) = true

theorem OwnRange.tail (h : OwnRange own va (n + 1)) : OwnRange own (va + 4096) n := by
  intro k hk
  rw [show va + 4096 + 4096 * k = va + 4096 * (k + 1) by omega]
  exact h (k + 1) (by omega)

theorem OwnRange.head (h : OwnRange own va (n + 1)) : own (idx4 va) = true :=
  h 0 (Nat.succ_pos n)

/-- What mapping a range does in a private address space. -/
structure RangeMapping (own : ℕ → Bool) (m m' : Machine) (root va phys : ℕ) (flags : MmuFlags)
    (n : ℕ) (ok : Bool) : Prop where
  priv : Private own m' (m.root root)
  kernelRoot : m'.kernelRoot = m.kernelRoot
  total : m'.pmm.totalFrames = m.pmm.totalFrames
  kept : ∀ v pg, hwWalk m (m.root root) v = some pg → hwWalk m' (m.root root) v = some pg
  free : ok = true → ∀ k < n, hwWalk m (m.root root) (va + 4096 * k) = none
  mapped : ok = true → ∀ k < n, ∃ pg, hwWalk m' (m.root root) (va + 4096 * k) = some pg ∧
    pg.frame = frameOf (mapEntry m.pat (phys + 4096 * k) flags)

/-- The walk of an address depends on its page only. -/
theorem hwWalk_congr (m : Machine) (root : ℕ) {a b : ℕ} (h : pageOf a = pageOf b) :
    hwWalk m root a = hwWalk m root b := by
  have hidx := tableIndices_eq_iff.mpr h
  have htop : idx4 a = idx4 b := by
    simp only [tableIndices, cons.injEq] at hidx
    exact hidx.1
  have hlow : idx1 a = idx1 b := by
    simp only [tableIndices, cons.injEq] at hidx
    exact hidx.2.2.2.1
  have hframe : ∀ path, pathFrame a path = pathFrame b path := by
    intro path
    unfold pathFrame
    split
    · rename_i e3
      have hmid : a / 4096 % 2 ^ 18 = b / 4096 % 2 ^ 18 := by
        unfold pageOf at h
        omega
      rw [hmid]
    · rw [hlow]
    · rfl
    · rfl
  rw [hwWalk, hwWalk, walkEntries, walkEntries, topReserved, topReserved, hidx, htop]
  simp only [hframe]

theorem root_eq (root : ℕ) (h : m'.kernelRoot = m.kernelRoot) : m'.root root = m.root root := by
  rw [Machine.root, Machine.root, h]

theorem Mapping.keeps {phys : ℕ} {flags : MmuFlags} {ok : Bool}
    (h : Mapping own m m' root virt phys flags ok) {v : ℕ} {pg : HwPage}
    (hv : hwWalk m (m.root root) v = some pg) : hwWalk m' (m.root root) v = some pg := by
  cases ok with
  | false => rw [h.failed rfl, hv]
  | true =>
    rw [h.kept v, hv]
    intro hpage
    rw [hwWalk_congr m (m.root root) hpage, (h.done.mp rfl).1] at hv
    cases hv

/-- **Mapping a range.** -/
theorem Private.mapPages (hP : Private own m (m.root root)) (flags : MmuFlags)
    (hown : OwnRange own va n) (phys : ℕ) :
    RangeMapping own m (mapPages root flags n m va phys).1 root va phys flags n
      (mapPages root flags n m va phys).2 := by
  induction n generalizing m va phys with
  | zero =>
    exact ⟨hP, rfl, rfl, fun _ _ h => h, fun _ k hk => absurd hk (Nat.not_lt_zero k),
      fun _ k hk => absurd hk (Nat.not_lt_zero k)⟩
  | succ n ih =>
    have hM := hP.mmuMap hown.head phys flags
    unfold Paging.mapPages
    generalize Paging.mmuMap m root va phys flags = r at hM ⊢
    obtain ⟨m1, ok⟩ := r
    cases ok with
    | false =>
      exact ⟨hM.priv, hM.kernelRoot, hM.total, fun v pg hv => hM.keeps hv, (nofun), (nofun)⟩
    | true =>
      have hroot : m1.root root = m.root root := root_eq root hM.kernelRoot
      have hR := ih (by rw [hroot]; exact hM.priv) hown.tail (phys + 4096)
      have hshift : ∀ k, va + 4096 + 4096 * k = va + 4096 * (k + 1) := fun k => by omega
      obtain ⟨pg0, hpg0, hframe0⟩ := hM.mapped rfl
      have hkept := hR.kept
      rw [hroot] at hkept
      constructor
      case priv => rw [← hroot]; exact hR.priv
      case kernelRoot => exact hR.kernelRoot.trans hM.kernelRoot
      case total => exact hR.total.trans hM.total
      case kept => exact fun v pg hv => hkept v pg (hM.keeps hv)
      case free =>
        intro hok k hk
        cases k with
        | zero => simpa using (hM.done.mp rfl).1
        | succ k =>
          have hfree := hR.free hok k (by omega)
          rw [hroot, hshift] at hfree
          cases hv : hwWalk m (m.root root) (va + 4096 * (k + 1)) with
          | none => rfl
          | some pg =>
            rw [hM.keeps hv] at hfree
            cases hfree
      case mapped =>
        intro hok k hk
        cases k with
        | zero => exact ⟨pg0, hkept va pg0 hpg0, hframe0⟩
        | succ k =>
          have hmapped := hR.mapped hok k (by omega)
          rw [hroot, hshift, hM.pat] at hmapped
          rw [show phys + 4096 * (k + 1) = phys + 4096 + 4096 * k by omega]
          exact hmapped

theorem pageOf_range_ne {k : ℕ} (hk : 0 < k) (hlt : k < 2 ^ 36) :
    pageOf (va + 4096 * k) ≠ pageOf va := by
  unfold pageOf
  omega

/-- **A range is mapped** exactly if all of its pages are free and the tables can be had. -/
theorem Private.mapPages_iff (hP : Private own m (m.root root)) (flags : MmuFlags)
    (hown : OwnRange own va n) (hn : n ≤ 2 ^ 36) (phys : ℕ) :
    (Paging.mapPages root flags n m va phys).2 = true ↔
      (∀ k < n, hwWalk m (m.root root) (va + 4096 * k) = none) ∧
        tableMemory root flags n m va phys = true := by
  induction n generalizing m va phys with
  | zero => exact ⟨fun _ => ⟨fun k hk => absurd hk (Nat.not_lt_zero k), rfl⟩, fun _ => rfl⟩
  | succ n ih =>
    have hM := hP.mmuMap hown.head phys flags
    have hwhole := hP.mapPages flags hown phys
    unfold Paging.mapPages at hwhole ⊢
    unfold tableMemory
    generalize Paging.mmuMap m root va phys flags = r at hM hwhole ⊢
    obtain ⟨m1, ok⟩ := r
    cases ok with
    | false =>
      refine ⟨(nofun), ?_⟩
      rintro ⟨hfree, hmem⟩
      rw [Bool.and_true] at hmem
      exact hM.done.mpr ⟨by simpa using hfree 0 (Nat.succ_pos n), hmem⟩
    | true =>
      have hroot : m1.root root = m.root root := root_eq root hM.kernelRoot
      have hshift : ∀ k, va + 4096 + 4096 * k = va + 4096 * (k + 1) := fun k => by omega
      have hrest := ih (by rw [hroot]; exact hM.priv) hown.tail (by omega) (phys + 4096)
      rw [(hM.done.mp rfl).2, Bool.true_and]
      refine ⟨fun hdone => ⟨hwhole.free hdone, (hrest.mp hdone).2⟩, ?_⟩
      rintro ⟨hfree, hmem⟩
      refine hrest.mpr ⟨fun k hk => ?_, hmem⟩
      rw [hroot, hshift, hM.kept _ (pageOf_range_ne (Nat.succ_pos k) (by omega))]
      exact hfree (k + 1) (by omega)

/-- **A range that is given up** leaves the address space as it was exactly if its first page was
refused. -/
theorem Private.mapPages_unchanged_iff (hP : Private own m (m.root root)) (flags : MmuFlags)
    (hown : OwnRange own va (n + 1)) (phys : ℕ) :
    (∀ v, hwWalk (Paging.mapPages root flags (n + 1) m va phys).1 (m.root root) v =
        hwWalk m (m.root root) v) ↔
      (Paging.mmuMap m root va phys flags).2 = false := by
  have hM := hP.mmuMap hown.head phys flags
  unfold Paging.mapPages
  generalize Paging.mmuMap m root va phys flags = r at hM ⊢
  obtain ⟨m1, ok⟩ := r
  cases ok with
  | false => exact ⟨fun _ => rfl, fun _ => hM.failed rfl⟩
  | true =>
    refine ⟨fun hsame => ?_, (nofun)⟩
    have hroot : m1.root root = m.root root := root_eq root hM.kernelRoot
    have hP1 : Private own m1 (m1.root root) := by
      rw [hroot]
      exact hM.priv
    obtain ⟨pg, hpg, -⟩ := hM.mapped rfl
    have hkept := (hP1.mapPages flags hown.tail (phys + 4096)).kept va pg
    rw [hroot] at hkept
    have hva := hsame va
    rw [hkept hpg, (hM.done.mp rfl).1] at hva
    cases hva

theorem tableMemory_of_refused {flags : MmuFlags} {phys : ℕ}
    (h : (mmuMap m root va phys flags).2 = false) :
    tableMemory root flags (n + 1) m va phys = (walkPage m root va true).2.isSome := by
  unfold tableMemory
  generalize mmuMap m root va phys flags = r at h ⊢
  obtain ⟨m1, ok⟩ := r
  cases h
  exact Bool.and_true _

end AxiomeOS.Paging
