import AxiomeOS.Pmm
import AxiomeOS.Lib.Runs

/-!
# Setting up the frame allocator

`pmm_init` fills the bitmap from the boot memory map: everything is used, then the frames inside
usable entries are freed, then the kernel image with the bitmap behind it, frame 0 and the
reserved 2 MiB regions are marked used again.

`mark_free` and `mark_used` both round *inward*: they touch the frames that lie wholly in their
range.  For usable memory that is right.  For the kernel image it leaves out the frame that holds
the last, partial page of the bitmap (`pmmInit_used`).  So the frames the allocator hands out are
safe, in every run, exactly when that page does not exist or is not free for another reason
(`pmm_returns_safe_iff`).
-/

namespace AxiomeOS.Frames

open Bits Runs Function List

variable {m : MemoryMap} {f : ℕ}

/-- `struct mmap_entry`. -/
structure MmapEntry where
  base : ℕ
  length : ℕ
  type : ℕ
  deriving DecidableEq

/-- The boot memory map.  Physical addresses have at most 52 bits. -/
structure MemoryMap where
  entries : List MmapEntry
  bounded : ∀ e ∈ entries, e.base + e.length ≤ 2 ^ 52

/-- The end of the kernel image as a physical address: `_bss_end` lies in the top 2 GiB of the
address space, where the kernel is linked. -/
structure KernelImage where
  bssEnd : ℕ
  bounded : bssEnd < 2 ^ 31

/-- `mmap_max_addr`, as `axboot_parse` computes it: the largest end of a usable entry. -/
def mmapMaxAddr (m : MemoryMap) : ℕ :=
  m.entries.foldl (fun top e => if e.type = 1 ∧ top < e.base + e.length then e.base + e.length
    else top) 0

/-- `addr_in_reserved_region`. -/
def addrInReservedRegion (m : MemoryMap) (addr : ℕ) : Bool :=
  m.entries.any fun e => decide (e.type ≠ 1 ∧ e.base ≤ addr ∧ addr < e.base + e.length)

/-- The body of the loops of `mark_used` and `mark_free`. -/
def markFrame (p : Pmm) (b : Bool) (i : ℕ) : Pmm :=
  if p.used i = b then p
  else
    { p with
      used := update p.used i b
      freeFrames := if b then p.freeFrames - 1 else p.freeFrames + 1 }

/-- The loop itself, over the `n` frames from `start` on. -/
def markFrames (p : Pmm) (b : Bool) (start : ℕ) : ℕ → Pmm
  | 0 => p
  | n + 1 => markFrame (markFrames p b start n) b (start + n)

/-- Both functions round the base up and the end down to a page. -/
def markRange (p : Pmm) (b : Bool) (base length : ℕ) : Pmm :=
  let start := (base + 4095) / 4096
  markFrames p b start ((base + length) % 2 ^ 64 / 4096 - start)

/-- `mark_used` -/
def markUsed (p : Pmm) (base length : ℕ) : Pmm := markRange p true base length

/-- `mark_free` -/
def markFree (p : Pmm) (base length : ℕ) : Pmm := markRange p false base length

/-- The page-aligned physical address of the bitmap. -/
def bitmapPhys (img : KernelImage) : ℕ := (img.bssEnd + 4095) / 4096 * 4096

def totalFrames (m : MemoryMap) : ℕ := (mmapMaxAddr m + 4095) / 4096

def bitmapBytes (m : MemoryMap) : ℕ := (totalFrames m + 7) / 8

/-- `kernel_end`: the first byte after the bitmap. -/
def kernelEnd (m : MemoryMap) (img : KernelImage) : ℕ := bitmapPhys img + bitmapBytes m

def kernelStart : ℕ := 0x200000

theorem mmapMaxAddr_le (m : MemoryMap) : mmapMaxAddr m ≤ 2 ^ 52 := by
  refine foldlRecOn (motive := (· ≤ 2 ^ 52)) m.entries _ (Nat.zero_le _) fun top htop e he => ?_
  split
  · exact m.bounded e he
  · exact htop

/-- `bitmap` all ones, before anything is freed. -/
def allUsed (m : MemoryMap) : Pmm where
  totalFrames := totalFrames m
  used := fun _ => true
  freeFrames := 0
  nextHint := 0
  bounded := by
    have h := mmapMaxAddr_le m
    rw [totalFrames]
    omega

/-- Free the usable entries. -/
def freeUsable (m : MemoryMap) : Pmm :=
  m.entries.foldl (fun p e => if e.type = 1 then markFree p e.base e.length else p) (allUsed m)

/-- `bm_set(0); free_frames--`. -/
def reserveZero (p : Pmm) : Pmm :=
  { p with used := update p.used 0 true, freeFrames := p.freeFrames - 1 }

/-- The number of 2 MiB regions from 8 MiB on that start below `mmap_max_addr`. -/
def regions (m : MemoryMap) : ℕ := (mmapMaxAddr m - 0x800000 + 0x1fffff) / 0x200000

/-- The last loop of `pmm_init`. -/
def reserveRegions (m : MemoryMap) (p : Pmm) : Pmm :=
  (List.range (regions m)).foldl (fun p k =>
    if addrInReservedRegion m (0x800000 + 0x200000 * k) then
      markUsed p (0x800000 + 0x200000 * k) 0x200000 else p) p

def pmmInit (m : MemoryMap) (img : KernelImage) : Pmm :=
  let p := freeUsable m
  let p := markUsed p kernelStart ((kernelEnd m img + 2 ^ 64 - kernelStart) % 2 ^ 64)
  let p := reserveZero p
  reserveRegions m p

/-! ### The bitmap after `pmm_init` -/

theorem markFrame_used (p : Pmm) (b : Bool) (i f : ℕ) :
    (markFrame p b i).used f = if f = i then b else p.used f := by
  rw [markFrame]
  split
  · rename_i h
    split
    · rename_i hf
      rw [hf]
      exact h
    · rfl
  · show update p.used i b f = _
    rw [update_apply]

theorem markFrames_used (p : Pmm) (b : Bool) (start n f : ℕ) :
    (markFrames p b start n).used f = if start ≤ f ∧ f < start + n then b else p.used f := by
  induction n with
  | zero =>
    rw [if_neg (by omega)]
    rfl
  | succ n ih =>
    rw [markFrames, markFrame_used, ih]
    by_cases hf : f = start + n
    · rw [if_pos hf, if_pos (by omega)]
    · rw [if_neg hf]
      exact if_congr (by omega) rfl rfl

theorem markFrames_totalFrames (p : Pmm) (b : Bool) (start n : ℕ) :
    (markFrames p b start n).totalFrames = p.totalFrames := by
  induction n with
  | zero => rfl
  | succ n ih =>
    rw [markFrames, markFrame]
    split
    · exact ih
    · exact ih

/-- **What marking a range does**: the frames wholly inside it, and no others. -/
theorem markRange_used (p : Pmm) (b : Bool) {base length : ℕ} (h : base + length < 2 ^ 64) (f : ℕ) :
    (markRange p b base length).used f =
      if (base + 4095) / 4096 ≤ f ∧ f < (base + length) / 4096 then b else p.used f := by
  rw [markRange, markFrames_used, Nat.mod_eq_of_lt h]
  exact if_congr (by omega) rfl rfl

/-- The frame lies wholly in a usable entry of the map. -/
def usableFrame (m : MemoryMap) (f : ℕ) : Bool :=
  m.entries.any fun e =>
    decide (e.type = 1 ∧ (e.base + 4095) / 4096 ≤ f ∧ f < (e.base + e.length) / 4096)

/-- The frame lies in a 2 MiB region, from 8 MiB on, that starts in a reserved entry. -/
def reservedFrame (m : MemoryMap) (f : ℕ) : Bool :=
  decide (2048 ≤ f ∧ 0x200000 * (f / 512) < mmapMaxAddr m) &&
    addrInReservedRegion m (0x200000 * (f / 512))

section

variable (m : MemoryMap) (img : KernelImage) (p : Pmm)

theorem freeUsable_used (f : ℕ) : (freeUsable m).used f = !usableFrame m f := by
  have hfold : ∀ (l : List MmapEntry) (p : Pmm), (∀ e ∈ l, e.base + e.length ≤ 2 ^ 52) →
      (l.foldl (fun p e => if e.type = 1 then markFree p e.base e.length else p) p).used f =
        (p.used f && !l.any fun e =>
          decide (e.type = 1 ∧ (e.base + 4095) / 4096 ≤ f ∧ f < (e.base + e.length) / 4096)) := by
    intro l
    induction l with
    | nil => intro p _; simp only [foldl_nil, any_nil, Bool.not_false, Bool.and_true]
    | cons e l ih =>
      intro p hl
      have he : e.base + e.length < 2 ^ 64 := by
        have := hl e mem_cons_self
        omega
      rw [foldl_cons, ih _ fun e' he' => hl e' (mem_cons_of_mem e he'), any_cons]
      by_cases htype : e.type = 1
      · rw [if_pos htype, markFree, markRange_used p false he]
        by_cases hin : (e.base + 4095) / 4096 ≤ f ∧ f < (e.base + e.length) / 4096
        · rw [if_pos hin, decide_eq_true ⟨htype, hin⟩]
          simp only [Bool.false_and, Bool.true_or, Bool.not_true, Bool.and_false]
        · rw [if_neg hin, decide_eq_false fun h => hin h.2, Bool.false_or]
      · rw [if_neg htype, decide_eq_false fun h => htype h.1, Bool.false_or]
  rw [freeUsable, hfold m.entries (allUsed m) m.bounded]
  rfl

/-- After the first `n` regions. -/
theorem reserveRegions_used (f n : ℕ) (hn : n ≤ 2 ^ 40) :
    ((range n).foldl (fun p k =>
      if addrInReservedRegion m (0x800000 + 0x200000 * k) then
        markUsed p (0x800000 + 0x200000 * k) 0x200000 else p) p).used f =
      (p.used f || (decide (2048 ≤ f ∧ f / 512 < 4 + n) &&
        addrInReservedRegion m (0x200000 * (f / 512)))) := by
  induction n with
  | zero =>
    rw [decide_eq_false (by omega), Bool.false_and, Bool.or_false]
    rfl
  | succ n ih =>
    rw [range_succ, foldl_append, foldl_cons, foldl_nil]
    -- the region marked in this round is the one with `f / 512 = 4 + n`
    have haddr : 0x800000 + 0x200000 * n = 0x200000 * (4 + n) := by omega
    by_cases hregion : f / 512 = 4 + n
    · by_cases hres : addrInReservedRegion m (0x200000 * (4 + n)) = true
      · rw [haddr, if_pos hres, markUsed, markRange_used _ _ (by omega), if_pos (by omega),
          hregion, hres, decide_eq_true (by omega), Bool.and_true, Bool.or_true]
      · rw [haddr, if_neg hres, ih (by omega), decide_eq_false (by omega), hregion,
          Bool.eq_false_iff.mpr hres, Bool.and_false, Bool.and_false]
    · have hsame : decide (2048 ≤ f ∧ f / 512 < 4 + (n + 1)) =
          decide (2048 ≤ f ∧ f / 512 < 4 + n) := by
        apply decide_eq_decide.mpr
        omega
      rw [hsame, ← ih (by omega), haddr]
      split
      · rw [markUsed, markRange_used _ _ (by omega), if_neg (by omega)]
      · rfl

theorem kernelEnd_lt : kernelEnd m img < 2 ^ 63 := by
  have hmax := mmapMaxAddr_le m
  have himg := img.bounded
  rw [kernelEnd, bitmapPhys, bitmapBytes, totalFrames]
  omega

theorem reserveZero_used (f : ℕ) : (reserveZero p).used f = if f = 0 then true else p.used f :=
  update_apply p.used 0 true f

/-- **The free frames after `pmm_init`**: those wholly in a usable entry, but for frame 0, the
frames below the page of `kernel_end`, and the reserved regions. -/
theorem pmmInit_used (f : ℕ) : (pmmInit m img).used f = false ↔
      usableFrame m f = true ∧ ¬(512 ≤ f ∧ f < kernelEnd m img / 4096) ∧ f ≠ 0 ∧
        reservedFrame m f = false := by
  have hend := kernelEnd_lt m img
  have hregions : regions m ≤ 2 ^ 40 := by
    have hmax := mmapMaxAddr_le m
    rw [regions]
    omega
  have hres : decide (2048 ≤ f ∧ f / 512 < 4 + regions m) =
      decide (2048 ≤ f ∧ 0x200000 * (f / 512) < mmapMaxAddr m) := by
    apply decide_eq_decide.mpr
    rw [regions]
    omega
  -- the length passed to `mark_used` wraps when the image ends below its start
  have hkernel : ∀ p : Pmm, (markUsed p kernelStart
      ((kernelEnd m img + 2 ^ 64 - kernelStart) % 2 ^ 64)).used f =
        if 512 ≤ f ∧ f < kernelEnd m img / 4096 then true else p.used f := by
    intro p
    have hsum : (kernelStart + (kernelEnd m img + 2 ^ 64 - kernelStart) % 2 ^ 64) % 2 ^ 64 =
        kernelEnd m img := by
      rw [kernelStart]
      omega
    rw [markUsed, markRange, markFrames_used, hsum]
    show (if 512 ≤ f ∧ f < 512 + (kernelEnd m img / 4096 - 512) then true else p.used f) = _
    exact if_congr (by omega) rfl rfl
  have hused : (pmmInit m img).used f = ((if f = 0 then true
      else if 512 ≤ f ∧ f < kernelEnd m img / 4096 then true else !usableFrame m f) ||
        reservedFrame m f) := by
    rw [pmmInit, reserveRegions, reserveRegions_used m _ f _ hregions, hres, reserveZero_used,
      hkernel, freeUsable_used]
    rfl
  rw [hused]
  by_cases hzero : f = 0
  · rw [if_pos hzero]
    simp only [Bool.true_or, Bool.true_eq_false, false_iff]
    exact fun h => h.2.2.1 hzero
  · rw [if_neg hzero]
    by_cases hin : 512 ≤ f ∧ f < kernelEnd m img / 4096
    · rw [if_pos hin]
      simp only [Bool.true_or, Bool.true_eq_false, false_iff]
      exact fun h => h.2.1 hin
    · rw [if_neg hin, Bool.or_eq_false_iff, Bool.not_eq_false']
      exact ⟨fun h => ⟨h.1, hin, hzero, h.2⟩, fun h => ⟨h.1, h.2.2.2⟩⟩

end

/-- A usable frame lies below `total_frames`, so the bitmap has a bit for it. -/
theorem usableFrame_lt (h : usableFrame m f = true) : f < totalFrames m := by
  obtain ⟨e, hmem, hcover⟩ := any_eq_true.mp h
  have hc := of_decide_eq_true hcover
  obtain ⟨l, l', hl⟩ := append_of_mem hmem
  have htop : e.base + e.length ≤ mmapMaxAddr m := by
    rw [mmapMaxAddr, hl, foldl_append, foldl_cons]
    -- from the round of `e` on, the maximum is not below its end
    refine foldlRecOn (motive := (e.base + e.length ≤ ·)) l' _ ?_ fun top htop a _ => ?_
    · split <;> omega
    · split <;> omega
  rw [totalFrames]
  omega

theorem markRange_totalFrames (p : Pmm) (b : Bool) (base length : ℕ) :
    (markRange p b base length).totalFrames = p.totalFrames :=
  markFrames_totalFrames p b _ _

theorem pmmInit_totalFrames (m : MemoryMap) (img : KernelImage) :
    (pmmInit m img).totalFrames = totalFrames m := by
  -- both loops mark a range or skip it
  have hloop : ∀ {α : Type} (c : α → Prop) [DecidablePred c] (b : Bool) (base length : α → ℕ)
      (l : List α) (p : Pmm), (l.foldl (fun p a =>
        if c a then markRange p b (base a) (length a) else p) p).totalFrames = p.totalFrames := by
    intro α c _ b base length l p
    refine foldlRecOn (motive := fun q : Pmm => q.totalFrames = p.totalFrames) l _ rfl ?_
    intro q hq a _
    split
    · exact (markRange_totalFrames q _ _ _).trans hq
    · exact hq
  have hzero : ∀ p : Pmm, (reserveZero p).totalFrames = p.totalFrames := fun _ => rfl
  simp only [pmmInit, reserveRegions, freeUsable, markUsed, markFree, hloop, hzero,
    markRange_totalFrames]
  rfl

/-! ### Runs of the allocator -/

/-- The allocator, with every frame it has handed out so far. -/
structure PmmState where
  pmm : Pmm
  returned : List ℕ

/-- The calls: allocations, and frees of frames obtained before. -/
inductive PmmCall
  | allocFrame
  | allocFrames (count : ℕ)
  | freeFrame (frame : ℕ)
  | freeFrames (start count : ℕ)

/-- The frames a caller gets: none when the answer is the null pointer. -/
def obtained (first count : ℕ) : List ℕ :=
  if first = 0 then [] else (List.range count).map (first + ·)

def PmmState.call (s : PmmState) : PmmCall → PmmState
  | .allocFrame =>
    let a := pmmAllocFrame s.pmm
    ⟨a.1, obtained a.2 1 ++ s.returned⟩
  | .allocFrames count =>
    let a := pmmAllocFrames s.pmm count
    ⟨a.1, obtained a.2 count ++ s.returned⟩
  | .freeFrame frame => ⟨pmmFreeFrame s.pmm frame, s.returned⟩
  | .freeFrames start count => ⟨pmmFreeFrames s.pmm start count, s.returned⟩

/-- Only frames obtained from the allocator are freed. -/
def PmmCall.Allowed (s : PmmState) : PmmCall → Prop
  | .allocFrame => True
  | .allocFrames _ => True
  | .freeFrame frame => frame ∈ s.returned
  | .freeFrames start count => ∀ k, k < count → start + k ∈ s.returned

def pmmStep (s : PmmState) (c : PmmCall) (s' : PmmState) : Prop := c.Allowed s ∧ s' = s.call c

/-- The state after `pmm_init`. -/
def booted (m : MemoryMap) (img : KernelImage) : PmmState := ⟨pmmInit m img, []⟩

/-- A frame that may be handed out: not frame 0, no byte of the kernel image or the bitmap, and
every byte in a usable entry of the map. -/
structure SafeFrame (m : MemoryMap) (img : KernelImage) (f : ℕ) : Prop where
  ne_zero : f ≠ 0
  outside : ∀ b, 4096 * f ≤ b → b < 4096 * f + 4096 → ¬(kernelStart ≤ b ∧ b < kernelEnd m img)
  usable : ∀ b, 4096 * f ≤ b → b < 4096 * f + 4096 →
    ∃ e ∈ m.entries, e.type = 1 ∧ e.base ≤ b ∧ b < e.base + e.length

/-- What is free is safe, and so is what was handed out. -/
structure PmmSafe (m : MemoryMap) (img : KernelImage) (s : PmmState) : Prop where
  free : ∀ f, s.pmm.used f = false → SafeFrame m img f
  returned : ∀ f ∈ s.returned, SafeFrame m img f

theorem mem_obtained {first count : ℕ} (h : f ∈ obtained first count) :
    first ≠ 0 ∧ ∃ k, k < count ∧ f = first + k := by
  rw [obtained] at h
  by_cases hz : first = 0
  · rw [if_pos hz] at h
    exact absurd h not_mem_nil
  · rw [if_neg hz] at h
    obtain ⟨k, hk, rfl⟩ := mem_map.mp h
    exact ⟨hz, k, mem_range.mp hk, rfl⟩

/-- An allocation hands out free frames and frees none. -/
theorem PmmSafe.alloc {m : MemoryMap} {img : KernelImage} {s : PmmState} (hs : PmmSafe m img s)
    {p : Pmm} {first count : ℕ} (hused : ∀ f, p.used f = false → s.pmm.used f = false)
    (hfree : first ≠ 0 → ∀ k, k < count → s.pmm.used (first + k) = false) :
    PmmSafe m img ⟨p, obtained first count ++ s.returned⟩ := by
  refine ⟨fun f hf => hs.free f (hused f hf), ?_⟩
  intro f hf
  rcases mem_append.mp hf with hnew | hold
  · obtain ⟨hz, k, hk, rfl⟩ := mem_obtained hnew
    exact hs.free _ (hfree hz k hk)
  · exact hs.returned f hold

/-- **One call keeps the allocator safe.** -/
theorem pmmSafe_step (m : MemoryMap) (img : KernelImage) (s : PmmState) (c : PmmCall)
    (s' : PmmState) (hs : PmmSafe m img s) (hstep : pmmStep s c s') : PmmSafe m img s' := by
  obtain ⟨hallowed, rfl⟩ := hstep
  cases c with
  | allocFrame =>
    refine hs.alloc ?_ ?_
    all_goals rcases pmmAllocFrame_cases s.pmm with hnone | ⟨_, hfree, hused, _⟩
    · rw [hnone]
      exact fun _ hf => hf
    · intro f hf
      rw [hused, update_apply] at hf
      split at hf
      · cases hf
      · exact hf
    · rw [hnone]
      exact fun h => absurd rfl h
    · intro _ k hk
      rw [Nat.lt_one_iff.mp hk]
      exact hfree
  | allocFrames count =>
    refine hs.alloc ?_ ?_
    all_goals rcases pmmAllocFrames_cases s.pmm count with hnone | ⟨_, hfree, hused, _⟩
    · rw [hnone]
      exact fun _ hf => hf
    · intro f hf
      rw [hused, setRun_apply] at hf
      split at hf
      · cases hf
      · exact hf
    · rw [hnone]
      exact fun h => absurd rfl h
    · exact fun _ => hfree
  | freeFrame frame =>
    refine ⟨?_, hs.returned⟩
    intro f hf
    have hf' : (pmmFreeFrame s.pmm frame).used f = false := hf
    rw [pmmFreeFrame_used] at hf'
    split at hf'
    · rename_i heq
      rw [heq.1]
      exact hs.returned frame hallowed
    · exact hs.free f hf'
  | freeFrames start count =>
    refine ⟨?_, hs.returned⟩
    intro f hf
    have hf' : (pmmFreeFrames s.pmm start count).used f = false := hf
    rw [pmmFreeFrames_used] at hf'
    split at hf'
    · rename_i hin
      have hmem := hallowed (f - start) (by omega)
      rw [show start + (f - start) = f by omega] at hmem
      exact hs.returned f hmem
    · exact hs.free f hf'

/-! ### Every free frame can be reached -/

/-- The frames below `total_frames` that are free. -/
def freeSet (p : Pmm) : List ℕ := (List.range p.totalFrames).filter fun f => !p.used f

/-- An allocation that succeeds leaves one free frame less. -/
theorem freeSet_alloc {p : Pmm} (hf : f < p.totalFrames) (hfree : p.used f = false) :
    (freeSet (pmmAllocFrame p).1).length < (freeSet p).length := by
  obtain ⟨hlt, hgot, hused, htotal⟩ := pmmAllocFrame_spec hf hfree
  have hfilter : freeSet (pmmAllocFrame p).1 =
      (freeSet p).filter fun g => decide (g ≠ (pmmAllocFrame p).2) := by
    rw [freeSet, freeSet, htotal, filter_filter]
    apply filter_congr
    intro g _
    rw [hused, update_apply]
    by_cases hg : g = (pmmAllocFrame p).2
    · rw [if_pos hg, decide_eq_false (by simpa using hg)]
      rfl
    · rw [if_neg hg, decide_eq_true hg, Bool.true_and]
  rw [hfilter, length_filter_lt_length_iff_exists]
  refine ⟨(pmmAllocFrame p).2, ?_, by simp⟩
  exact mem_filter.mpr ⟨mem_range.mpr hlt, by rw [hgot]; rfl⟩

/-- **A free frame is handed out sooner or later**: allocating one frame after another reaches
it. -/
theorem exists_run_returning (n : ℕ) (s : PmmState) (f : ℕ) (hlen : (freeSet s.pmm).length ≤ n)
    (hf : f < s.pmm.totalFrames) (hfree : s.pmm.used f = false) (hne : f ≠ 0) :
    ∃ cs s', Run pmmStep s cs s' ∧ f ∈ s'.returned := by
  induction n generalizing s f with
  | zero =>
    have hmem : f ∈ freeSet s.pmm := mem_filter.mpr ⟨mem_range.mpr hf, by rw [hfree]; rfl⟩
    rw [length_eq_zero_iff.mp (Nat.le_zero.mp hlen)] at hmem
    exact absurd hmem not_mem_nil
  | succ n ih =>
    have hstep : pmmStep s .allocFrame (s.call .allocFrame) := ⟨trivial, rfl⟩
    obtain ⟨_, _, hused, htotal⟩ := pmmAllocFrame_spec hf hfree
    by_cases heq : (pmmAllocFrame s.pmm).2 = f
    · refine ⟨[.allocFrame], _, .cons hstep (.nil _), ?_⟩
      apply mem_append.mpr
      left
      rw [heq, obtained, if_neg hne]
      exact mem_map.mpr ⟨0, mem_range.mpr Nat.one_pos, Nat.add_zero f⟩
    · -- another frame was handed out; `f` is still free and fewer frames are
      have hless := freeSet_alloc hf hfree
      have hlen' : (freeSet (s.call .allocFrame).pmm).length ≤ n :=
        Nat.le_of_lt_succ (Nat.lt_of_lt_of_le hless hlen)
      have hf' : f < (s.call .allocFrame).pmm.totalFrames := htotal ▸ hf
      have hfree' : (pmmAllocFrame s.pmm).1.used f = false := by
        rw [hused, update_apply, if_neg (Ne.symm heq)]
        exact hfree
      obtain ⟨cs, s', hrun, hret⟩ := ih (s.call .allocFrame) f hlen' hf' hfree' hne
      exact ⟨_, s', .cons hstep hrun, hret⟩

theorem exists_run_from (p : Pmm) (hf : f < p.totalFrames) (hfree : p.used f = false)
    (hne : f ≠ 0) : ∃ cs s', Run pmmStep ⟨p, []⟩ cs s' ∧ f ∈ s'.returned :=
  exists_run_returning _ ⟨p, []⟩ f (Nat.le_refl _) hf hfree hne

theorem pmmSafe_from {img : KernelImage} (p : Pmm)
    (h : ∀ f, p.used f = false → SafeFrame m img f) : PmmSafe m img ⟨p, []⟩ :=
  ⟨h, nofun⟩

/-! ### When the allocator is safe -/

/-- **The last page of the bitmap is not handed out**: it ends on a page boundary, or the image
ends before it starts, or the page is no usable memory or lies in a reserved region. -/
def TailReserved (m : MemoryMap) (img : KernelImage) : Prop :=
  kernelEnd m img % 4096 = 0 ∨ kernelEnd m img ≤ kernelStart ∨
    usableFrame m (kernelEnd m img / 4096) = false ∨
    reservedFrame m (kernelEnd m img / 4096) = true

theorem usableFrame_bytes (h : usableFrame m f = true) {b : ℕ}
    (hb : 4096 * f ≤ b) (hb' : b < 4096 * f + 4096) :
    ∃ e ∈ m.entries, e.type = 1 ∧ e.base ≤ b ∧ b < e.base + e.length := by
  obtain ⟨e, hmem, hcover⟩ := any_eq_true.mp h
  have hc := of_decide_eq_true hcover
  exact ⟨e, hmem, hc.1, by omega, by omega⟩

/-- After `pmm_init` every free frame but that page is safe. -/
theorem pmmInit_free_safe {img : KernelImage} (h : TailReserved m img) (f : ℕ)
    (hf : (pmmInit m img).used f = false) : SafeFrame m img f := by
  obtain ⟨husable, hkernel, hzero, hres⟩ := (pmmInit_used m img f).mp hf
  refine ⟨hzero, ?_, fun b hb hb' => usableFrame_bytes husable hb hb'⟩
  intro b hb hb' hin
  have htail : f = kernelEnd m img / 4096 ∧ kernelEnd m img % 4096 ≠ 0 := by
    rw [kernelStart] at hin
    omega
  rcases h with h | h | h | h
  · exact htail.2 h
  · omega
  · rw [← htail.1, husable] at h
    exact Bool.noConfusion h
  · rw [← htail.1, hres] at h
    exact Bool.noConfusion h

theorem partial_page {stop : ℕ} (htorn : stop % 4096 ≠ 0) (hstart : ¬stop ≤ kernelStart) :
    stop / 4096 ≠ 0 ∧ 4096 * (stop / 4096) ≤ stop - 1 ∧ stop - 1 < 4096 * (stop / 4096) + 4096 ∧
      kernelStart ≤ stop - 1 ∧ stop - 1 < stop := by
  rw [kernelStart] at hstart ⊢
  omega

/-- **The frames handed out are safe, in every run, exactly when the last page of the bitmap is
reserved.**  Safe means: the frame is not frame 0, shares no byte with the kernel image or the
bitmap, and has every byte in a usable entry; and frame 0 is never free. -/
theorem pmm_returns_safe_iff (m : MemoryMap) (img : KernelImage) :
    (∀ cs s, Run pmmStep (booted m img) cs s →
      (∀ f ∈ s.returned, SafeFrame m img f) ∧ s.pmm.used 0 = true) ↔
    TailReserved m img := by
  constructor
  · intro hall
    apply Classical.byContradiction
    intro htail
    simp only [TailReserved, not_or, Bool.not_eq_false, Bool.not_eq_true] at htail
    obtain ⟨htorn, hstart, husable, hres⟩ := htail
    obtain ⟨hne, hlo, hhi, hin⟩ := partial_page htorn hstart
    have hfree : (pmmInit m img).used (kernelEnd m img / 4096) = false :=
      (pmmInit_used m img _).mpr ⟨husable, fun h => Nat.lt_irrefl _ h.2, hne, hres⟩
    have hlt : kernelEnd m img / 4096 < (pmmInit m img).totalFrames := by
      rw [pmmInit_totalFrames]
      exact usableFrame_lt husable
    obtain ⟨cs, s, hrun, hret⟩ := exists_run_from (pmmInit m img) hlt hfree hne
    -- the last byte of the bitmap lies in the frame that was handed out
    exact ((hall cs s hrun).1 _ hret).outside (kernelEnd m img - 1) hlo hhi hin
  · intro htail cs s hrun
    have hsafe : PmmSafe m img s := by
      apply hrun.invariant (PmmSafe m img) (pmmSafe_step m img)
      exact pmmSafe_from (pmmInit m img) (pmmInit_free_safe htail)
    refine ⟨hsafe.returned, ?_⟩
    cases hfree : s.pmm.used 0 with
    | true => rfl
    | false => exact absurd rfl (hsafe.free 0 hfree).ne_zero

/-- One usable page at 2 MiB, and an image that ends there. -/
def onePageMap : MemoryMap where
  entries := [⟨0x200000, 0x1000, 1⟩]
  bounded := by decide

def emptyImage : KernelImage := ⟨0x200000, by decide⟩

/-- **The allocator hands out its own bitmap.**  The bitmap is the 65 bytes at 0x200000, and the
first frame allocated is the frame at 0x200000. -/
theorem pmmAllocFrame_returns_bitmap : kernelEnd onePageMap emptyImage = 0x200041 ∧
      (pmmAllocFrame (pmmInit onePageMap emptyImage)).2 = 0x200 ∧
      ¬SafeFrame onePageMap emptyImage 0x200 := by
  have hend : kernelEnd onePageMap emptyImage = 0x200041 := by decide
  have hused := pmmInit_used onePageMap emptyImage
  rw [hend] at hused
  have honly : ∀ f, (pmmInit onePageMap emptyImage).used f = false → f = 0x200 := by
    intro f hf
    have husable := ((hused f).mp hf).1
    simp only [usableFrame, onePageMap, any_cons, any_nil, Bool.or_false,
      decide_eq_true_eq] at husable
    omega
  have hfree : (pmmInit onePageMap emptyImage).used 0x200 = false :=
    (hused 0x200).mpr ⟨by decide, by omega, by decide, by decide⟩
  have hlt : 0x200 < (pmmInit onePageMap emptyImage).totalFrames := by
    rw [pmmInit_totalFrames]
    decide
  refine ⟨hend, honly _ (pmmAllocFrame_of_free hlt hfree), ?_⟩
  intro hsafe
  apply hsafe.outside 0x200000 (by omega) (by omega)
  rw [hend, kernelStart]
  omega

end AxiomeOS.Frames
