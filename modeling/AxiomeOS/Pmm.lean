import AxiomeOS.Lib.Bits
import Mathlib.Logic.Function.Basic

/-!
# The physical frame allocator

`kernel/pmm.c` keeps one bit per 4 KiB frame.  A frame is named by its number (`address >> 12`);
the null pointer is frame number 0, so an allocation that fails answers 0.

The bitmap is the function `used`.  `bounded` records that frame numbers fit the 40-bit frame
field of a page-table entry: x86-64 physical addresses have at most 52 bits.

Each operation has one inversion lemma that says what it can do to the bitmap
(`pmmAllocFrame_cases`, `pmmAllocFrames_cases`, `pmmFreeFrames_used`); callers use only those.
`pmmAllocFrames_lowest` says which run of frames is found, and when none is.
-/

namespace AxiomeOS.Frames

open Bits Function List

/-- The allocator's static state. -/
structure Pmm where
  totalFrames : ℕ
  /-- `bm_test` -/
  used : ℕ → Bool
  freeFrames : U64
  nextHint : ℕ
  bounded : totalFrames ≤ 2 ^ 40

/-- `pmm_alloc_frame`: the first free frame at or after `next_hint`, cyclically. -/
def pmmAllocFrame (p : Pmm) : Pmm × ℕ :=
  match (List.range p.totalFrames).find? fun i => !p.used ((p.nextHint + i) % p.totalFrames) with
  | some i =>
    let idx := (p.nextHint + i) % p.totalFrames
    ({ p with
        used := update p.used idx true
        freeFrames := p.freeFrames - 1
        nextHint := idx + 1 }, idx)
  | none => (p, 0)

/-- `while (start < total_frames && bm_test(start)) start++`; `none` is a loop that has not ended
after `fuel` rounds. -/
def skipUsed (p : Pmm) : ℕ → ℕ → Option ℕ
  | 0, _ => none
  | fuel + 1, start =>
    if start < p.totalFrames ∧ p.used start = true then skipUsed p fuel (start + 1)
    else some start

/-- The number of free frames in a row from `j` on, counted up to `want`. -/
def freeRun (p : Pmm) : ℕ → ℕ → ℕ
  | 0, _ => 0
  | want + 1, j =>
    if j < p.totalFrames ∧ p.used j = false then freeRun p want (j + 1) + 1 else 0

/-- `for (j = 0; j < count; j++) bm_set(start + j)`. -/
def setRun (used : ℕ → Bool) (start : ℕ) : ℕ → ℕ → Bool
  | 0 => used
  | count + 1 => update (setRun used start count) (start + count) true

/-- The search loop of `pmm_alloc_frames`: the start of the run it finds, or `some none` when it
gives up.  `none` is a loop that has not ended after `fuel` rounds. -/
def allocFramesLoop (p : Pmm) (count : ℕ) : ℕ → ℕ → Option (Option ℕ)
  | 0, _ => none
  | fuel + 1, start =>
    if start + count ≤ p.totalFrames then
      match skipUsed p (p.totalFrames + 1) start with
      | none => none
      | some start =>
        if p.totalFrames < start + count then some none
        else if count ≤ freeRun p count start then some (some start)
        else allocFramesLoop p count fuel (start + freeRun p count start + 1)
    else some none

/-- `pmm_alloc_frames`, with `total_frames + 1` rounds of its loop: `pmmAllocFrames_lowest` says
that it ends within them. -/
def pmmAllocFrames (p : Pmm) (count : ℕ) : Pmm × ℕ :=
  if count = 0 then (p, 0)
  else
    match allocFramesLoop p count (p.totalFrames + 1) 0 with
    | some (some start) =>
      ({ p with
          used := setRun p.used start count
          freeFrames := p.freeFrames - BitVec.ofNat 64 count }, start)
    | _ => (p, 0)

/-- `pmm_free_frame`. -/
def pmmFreeFrame (p : Pmm) (frame : ℕ) : Pmm :=
  if frame < p.totalFrames ∧ p.used frame = true then
    { p with used := update p.used frame false, freeFrames := p.freeFrames + 1 }
  else p

/-- `pmm_free_frames`. -/
def pmmFreeFrames (p : Pmm) (start : ℕ) : ℕ → Pmm
  | 0 => p
  | count + 1 => pmmFreeFrame (pmmFreeFrames p start count) (start + count)

/-! ### What each operation can do to the bitmap -/

section

variable (p : Pmm) (frame : ℕ)

/-- **Allocation of one frame.**  Either nothing was free and nothing changed, or a free frame
was marked used and returned. -/
theorem pmmAllocFrame_cases : pmmAllocFrame p = (p, 0) ∨
      ((pmmAllocFrame p).2 < p.totalFrames ∧ p.used (pmmAllocFrame p).2 = false ∧
        (pmmAllocFrame p).1.used = update p.used (pmmAllocFrame p).2 true ∧
        (pmmAllocFrame p).1.totalFrames = p.totalFrames) := by
  unfold pmmAllocFrame
  cases h : (range p.totalFrames).find? fun i => !p.used ((p.nextHint + i) % p.totalFrames) with
  | none => exact .inl rfl
  | some i =>
    have hfree := find?_some h
    have hi : i < p.totalFrames := mem_range.mp (mem_of_find?_eq_some h)
    refine .inr ⟨Nat.mod_lt _ (by omega), ?_, rfl, rfl⟩
    simpa using hfree

theorem hint_reaches {total f : ℕ} (hf : f < total) (hint : ℕ) :
    ∃ i, i < total ∧ (hint + i) % total = f := by
  refine ⟨(f + (total - hint % total)) % total, Nat.mod_lt _ (by omega), ?_⟩
  have hmod := Nat.mod_lt hint (show 0 < total by omega)
  have hsum : hint + (f + (total - hint % total)) = f + total * (hint / total + 1) := by
    have hdiv := Nat.div_add_mod hint total
    rw [Nat.mul_add, Nat.mul_one]
    omega
  rw [Nat.add_mod_mod, hsum, Nat.add_mul_mod_self_left, Nat.mod_eq_of_lt hf]

/-- With a free frame an allocation succeeds: a free frame is marked used and returned. -/
theorem pmmAllocFrame_spec {p : Pmm} {f : ℕ} (hf : f < p.totalFrames) (hfree : p.used f = false) :
    (pmmAllocFrame p).2 < p.totalFrames ∧ p.used (pmmAllocFrame p).2 = false ∧
      (pmmAllocFrame p).1.used = update p.used (pmmAllocFrame p).2 true ∧
      (pmmAllocFrame p).1.totalFrames = p.totalFrames := by
  obtain ⟨i, hi, heq⟩ := hint_reaches hf p.nextHint
  unfold pmmAllocFrame
  cases h : (range p.totalFrames).find? fun i => !p.used ((p.nextHint + i) % p.totalFrames) with
  | none =>
    have hnone := find?_eq_none.mp h i (mem_range.mpr hi)
    rw [heq, hfree] at hnone
    exact absurd rfl hnone
  | some j =>
    refine ⟨Nat.mod_lt _ (by omega), ?_, rfl, rfl⟩
    simpa using find?_some h

theorem pmmAllocFrame_of_free {p : Pmm} {f : ℕ} (hf : f < p.totalFrames)
    (hfree : p.used f = false) : p.used (pmmAllocFrame p).2 = false :=
  (pmmAllocFrame_spec hf hfree).2.1

/-- A full free run is free frame by frame. -/
theorem freeRun_full (want : ℕ) :
    ∀ j, want ≤ freeRun p want j → ∀ k, k < want → p.used (j + k) = false := by
  induction want with
  | zero => intro j _ k hk; omega
  | succ want ih =>
    intro j hrun k hk
    rw [freeRun] at hrun
    split at hrun
    · rename_i hj
      cases k with
      | zero => exact hj.2
      | succ k =>
        rw [show j + (k + 1) = (j + 1) + k by omega]
        exact ih (j + 1) (by omega) k (by omega)
    · omega

theorem setRun_apply (used : ℕ → Bool) (start count f : ℕ) :
    setRun used start count f = if start ≤ f ∧ f < start + count then true else used f := by
  induction count with
  | zero => rw [setRun, if_neg (by omega)]
  | succ count ih =>
    rw [setRun]
    by_cases hf : f = start + count
    · rw [hf, update_self, if_pos (by omega)]
    · rw [update_of_ne hf, ih]
      by_cases hin : start ≤ f ∧ f < start + count
      · rw [if_pos hin, if_pos (by omega)]
      · rw [if_neg hin, if_neg (by omega)]

/-- What the search loop answers is a run of free frames inside the bitmap. -/
theorem allocFramesLoop_some (count fuel : ℕ) :
    ∀ start r, allocFramesLoop p count fuel start = some (some r) →
      r + count ≤ p.totalFrames ∧ ∀ k, k < count → p.used (r + k) = false := by
  induction fuel with
  | zero => intro start r h; simp [allocFramesLoop] at h
  | succ fuel ih =>
    intro start r h
    rw [allocFramesLoop] at h
    split at h
    · split at h
      · cases h
      · split at h
        · cases h
        · rename_i hfit
          split at h
          · rename_i hrun
            cases h
            exact ⟨by omega, freeRun_full p count _ hrun⟩
          · exact ih _ r h
    · cases h

/-- **Allocation of a run.**  Either nothing changed and 0 is answered, or `count` frames in a
row that were free are marked used, and the first of them is answered. -/
theorem pmmAllocFrames_cases (count : ℕ) : pmmAllocFrames p count = (p, 0) ∨
      ((pmmAllocFrames p count).2 + count ≤ p.totalFrames ∧
        (∀ k, k < count → p.used ((pmmAllocFrames p count).2 + k) = false) ∧
        (pmmAllocFrames p count).1.used = setRun p.used (pmmAllocFrames p count).2 count ∧
        (pmmAllocFrames p count).1.totalFrames = p.totalFrames) := by
  unfold pmmAllocFrames
  split
  · exact .inl rfl
  · split
    · rename_i r h
      obtain ⟨hfit, hfree⟩ := allocFramesLoop_some p count _ 0 r h
      exact .inr ⟨hfit, hfree, rfl, rfl⟩
    · exact .inl rfl

theorem pmmFreeFrame_used (f : ℕ) :
    (pmmFreeFrame p frame).used f =
      if f = frame ∧ frame < p.totalFrames then false else p.used f := by
  unfold pmmFreeFrame
  by_cases hf : f = frame
  · subst hf
    by_cases ht : f < p.totalFrames
    · cases hu : p.used f <;> simp [ht, hu]
    · simp [ht]
  · split
    · simp [hf]
    · simp [hf]

theorem pmmFreeFrame_totalFrames : (pmmFreeFrame p frame).totalFrames = p.totalFrames := by
  unfold pmmFreeFrame
  split <;> rfl

theorem pmmFreeFrames_totalFrames (start count : ℕ) :
    (pmmFreeFrames p start count).totalFrames = p.totalFrames := by
  induction count with
  | zero => rfl
  | succ count ih => rw [pmmFreeFrames, pmmFreeFrame_totalFrames, ih]

/-- **Freeing a run** clears the bits of its frames that lie inside the bitmap, and nothing
else. -/
theorem pmmFreeFrames_used (start count f : ℕ) :
    (pmmFreeFrames p start count).used f =
      if start ≤ f ∧ f < start + count ∧ f < p.totalFrames then false else p.used f := by
  induction count with
  | zero =>
    rw [if_neg (by omega)]
    rfl
  | succ count ih =>
    rw [pmmFreeFrames, pmmFreeFrame_used, pmmFreeFrames_totalFrames, ih]
    by_cases hf : f = start + count
    · subst hf
      by_cases ht : start + count < p.totalFrames
      · rw [if_pos ⟨rfl, ht⟩, if_pos ⟨by omega, by omega, ht⟩]
      · rw [if_neg (by omega), if_neg (by omega), if_neg (by omega)]
    · rw [if_neg fun h => hf h.1]
      by_cases hr : start ≤ f ∧ f < start + count ∧ f < p.totalFrames
      · rw [if_pos hr, if_pos ⟨hr.1, by omega, hr.2.2⟩]
      · rw [if_neg hr, if_neg (by omega)]

end

/-! ### The lowest run -/

/-- `count` free frames in a row from `start` on. -/
def FreeAt (p : Pmm) (count start : ℕ) : Prop :=
  start + count ≤ p.totalFrames ∧ ∀ k, k < count → p.used (start + k) = false

theorem skipUsed_spec (p : Pmm) (fuel start : ℕ) (hfuel : p.totalFrames ≤ start + fuel) :
    ∃ s, skipUsed p (fuel + 1) start = some s ∧ start ≤ s ∧
      ∀ j, start ≤ j → j < s → p.used j = true := by
  induction fuel generalizing start with
  | zero =>
    rw [skipUsed, if_neg (by omega)]
    exact ⟨start, rfl, Nat.le_refl _, fun j hj hlt => absurd hlt (by omega)⟩
  | succ fuel ih =>
    rw [skipUsed]
    split
    · rename_i hused
      obtain ⟨s, hs, hle, hskip⟩ := ih (start + 1) (by omega)
      refine ⟨s, hs, by omega, fun j hj hlt => ?_⟩
      rcases Nat.eq_or_lt_of_le hj with rfl | hj
      · exact hused.2
      · exact hskip j hj hlt
    · exact ⟨start, rfl, Nat.le_refl _, fun j hj hlt => absurd hlt (by omega)⟩

/-- A free run that is too short is followed by a used frame, or ends with the bitmap. -/
theorem freeRun_short (p : Pmm) (want j : ℕ) (h : freeRun p want j < want)
    (hlt : j + freeRun p want j < p.totalFrames) : p.used (j + freeRun p want j) = true := by
  induction want generalizing j with
  | zero => omega
  | succ want ih =>
    rw [freeRun] at h hlt ⊢
    split at h
    · rename_i hfree
      rw [if_pos hfree] at hlt ⊢
      have hnext : j + (freeRun p want (j + 1) + 1) = j + 1 + freeRun p want (j + 1) := by omega
      rw [hnext] at hlt ⊢
      exact ih (j + 1) (by omega) hlt
    · rename_i hstop
      rw [if_neg hstop] at hlt ⊢
      exact Bool.not_eq_false _ ▸ fun hu => hstop ⟨hlt, hu⟩

/-- **The search** ends, since each round moves `start` forward; and it answers the lowest run, if
all runs start at or after `start`. -/
theorem allocFramesLoop_lowest (p : Pmm) {count : ℕ} (hcount : 0 < count) (fuel start : ℕ)
    (hfuel : p.totalFrames ≤ start + fuel) (hbefore : ∀ s, FreeAt p count s → start ≤ s) :
    ∃ r, allocFramesLoop p count (fuel + 1) start = some r ∧
      ∀ s, FreeAt p count s → ∃ t, r = some t ∧ t ≤ s := by
  have hnone : ∀ start', p.totalFrames < start' + count → (∀ s, FreeAt p count s → start' ≤ s) →
      ∀ s, FreeAt p count s → ∃ t, (none : Option ℕ) = some t ∧ t ≤ s := by
    intro start' hbig hle s hs
    have hstart := hle s hs
    have hfit := hs.1
    omega
  induction fuel generalizing start with
  | zero =>
    rw [allocFramesLoop, if_neg (by omega)]
    exact ⟨none, rfl, hnone start (by omega) hbefore⟩
  | succ fuel ih =>
    rw [allocFramesLoop]
    split
    · obtain ⟨start', hskip, hle, hused⟩ := skipUsed_spec p p.totalFrames start (by omega)
      -- A run does not start at a frame that is skipped.
      have hpast : ∀ s, FreeAt p count s → start' ≤ s := by
        intro s hs
        by_contra hlt
        have hmarked := hused s (hbefore s hs) (by omega)
        rw [← Nat.add_zero s, hs.2 0 hcount] at hmarked
        cases hmarked
      rw [hskip]
      dsimp only
      split
      · rename_i hbig
        exact ⟨none, rfl, hnone start' hbig hpast⟩
      · split
        · exact ⟨some start', rfl, fun s hs => ⟨start', rfl, hpast s hs⟩⟩
        · -- The run from `start'` on is too short, and a used frame follows it.
          rename_i hfit hshort
          refine ih _ (by omega) fun s hs => ?_
          by_contra hlt
          have hs' := hpast s hs
          have hend := hs.1
          have hmarked := freeRun_short p count start' (by omega) (by omega)
          have hfree := hs.2 (start' + freeRun p count start' - s) (by omega)
          rw [Nat.add_sub_of_le (by omega), hmarked] at hfree
          cases hfree
    · rename_i hbig
      exact ⟨none, rfl, hnone start (by omega) hbefore⟩

/-- **`pmm_alloc_frames`** ends and takes the lowest run of free frames: exactly the frames of the
run become used, and the free count goes down by their number.  It answers 0 and changes nothing
exactly if there is no run. -/
theorem pmmAllocFrames_lowest (p : Pmm) (h0 : p.used 0 = true) {count : ℕ} (hcount : 1 ≤ count) :
    allocFramesLoop p count (p.totalFrames + 1) 0 ≠ none ∧
      ((pmmAllocFrames p count).2 = 0 ↔ ¬∃ s, FreeAt p count s) ∧
      ((¬∃ s, FreeAt p count s) → (pmmAllocFrames p count).1 = p) ∧
      ((∃ s, FreeAt p count s) → FreeAt p count (pmmAllocFrames p count).2 ∧
        (∀ s, FreeAt p count s → (pmmAllocFrames p count).2 ≤ s) ∧
        (∀ f, (pmmAllocFrames p count).1.used f = true ↔ p.used f = true ∨
          (pmmAllocFrames p count).2 ≤ f ∧ f < (pmmAllocFrames p count).2 + count) ∧
        (pmmAllocFrames p count).1.freeFrames = p.freeFrames - BitVec.ofNat 64 count ∧
        (pmmAllocFrames p count).1.totalFrames = p.totalFrames ∧
        (pmmAllocFrames p count).1.nextHint = p.nextHint) := by
  have hpos : ∀ s, FreeAt p count s → s ≠ 0 := by
    rintro s hs rfl
    have hfree := hs.2 0 hcount
    rw [Nat.zero_add, h0] at hfree
    cases hfree
  obtain ⟨r, h, hlow⟩ := allocFramesLoop_lowest p hcount p.totalFrames 0 (by omega)
    fun _ _ => Nat.zero_le _
  rw [pmmAllocFrames, if_neg (by omega), h]
  refine ⟨Option.some_ne_none r, ?_⟩
  cases r with
  | none =>
    have hnone : ¬∃ s, FreeAt p count s := by
      rintro ⟨s, hs⟩
      obtain ⟨t, ht, -⟩ := hlow s hs
      cases ht
    exact ⟨⟨fun _ => hnone, fun _ => rfl⟩, fun _ => rfl, fun hs => absurd hs hnone⟩
  | some r =>
    have hr : FreeAt p count r := allocFramesLoop_some p count _ 0 r h
    refine ⟨⟨fun hz => absurd hz (hpos r hr), fun hnone => absurd ⟨r, hr⟩ hnone⟩,
      fun hnone => absurd ⟨r, hr⟩ hnone, fun _ => ⟨hr, fun s hs => ?_, fun f => ?_, rfl, rfl, rfl⟩⟩
    · obtain ⟨t, ht, hle⟩ := hlow s hs
      cases ht
      exact hle
    · simp only [setRun_apply]
      split
      · rename_i hin
        exact ⟨fun _ => .inr hin, fun _ => rfl⟩
      · rename_i hout
        exact ⟨.inl, fun hf => hf.resolve_right hout⟩

/-- Frames 0, 1 and 4 of eight are used: three frames are found from frame 5 on, and only they are
marked. -/
theorem pmmAllocFrames_lowest_three :
    let p : Pmm := ⟨8, fun f => decide (f < 2 ∨ f = 4), 5, 0, by decide⟩
    FreeAt p 3 (pmmAllocFrames p 3).2 ∧ (pmmAllocFrames p 3).2 = 5 ∧
      (List.range 8).map (pmmAllocFrames p 3).1.used =
        [true, true, false, false, true, true, true, true] :=
  ⟨((pmmAllocFrames_lowest _ (by decide) (by decide)).2.2.2 ⟨5, by decide, by decide⟩).1, by decide,
    by decide⟩

end AxiomeOS.Frames
