import Mathlib.Data.Finset.Card
import AxiomeOS.Kheap.Safety

/-!
# When the kernel heap takes frames

`kfree` puts an object back on the free list of its own slab, but `kmalloc` looks at the first slab
of a size class only.  When that one is full a new slab is made, whatever the others have free, and
slabs are never given back.

`kmalloc_reuses_iff` is the result: a run takes frames only when no slab of the class has a free
object, and so a bounded number of them, exactly when no request finds the first slab full and
another one not.
-/

namespace AxiomeOS.Kheap

open Bytes Runs List

variable {s : HeapState} {R : ℕ → Option Region} {idx size : ℕ} {e : Env} {c : Call}

/-- No slab of class `idx` has a free object. -/
def NoneFree (s : HeapState) (idx : ℕ) : Prop :=
  ∀ hs, Linked nextField s.mem (s.caches idx) hs → ∀ h ∈ hs, (freeCountField h).get s.mem = 0

/-- A request of a size class takes a frame, or fails, only when no slab of the class has a free
object. -/
def Reuses (s : HeapState) : Call → Prop
  | .kmalloc size e => ∀ idx, size ≠ 0 → sizeToIdx size = some idx →
    (kmalloc s size e).1.held ≠ s.held ∨ (kmalloc s size e).2 = 0 → NoneFree s idx
  | _ => True

/-- When the first slab of the class asked for has no free object, no other has one. -/
def FirstServes (s : HeapState) (c : Call) : Prop := ∀ idx, Grows s idx c → NoneFree s idx

/-- The number of live objects of class `idx`. -/
def liveOf (s : HeapState) (idx : ℕ) : ℕ :=
  (s.live.filter fun q => decide (sizeToIdx q.2 = some idx)).length

/-- **What is asked of a run** from `s₀` to `s`: every request reuses free objects, and when there
are never more than `n` live objects of a class it has at most `n + 1` slabs, of one frame each. -/
def Economical (s₀ : HeapState) (cs : List Call) (s : HeapState) : Prop :=
  RunIn Reuses step s₀ cs s ∧ ∀ idx n, idx < slabNum →
    RunIn (fun s _ => liveOf s idx ≤ n) step s₀ cs s →
      ∃ hs, Linked nextField s.mem (s.caches idx) hs ∧ hs.toFinset.card ≤ n + 1

/-! ### One request -/

/-- A request takes a frame or fails exactly when the first slab of the class has no free object. -/
theorem takes_or_fails_iff (h : Inv s R) (hf : Fresh s (request size) e) (hz : size ≠ 0)
    (hidx : sizeToIdx size = some idx) :
    ((kmalloc s size e).1.held ≠ s.held ∨ (kmalloc s size e).2 = 0) ↔ noFree s (s.caches idx) := by
  rw [request, if_neg (by rw [hidx]; exact Option.some_ne_none idx)] at hf
  rw [kmalloc, if_neg hz, hidx]
  dsimp only
  by_cases hno : noFree s (s.caches idx)
  · refine iff_of_true ?_ hno
    rw [if_pos hno]
    by_cases hfail : e.phys = 0 ∨ e.virt = 0
    · have hsame : slabGrow s idx e = s := by
        rw [slabGrow]
        rcases hfail with hfail | hfail <;> simp [hfail]
      rw [hsame, if_pos hno]
      exact .inr rfl
    · have hfresh := ((hf.resolve_left (by tauto)).resolve_left (by tauto)).2.2.2.2.2 0 Nat.one_pos
      rw [not_or] at hfail
      have hheld : (slabGrow s idx e).held e.phys = true := by
        simp [slabGrow, hfail, HeapState.map, Lib.inSpan, pageSize]
      split
      · exact .inr rfl
      · refine .inl fun heq => ?_
        rw [show (slabGrow s idx e).held = s.held from heq] at hheld
        simp [hheld] at hfresh
  · rw [if_neg hno, if_neg hno]
    refine iff_of_false ?_ hno
    obtain ⟨phys, o, free, -, hslab⟩ := h.first (sizeToIdx_spec hidx).1 hno
    rintro (hheld | hnull)
    · exact hheld rfl
    · exact hslab.chain.2.1 (hslab.chain.1.symm.trans hnull)

theorem Inv.reuses_iff (h : Inv s R) (hl : Legit s c) : Reuses s c ↔ FirstServes s c := by
  cases c with
  | kmalloc size e =>
    refine forall_congr' fun idx => ⟨?_, fun hfirst hz hidx htake => ?_⟩
    · rintro hreuse ⟨hz, hidx, hno⟩
      exact hreuse hz hidx ((takes_or_fails_iff h hl.2 hz hidx).mpr hno)
    · exact hfirst ⟨hz, hidx, (takes_or_fails_iff h hl.2 hz hidx).mp htake⟩
  | kfree p => exact iff_of_true trivial fun _ hg => hg.elim
  | store a x => exact iff_of_true trivial fun _ hg => hg.elim

/-! ### The number of slabs -/

/-- When no slab of a class has a free object, the first object of each is live. -/
theorem Inv.full_slabs (h : Inv s R) (hi : idx < slabNum) (hfull : NoneFree s idx) {F : Finset ℕ}
    (hF : ∀ k ∈ F, slabClass (R k) = some idx) : F.card ≤ liveOf s idx := by
  obtain ⟨-, hroom, -, hpos, -⟩ := slab_layout hi
  obtain ⟨hs, hlink, hmem⟩ := h.chains idx hi
  rw [liveOf, ← length_map Prod.fst]
  refine le_trans (Finset.card_le_card_of_injOn (fun k => k + dataStart (slabSize idx))
    (fun k hk => ?_) fun k _ k' _ heq => Nat.add_right_cancel heq) (toFinset_card_le _)
  obtain ⟨⟨phys, pages, kind⟩, free, hR, rfl⟩ := slabClass_eq.mp (hF k hk)
  obtain ⟨-, rfl, hslab⟩ := h.ok k _ hR
  have hobj : k + dataStart (slabSize idx) ∈ slabObjs k idx := mem_objs.mpr ⟨0, hpos, by omega⟩
  have hnil : free = [] := by
    rw [← length_eq_zero_iff, ← hslab.count]
    exact hfull hs hlink k ((hmem k).mpr ⟨_, _, hR, rfl⟩)
  obtain ⟨q, hq, heq⟩ : ptrs s.live (k + dataStart (slabSize idx)) := by
    by_contra hdead
    have hfree := (hslab.free_iff _).mpr ⟨hobj, hdead⟩
    rw [hnil] at hfree
    exact not_mem_nil hfree
  have hb := slabObjs_bounds hi hobj
  have hclass := (h.owner hR hq (by omega) (by dsimp only; omega)).1.1
  exact mem_toFinset.mpr (mem_map.mpr ⟨q, mem_filter.mpr ⟨hq, decide_eq_true hclass⟩, heq⟩)

/-- What the slabs of class `idx` keep to while there are no more than `n` live objects. -/
def SlabsWithin (s : HeapState) (idx n : ℕ) : Prop :=
  ∃ R, Inv s R ∧ ∀ F : Finset ℕ, (∀ k ∈ F, slabClass (R k) = some idx) → F.card ≤ n + 1

/-- **One call**: a slab is added only when the others are full. -/
theorem SlabsWithin.exec {n : ℕ} (h : SlabsWithin s idx n) (hi : idx < slabNum) (hl : Legit s c)
    (hfirst : FirstServes s c) (hlive : liveOf s idx ≤ n) : SlabsWithin (exec s c) idx n := by
  obtain ⟨R, hR, hbound⟩ := h
  obtain ⟨R', v, hR', hnew⟩ := hR.exec hl
  refine ⟨R', hR', fun F hF => ?_⟩
  by_cases hg : Grows s idx c
  · have hold : ∀ k ∈ F.erase v, slabClass (R k) = some idx := fun k hk =>
      (hnew idx k (hF k (Finset.mem_of_mem_erase hk))).resolve_right fun hv =>
        Finset.ne_of_mem_erase hk hv.2
    have hfull := hR.full_slabs hi (hfirst idx hg) hold
    have herase := Finset.pred_card_le_card_erase (s := F) (a := v)
    omega
  · exact hbound F fun k hk => (hnew idx k (hF k hk)).resolve_right fun hv => hg hv.1

/-! ### The result -/

/-- **Frames are taken only when they are needed**, in every run of the heap, exactly when no
request of the run finds the first slab of its class without a free object while another slab of
the class has one. -/
theorem kmalloc_reuses_iff (mem : Buffer) (es : ℕ → Env)
    (hes : ∀ i, i < slabNum → Fresh (slabInit mem es i) 1 (es i)) {cs : List Call} {s : HeapState}
    (hrun : RunIn Legit step (slabInit mem es slabNum) cs s) :
    Economical (slabInit mem es slabNum) cs s ↔
      RunIn FirstServes step (slabInit mem es slabNum) cs s := by
  obtain ⟨R0, h0, hone⟩ := inv_slabInit slabNum (Nat.le_refl _) hes
  have hiff := hrun.guard_congr (fun s => ∃ R, Inv s R)
    (fun s c h hl => inv_step s c _ h hl rfl) (fun s c ⟨R, h⟩ hl => h.reuses_iff hl) ⟨R0, h0⟩
  refine ⟨fun h => hiff.mp h.1, fun hfirst => ⟨hiff.mpr hfirst, fun idx n hi hlive => ?_⟩⟩
  have hstart : SlabsWithin (slabInit mem es slabNum) idx n := by
    refine ⟨R0, h0, fun F hF => ?_⟩
    have hcard : F.card ≤ 1 := Finset.card_le_one.mpr fun k hk k' hk' =>
      (hone idx k (hF k hk)).2.trans (hone idx k' (hF k' hk')).2.symm
    omega
  obtain ⟨R, h, hbound⟩ := ((hrun.and hfirst).and hlive).invariant
    (fun s => SlabsWithin s idx n) (fun s c s' hs hg hst => by
      rw [hst]
      exact hs.exec hi hg.1.1 hg.1.2 hg.2) hstart
  obtain ⟨hs, hlink, hmem⟩ := h.chains idx hi
  exact ⟨hs, hlink, hbound hs.toFinset fun k hk =>
    slabClass_eq.mpr ((hmem k).mp (mem_toFinset.mp hk))⟩

theorem kmalloc_reuses_iff_sample :
    allMet exec Legit (slabInit (fun _ => 0) noFrames slabNum) sampleCalls = true ∧
      (Economical (slabInit (fun _ => 0) noFrames slabNum) sampleCalls
          (sampleCalls.foldl exec (slabInit (fun _ => 0) noFrames slabNum)) ↔
        RunIn FirstServes step (slabInit (fun _ => 0) noFrames slabNum) sampleCalls
          (sampleCalls.foldl exec (slabInit (fun _ => 0) noFrames slabNum))) := by
  have hmet : allMet exec Legit (slabInit (fun _ => 0) noFrames slabNum) sampleCalls = true := by
    decide +kernel
  exact ⟨hmet, kmalloc_reuses_iff (fun _ => 0) noFrames (fun _ _ => .inl rfl) (runIn_foldl hmet)⟩

/-- Two slabs of three 1024-byte objects are filled, and an object of the older one is given
back. -/
def crowdedCalls : List Call :=
  [.kmalloc 1000 ⟨4096, 0x100000000, fun _ => 0⟩, .kmalloc 1000 (noFrames 0),
    .kmalloc 1000 (noFrames 0), .kmalloc 1000 ⟨8192, 0x100001000, fun _ => 0⟩,
    .kmalloc 1000 (noFrames 0), .kmalloc 1000 (noFrames 0), .kfree 0x100000c00]

/-- The heap after these calls. -/
def crowded : HeapState := crowdedCalls.foldl exec (slabInit (fun _ => 0) noFrames slabNum)

/-- **A frame is taken while an object is free**: the next request gets a third slab. -/
theorem free_object_passed_over :
    RunIn Legit step (slabInit (fun _ => 0) noFrames slabNum) crowdedCalls crowded ∧
      Legit crowded (.kmalloc 1000 ⟨12288, 0x100002000, fun _ => 0⟩) ∧
      ¬ Reuses crowded (.kmalloc 1000 ⟨12288, 0x100002000, fun _ => 0⟩) := by
  refine ⟨runIn_foldl (by decide +kernel), by decide +kernel, fun h => ?_⟩
  have hheld : (kmalloc crowded 1000 ⟨12288, 0x100002000, fun _ => 0⟩).1.held 12288 ≠
      crowded.held 12288 := by decide +kernel
  have hfull := h 5 (by decide) (by decide) (.inl fun heq => hheld (by rw [heq]))
    [0x100001000, 0x100000000] ⟨by decide +kernel, by decide, by decide +kernel, by decide,
      by show (nextField 0x100000000).get crowded.mem = 0; decide +kernel⟩ 0x100000000 (by simp)
  exact absurd hfull (by decide +kernel)

end AxiomeOS.Kheap
