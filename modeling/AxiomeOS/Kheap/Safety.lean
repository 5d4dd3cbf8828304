import AxiomeOS.Kheap.Slab
import AxiomeOS.Lib.Runs

/-!
# The kernel heap over whole runs

A run is `slab_init` followed by any calls of `kmalloc`, `kfree` on live pointers and stores of the
kernel into its own allocations.  The frame allocator and the mapper answer each request as they
like, as long as what they hand out is page aligned and not in use (`Fresh`).

The invariant `Inv` keeps a map of the heap's regions by their address: slabs with their free
lists, and big allocations.  Every operation changes one region and leaves the others alone, which
is proved once (`Inv.replace`).

`heap_ok_of_run` is the result: live allocations are apart from each other and from all headers,
and every slab is in order.
-/

namespace AxiomeOS.Kheap

open Bytes Lib Runs Function List

/-! ### Runs -/

/-- What the kernel can do with its heap. -/
inductive Call
  | kmalloc (size : ℕ) (e : Env)
  | kfree (p : ℕ)
  /-- A store of the kernel, at address `a`. -/
  | store (a : ℕ) (v : UInt8)

/-- The pointer `r` for `n` bytes was handed out, unless it is NULL. -/
def HeapState.handOut (s : HeapState) (r n : ℕ) : HeapState :=
  if r = 0 then s else { s with live := (r, n) :: s.live }

/-- One call. -/
def exec (s : HeapState) : Call → HeapState
  | .kmalloc size e => (kmalloc s size e).1.handOut (kmalloc s size e).2 size
  | .kfree p => { kfree s p with live := s.live.filter fun q => decide (q.1 ≠ p) }
  | .store a v => { s with mem := blit s.mem a (fun _ => v) 1 }

def step (s : HeapState) (c : Call) (s' : HeapState) : Prop := s' = exec s c

/-- A live pointer. -/
def ptrs (live : List (ℕ × ℕ)) (p : ℕ) : Prop := ∃ q ∈ live, q.1 = p

instance (live : List (ℕ × ℕ)) (p : ℕ) : Decidable (ptrs live p) := by
  unfold ptrs
  infer_instance

/-- What `pmm` and `vmm` hand out for `n` pages is aligned, inside the address space and not in
use. -/
def Fresh (s : HeapState) (n : ℕ) (e : Env) : Prop :=
  e.phys = 0 ∨ e.virt = 0 ∨
    (e.virt % pageSize = 0 ∧ e.phys % pageSize = 0 ∧ e.virt + n * pageSize ≤ 2 ^ 64 ∧
      e.phys < 2 ^ 64 ∧ (∀ i, i < n → s.mapped (e.virt + i * pageSize) = false) ∧
      ∀ i, i < n → s.held (e.phys + i * pageSize) = false)

instance (s : HeapState) (n : ℕ) (e : Env) : Decidable (Fresh s n e) := by
  unfold Fresh
  infer_instance

/-- The pages that `kmalloc` may have to ask for. -/
def request (size : ℕ) : ℕ := if sizeToIdx size = none then bigPages size else 1

/-- Sizes are below `2^63`, `pmm` and `vmm` answer with fresh pages, pointers given back are live,
and the kernel stores into its live allocations only. -/
def Legit (s : HeapState) : Call → Prop
  | .kmalloc size e => size < 2 ^ 63 ∧ Fresh s (request size) e
  | .kfree p => p = 0 ∨ ptrs s.live p
  | .store a _ => ∃ q ∈ s.live, q.1 ≤ a ∧ a < q.1 + q.2

instance (s : HeapState) (c : Call) : Decidable (Legit s c) := by
  cases c <;> unfold Legit <;> infer_instance

/-- Before `slab_init`: nothing is mapped, whatever memory holds. -/
def blank (mem : Buffer) : HeapState := ⟨mem, fun _ => 0, fun _ => false, fun _ => false, []⟩

/-- `slab_init` after its first `i` rounds. -/
def slabInit (mem : Buffer) (es : ℕ → Env) : ℕ → HeapState
  | 0 => blank mem
  | i + 1 => slabGrow (slabInit mem es i) i (es i)

/-! ### Size classes -/

variable {i k n p size : ℕ} {mem mem' : Buffer} {ptr : ℕ → Prop} {r' : Region} {e : Env}

theorem sizeToIdxFrom_spec {idx : ℕ} (h : sizeToIdxFrom size k i = some idx) :
    idx < i + k ∧ size ≤ slabSize idx := by
  induction k generalizing i with
  | zero => cases h
  | succ k ih =>
    rw [sizeToIdxFrom] at h
    split at h
    case isTrue hle =>
      cases h
      exact ⟨by omega, hle⟩
    case isFalse =>
      have := ih h
      exact ⟨by omega, this.2⟩

theorem sizeToIdx_spec {idx : ℕ} (h : sizeToIdx size = some idx) :
    idx < slabNum ∧ size ≤ slabSize idx := by
  have := sizeToIdxFrom_spec h
  rwa [Nat.zero_add] at this

/-- The bytes that belong to an allocation of `n` bytes. -/
def capacity (n : ℕ) : ℕ :=
  match sizeToIdx n with
  | some idx => slabSize idx
  | none => bigPages n * pageSize - bigHeader

theorem bigPages_spec (h : n < 2 ^ 63) :
    n + bigHeader ≤ bigPages n * pageSize ∧ 0 < bigPages n ∧ bigPages n < 2 ^ 64 := by
  have hlt : n + bigHeader + pageSize - 1 < 2 ^ 64 := by
    simp only [bigHeader, pageSize]
    omega
  rw [bigPages, Nat.mod_eq_of_lt hlt]
  simp only [bigHeader, pageSize]
  omega

/-- **An allocation has room for what was asked for.** -/
theorem le_capacity (h : n < 2 ^ 63) : n ≤ capacity n := by
  rw [capacity]
  split
  case h_1 idx hidx => exact (sizeToIdx_spec hidx).2
  case h_2 =>
    have := (bigPages_spec h).1
    omega

/-! ### Regions -/

/-- What a region of the heap is. -/
inductive Kind
  /-- A slab of class `idx` with its free objects. -/
  | slab (idx : ℕ) (free : List ℕ)
  /-- A big allocation of `size` bytes. -/
  | big (size : ℕ)

/-- A region: its frames, its number of pages, and what it is. -/
structure Region where
  phys : ℕ
  pages : ℕ
  kind : Kind

/-- The class of the slab that a region is. -/
def slabClass : Option Region → Option ℕ
  | some ⟨_, _, .slab idx _⟩ => some idx
  | _ => none

theorem slabClass_eq {o : Option Region} {idx : ℕ} :
    slabClass o = some idx ↔ ∃ r free, o = some r ∧ r.kind = .slab idx free := by
  rcases o with _ | ⟨phys, pages, _ | _⟩ <;> simp [slabClass]

/-- The region at `v` is in order. -/
def Region.Ok (mem : Buffer) (ptr : ℕ → Prop) (v : ℕ) (r : Region) : Prop :=
  match r.kind with
  | .slab idx free => idx < slabNum ∧ r.pages = 1 ∧ SlabOk mem ptr v idx free
  | .big size =>
    (magicField v).get mem = bigMagic ∧ (npagesField v).get mem = r.pages ∧
      (physBaseField v).get mem = r.phys ∧ r.pages = bigPages size ∧ sizeToIdx size = none ∧
      size < 2 ^ 63

/-- The region at `v` holds the allocation `p` of `n` bytes. -/
def Region.Owns (v : ℕ) (r : Region) (p n : ℕ) : Prop :=
  match r.kind with
  | .slab idx _ => sizeToIdx n = some idx ∧ p ∈ slabObjs v idx
  | .big size => n = size ∧ p = v + bigHeader

variable {s s' : HeapState} {R : ℕ → Option Region} {v : ℕ} {r : Region}

/-- A region depends on its own bytes and on the live pointers into it. -/
theorem Region.Ok.congr {ptr' : ℕ → Prop} (h : r.Ok mem ptr v)
    (hm : AgreeOn mem mem' v (r.pages * pageSize))
    (hp : ∀ p, v ≤ p → p < v + r.pages * pageSize → (ptr' p ↔ ptr p)) : r.Ok mem' ptr' v := by
  obtain ⟨phys, pages, kind⟩ := r
  cases kind with
  | slab idx free =>
    obtain ⟨hi, rfl, hs⟩ := h
    rw [Nat.one_mul] at hm hp
    have hroom := (slab_layout hi).2.1
    refine ⟨hi, rfl, hs.congr (fun j hj hj' => hm j hj ?_) (fun o ho j hj hj' => ?_) fun o ho => ?_⟩
    · simp only [slabHeader, pageSize] at hj' ⊢
      omega
    · have hb := slabObjs_bounds hi ((hs.free_iff o).mp ho).1
      exact hm j (by omega) (by omega)
    · have hb := slabObjs_bounds hi ho
      exact hp o (by omega) (by omega)
  | big size =>
    obtain ⟨h1, h2, h3, h4, h5, h6⟩ := h
    have hpos := (bigPages_spec h6).2.1
    simp only [pageSize] at hm h4
    refine ⟨?_, ?_, ?_, h4, h5, h6⟩
    · rw [hm.get (by simp only [magicField]; omega) (by simp only [magicField]; omega), h1]
    · rw [hm.get (by simp only [npagesField]; omega) (by simp only [npagesField]; omega), h2]
    · rw [hm.get (by simp only [physBaseField]; omega) (by simp only [physBaseField]; omega), h3]

/-- An allocation lies in its region, behind the header. -/
theorem Region.Owns.bounds (ho : r.Owns v p n) (hok : r.Ok mem ptr v) :
    v + bigHeader ≤ p ∧ p < v + r.pages * pageSize ∧
      p + capacity n ≤ v + r.pages * pageSize := by
  obtain ⟨phys, pages, kind⟩ := r
  cases kind with
  | slab idx free =>
    obtain ⟨hi, rfl, -⟩ := hok
    have hb := slabObjs_bounds hi ho.2
    have hroom := (slab_layout hi).2.1
    have hcap : capacity n = slabSize idx := by
      rw [capacity, ho.1]
    rw [hcap]
    simp only [slabHeader, bigHeader] at hb ⊢
    omega
  | big size =>
    obtain ⟨rfl, rfl⟩ := ho
    obtain ⟨-, -, -, hpages, hidx, hlt⟩ := hok
    have hpos := bigPages_spec hlt
    have hcap : capacity n = bigPages n * pageSize - bigHeader := by
      rw [capacity, hidx]
    simp only [hcap, bigHeader, pageSize] at hpos hpages ⊢
    omega

/-! ### The invariant -/

/-- The slabs of class `idx` are those that `next` leads through from the cache on. -/
def ChainOk (s : HeapState) (R : ℕ → Option Region) (idx : ℕ) : Prop :=
  ∃ hs, Linked nextField s.mem (s.caches idx) hs ∧
    ∀ h, h ∈ hs ↔ ∃ r free, R h = some r ∧ r.kind = .slab idx free

/-- **The invariant**: `R` has the regions of the heap. -/
structure Inv (s : HeapState) (R : ℕ → Option Region) : Prop where
  virt : Spans pageSize (fun v => (R v).map fun r => (v, r.pages)) s.mapped
  phys : Spans pageSize (fun v => (R v).map fun r => (r.phys, r.pages)) s.held
  top : ∀ v r, R v = some r → 0 < v ∧ v + r.pages * pageSize ≤ 2 ^ 64
  ok : ∀ v r, R v = some r → r.Ok s.mem (ptrs s.live) v
  owned : ∀ q ∈ s.live, ∃ v r, R v = some r ∧ r.Owns v q.1 q.2 ∧ q.2 < 2 ^ 63
  big : ∀ v r size, R v = some r → r.kind = .big size → (v + bigHeader, size) ∈ s.live
  nodup : (s.live.map Prod.fst).Nodup
  chains : ∀ idx, idx < slabNum → ChainOk s R idx

theorem Inv.apart (h : Inv s R) {v' : ℕ} (hv : R v = some r) (hv' : R v' = some r') (hne : v ≠ v') :
    v + r.pages * pageSize ≤ v' ∨ v' + r'.pages * pageSize ≤ v :=
  h.virt.apart v v' v r.pages v' r'.pages (by rw [hv]; rfl) (by rw [hv']; rfl) hne

theorem Inv.pages_pos (h : Inv s R) (hv : R v = some r) : 0 < r.pages :=
  (h.virt.aligned v v r.pages (by rw [hv]; rfl)).2

theorem Inv.aligned (h : Inv s R) (hv : R v = some r) : v % pageSize = 0 :=
  (h.virt.aligned v v r.pages (by rw [hv]; rfl)).1

theorem map_update (g : ℕ → Region → ℕ × ℕ) (R : ℕ → Option Region) (v : ℕ) (o : Option Region) :
    (fun k => (update R v o k).map (g k)) = update (fun k => (R k).map (g k)) v (o.map (g v)) := by
  funext k
  by_cases hk : k = v
  · subst hk
    rw [update_self, update_self]
  · rw [update_of_ne hk, update_of_ne hk]

/-- **The one change rule.**  An operation that works inside the bytes from `v` to `e`, which are
the region at `v` if there is one and apart from all others, has to establish the invariant for
that region only. -/
theorem Inv.replace (h : Inv s R) {e : ℕ} {o : Option Region}
    (hvirt : Spans pageSize (update (fun k => (R k).map fun r => (k, r.pages)) v
      (o.map fun r => (v, r.pages))) s'.mapped)
    (hphys : Spans pageSize (update (fun k => (R k).map fun r => (r.phys, r.pages)) v
      (o.map fun r => (r.phys, r.pages))) s'.held)
    (hold : ∀ r, R v = some r → e = v + r.pages * pageSize)
    (hap : ∀ k r, R k = some r → k ≠ v → k + r.pages * pageSize ≤ v ∨ e ≤ k)
    (hout : ∀ j, j < v ∨ e ≤ j → s'.mem j = s.mem j)
    (hlive : ∀ q, q.1 < v ∨ e ≤ q.1 → (q ∈ s'.live ↔ q ∈ s.live))
    (hin : ∀ q ∈ s'.live, v ≤ q.1 → q.1 < e → ∃ r, o = some r ∧ r.Owns v q.1 q.2 ∧ q.2 < 2 ^ 63)
    (hnew : ∀ r, o = some r → (0 < v ∧ v + r.pages * pageSize ≤ 2 ^ 64) ∧
      r.Ok s'.mem (ptrs s'.live) v ∧ ∀ size, r.kind = .big size → (v + bigHeader, size) ∈ s'.live)
    (hnodup : (s'.live.map Prod.fst).Nodup)
    (hchains : ∀ idx, idx < slabNum → ChainOk s' (update R v o) idx) : Inv s' (update R v o) := by
  -- a region other than `v` is as it was
  have hother : ∀ k r, R k = some r → k ≠ v →
      r.Ok s'.mem (ptrs s'.live) k ∧ ∀ j, k ≤ j → j < k + r.pages * pageSize → j < v ∨ e ≤ j := by
    intro k r hk hne
    have hsep : ∀ j, k ≤ j → j < k + r.pages * pageSize → j < v ∨ e ≤ j := by
      intro j hj hj'
      have := hap k r hk hne
      omega
    refine ⟨(h.ok k r hk).congr (fun j hj hj' => hout j (hsep j hj hj')) fun p hp hp' => ?_, hsep⟩
    refine exists_congr fun q => and_congr_left ?_
    rintro rfl
    exact hlive q (hsep q.1 hp hp')
  rw [← map_update fun k r => (k, r.pages)] at hvirt
  rw [← map_update fun _ r => (r.phys, r.pages)] at hphys
  refine ⟨hvirt, hphys, ?_, ?_, ?_, ?_, hnodup, hchains⟩
  · intro k r hk
    rw [update_apply] at hk
    split at hk
    case isTrue heq =>
      rw [heq]
      exact (hnew r hk).1
    case isFalse => exact h.top k r hk
  · intro k r hk
    rw [update_apply] at hk
    split at hk
    case isTrue heq =>
      rw [heq]
      exact (hnew r hk).2.1
    case isFalse hne => exact (hother k r hk hne).1
  · intro q hq
    by_cases hq' : v ≤ q.1 ∧ q.1 < e
    · obtain ⟨r, ho, hown⟩ := hin q hq hq'.1 hq'.2
      exact ⟨v, r, by rw [update_self, ho], hown⟩
    · have hqs := (hlive q (by omega)).mp hq
      obtain ⟨k, r, hk, hown, hlt⟩ := h.owned q hqs
      have hb := hown.bounds (h.ok k r hk)
      refine ⟨k, r, ?_, hown, hlt⟩
      rw [update_of_ne ?_, hk]
      rintro rfl
      have := hold r hk
      omega
  · intro k r size hk hkind
    rw [update_apply] at hk
    split at hk
    case isTrue heq =>
      rw [heq]
      exact (hnew r hk).2.2 size hkind
    case isFalse hne =>
      have hmem := h.big k r size hk hkind
      refine (hlive _ ?_).mpr hmem
      obtain ⟨-, hsep⟩ := hother k r hk hne
      have hpos := h.pages_pos hk
      refine hsep _ (Nat.le_add_right _ _) ?_
      simp only [bigHeader, pageSize]
      omega

/-- The slabs of `R'` are those of `R`. -/
def SameSlabs (R R' : ℕ → Option Region) : Prop := ∀ k, slabClass (R' k) = slabClass (R k)

theorem sameSlabs_update {o : Option Region} (ho : slabClass o = slabClass (R v)) :
    SameSlabs R (update R v o) := by
  intro k
  rw [update_apply]
  split
  case isTrue heq => rw [heq, ho]
  case isFalse => rfl

theorem Inv.keep_chain (h : Inv s R) {R' : ℕ → Option Region} {idx : ℕ} (hi : idx < slabNum)
    (hnext : ∀ k r free, R k = some r → r.kind = .slab idx free →
      (nextField k).get s'.mem = (nextField k).get s.mem) (hcache : s'.caches idx = s.caches idx)
    (hsame : ∀ k, slabClass (R' k) = some idx ↔ slabClass (R k) = some idx) :
    ChainOk s' R' idx := by
  obtain ⟨hs, hlink, hmem⟩ := h.chains idx hi
  refine ⟨hs, ?_, fun k => (hmem k).trans ?_⟩
  · rw [hcache]
    refine hlink.congr fun k hk => ?_
    obtain ⟨r, free, hR, hkind⟩ := (hmem k).mp hk
    exact hnext k r free hR hkind
  · rw [← slabClass_eq, ← slabClass_eq, hsame]

theorem Inv.keep_next (h : Inv s R) {e : ℕ} (hk : R k = some r)
    (hap : k + r.pages * pageSize ≤ v ∨ e ≤ k) (hout : ∀ j, j < v ∨ e ≤ j → mem' j = s.mem j) :
    (nextField k).get mem' = (nextField k).get s.mem := by
  have hpos := h.pages_pos hk
  refine Field.get_congr _ fun j hj hj' => hout j ?_
  simp only [nextField, pageSize] at hj hj' hap
  omega

/-! ### New regions -/

section

variable (h : Inv s R)
include h

/-- Fresh pages lie in no region and hold no live pointer. -/
theorem Inv.fresh {virt : ℕ} (hn : 0 < n) (ha : virt % pageSize = 0)
    (hf : ∀ i, i < n → s.mapped (virt + i * pageSize) = false) :
    R virt = none ∧ (∀ k r, R k = some r → k + r.pages * pageSize ≤ virt ∨
      virt + n * pageSize ≤ k) ∧
      ∀ p, virt ≤ p → p < virt + n * pageSize → ¬ ptrs s.live p := by
  have hap : ∀ k r, R k = some r → k + r.pages * pageSize ≤ virt ∨ virt + n * pageSize ≤ k := by
    intro k r hk
    exact (h.virt.fresh_apart (by decide) ha hn hf (by rw [hk]; rfl)).symm
  refine ⟨?_, hap, ?_⟩
  · cases hR : R virt with
    | none => rfl
    | some r =>
      have hpos := h.pages_pos hR
      have := hap virt r hR
      simp only [pageSize] at this
      omega
  · rintro p hp hp' ⟨q, hq, rfl⟩
    obtain ⟨k, r, hk, hown, -⟩ := h.owned q hq
    have hb := hown.bounds (h.ok k r hk)
    have := hap k r hk
    omega

theorem Inv.cache_lt {idx : ℕ} (hi : idx < slabNum) : s.caches idx < 2 ^ 64 := by
  obtain ⟨hs, hlink, hmem⟩ := h.chains idx hi
  cases hs with
  | nil =>
    rw [Linked] at hlink
    omega
  | cons k hs =>
    obtain ⟨r, -, hk, -⟩ := (hmem k).mp (by simp)
    have htop := (h.top k r hk).2
    have hpos := h.pages_pos hk
    rw [hlink.1]
    simp only [pageSize] at htop
    omega

theorem Inv.nodup_handOut (n : ℕ) (hp : ¬ ptrs s.live p) :
    (((p, n) :: s.live).map Prod.fst).Nodup :=
  nodup_cons.mpr ⟨fun hmem => hp (mem_map.mp hmem), h.nodup⟩

/-- **`slab_grow`** keeps the invariant. -/
theorem Inv.slabGrow {idx : ℕ} (hi : idx < slabNum) (hf : Fresh s 1 e) :
    ∃ R', Inv (slabGrow s idx e) R' ∧
      ∀ i k, slabClass (R' k) = some i → slabClass (R k) = some i ∨ i = idx ∧ k = e.virt := by
  rw [Kheap.slabGrow]
  by_cases hphys : e.phys = 0
  · exact ⟨R, by rw [if_pos hphys]; exact h, fun _ _ => .inl⟩
  by_cases hvirt : e.virt = 0
  · exact ⟨R, by rw [if_neg hphys, if_pos hvirt]; exact h, fun _ _ => .inl⟩
  rw [if_neg hphys, if_neg hvirt]
  obtain ⟨hva, hpa, htop, -, hmap, hheld⟩ := (hf.resolve_left hphys).resolve_left hvirt
  obtain ⟨hnone, hap, hdead⟩ := h.fresh Nat.one_pos hva hmap
  rw [Nat.one_mul] at htop hap hdead
  have hobjs : ∀ o ∈ slabObjs e.virt idx, ¬ ptrs s.live o := by
    intro o ho
    have hb := slabObjs_bounds hi ho
    have hroom := (slab_layout hi).2.1
    exact hdead o (by omega) (by omega)
  obtain ⟨hok, hnext, hframe⟩ := slabOk_grow hi htop (h.cache_lt hi) hobjs
    (blit s.mem e.virt e.fill (1 * pageSize))
  set mem' := newSlab e.virt idx (s.caches idx) (blit s.mem e.virt e.fill (1 * pageSize))
  have hout : ∀ j, j < e.virt ∨ e.virt + pageSize ≤ j → mem' j = s.mem j := fun j hj => by
    rw [hframe j hj, blit_apply_of_outside _ _ _ _ (by rw [Nat.one_mul]; exact hj)]
  set r0 : Region := ⟨e.phys, 1, .slab idx (slabObjs e.virt idx).reverse⟩ with hr0
  -- only the new slab is added
  have hadd : ∀ i k, slabClass (update R e.virt (some r0) k) = some i ↔
      slabClass (R k) = some i ∨ i = idx ∧ k = e.virt := by
    intro i k
    by_cases hk : k = e.virt
    · rw [hk, update_self, hnone]
      simp [hr0, slabClass, eq_comm]
    · simp [hk]
  refine ⟨update R e.virt (some r0), h.replace
    (h.virt.add (by decide) (by rw [hnone]; rfl) hva Nat.one_pos hmap)
    (h.phys.add (by decide) (by rw [hnone]; rfl) hpa Nat.one_pos hheld)
    (fun r hr => by cases hnone.symm.trans hr) (fun k r hk _ => hap k r hk) hout
    (fun _ _ => Iff.rfl) ?_ ?_ h.nodup ?_, fun i k => (hadd i k).mp⟩
  · intro q hq hlo hhi
    exact absurd ⟨q, hq, rfl⟩ (hdead q.1 hlo hhi)
  · intro r hr
    cases hr
    refine ⟨⟨Nat.pos_of_ne_zero hvirt, ?_⟩, ⟨hi, rfl, hok⟩, nofun⟩
    rw [Nat.one_mul]
    exact htop
  · intro i hi'
    by_cases heq : i = idx
    · subst heq
      -- the new slab is the first of its class
      obtain ⟨hs, hlink, hmem⟩ := h.chains i hi'
      refine ⟨e.virt :: hs, ⟨if_pos rfl, hvirt, ?_⟩, fun k => ?_⟩
      · show Linked nextField mem' ((nextField e.virt).get mem') hs
        rw [hnext]
        refine hlink.congr fun k hk => ?_
        obtain ⟨r, free, hR, -⟩ := (hmem k).mp hk
        exact h.keep_next hR (hap k r hR) hout
      · rw [mem_cons, hmem k, ← slabClass_eq, ← slabClass_eq, hadd, or_comm]
        simp
    · refine h.keep_chain hi' (fun k r free hR _ => h.keep_next hR (hap k r hR) hout) (if_neg heq)
        fun k => ?_
      simp [hadd, heq]

/-- **A big allocation** keeps the invariant. -/
theorem Inv.kmallocBig (hsize : size < 2 ^ 63) (hidx : sizeToIdx size = none)
    (hf : Fresh s (bigPages size) e) :
    ∃ R', Inv ((kmallocBig s size e).1.handOut (kmallocBig s size e).2 size) R' ∧
      SameSlabs R R' := by
  rw [Kheap.kmallocBig]
  by_cases hphys : e.phys = 0
  · exact ⟨R, by rw [if_pos hphys]; exact h, fun _ => rfl⟩
  by_cases hvirt : e.virt = 0
  · exact ⟨R, by rw [if_neg hphys, if_pos hvirt]; exact h, fun _ => rfl⟩
  rw [if_neg hphys, if_neg hvirt]
  obtain ⟨hva, hpa, htop, hplt, hmap, hheld⟩ := (hf.resolve_left hphys).resolve_left hvirt
  obtain ⟨hroom, hpos, hlt⟩ := bigPages_spec hsize
  obtain ⟨hnone, hap, hdead⟩ := h.fresh hpos hva hmap
  have hptr : e.virt + bigHeader ≠ 0 := by
    omega
  rw [HeapState.handOut, if_neg hptr]
  set mem0 := blit s.mem e.virt e.fill (bigPages size * pageSize)
  set mem' := (physBaseField e.virt).put e.phys ((npagesField e.virt).put (bigPages size)
    ((bigMagicField e.virt).put bigMagic mem0)) with hmem'
  have hmagic : (magicField e.virt).get mem' = bigMagic := by
    rw [hmem']
    simp (disch := (simp only [Field.Disjoint, physBaseField, npagesField, magicField]; omega)) only
      [Field.get_put_of_disjoint]
    exact getLe_setLe_mod mem0 e.virt bigMagic 8 4 (by decide)
  have hbase : (npagesField e.virt).get mem' = bigPages size ∧
      (physBaseField e.virt).get mem' = e.phys := by
    simp (disch := (simp only [Field.Disjoint, physBaseField, npagesField]; omega)) only
      [hmem', Field.get_put_of_disjoint, Field.get_put, and_self]
  have hout : ∀ j, j < e.virt ∨ e.virt + bigPages size * pageSize ≤ j → mem' j = s.mem j := by
    intro j hj
    have hj' : j < e.virt ∨ e.virt + 24 ≤ j := by
      simp only [bigHeader] at hroom
      omega
    simp (disch := (simp only [physBaseField, npagesField, bigMagicField]; omega)) only
      [hmem', Field.put_apply_of_outside]
    exact blit_apply_of_outside _ _ _ _ hj
  set r0 : Region := ⟨e.phys, bigPages size, .big size⟩ with hr0
  have hinside : e.virt + bigHeader < e.virt + bigPages size * pageSize := by
    simp only [bigHeader, pageSize]
    omega
  have hslabs : SameSlabs R (update R e.virt (some r0)) := sameSlabs_update (by rw [hnone]; rfl)
  refine ⟨update R e.virt (some r0), h.replace
    (h.virt.add (by decide) (by rw [hnone]; rfl) hva hpos hmap)
    (h.phys.add (by decide) (by rw [hnone]; rfl) hpa hpos hheld)
    (fun r hr => by cases hnone.symm.trans hr) (fun k r hk _ => hap k r hk) hout ?_ ?_ ?_
    (h.nodup_handOut size (hdead _ (Nat.le_add_right _ _) hinside)) ?_, hslabs⟩
  · intro q hq
    refine ⟨fun hmem => (mem_cons.mp hmem).resolve_left ?_, mem_cons_of_mem _⟩
    rintro rfl
    simp only at hq
    omega
  · intro q hq hlo hhi
    rcases mem_cons.mp hq with rfl | hq
    · exact ⟨r0, rfl, ⟨rfl, rfl⟩, hsize⟩
    · exact absurd ⟨q, hq, rfl⟩ (hdead q.1 hlo hhi)
  · intro r hr
    cases hr
    exact ⟨⟨Nat.pos_of_ne_zero hvirt, htop⟩, ⟨hmagic, hbase.1, hbase.2, rfl, hidx, hsize⟩,
      fun size' hk => by cases hk; exact mem_cons_self⟩
  · intro i hi
    exact h.keep_chain hi (fun k r free hR _ => h.keep_next hR (hap k r hR) hout) rfl
      fun k => by rw [hslabs]

/-! ### Changes inside a region -/

/-- An operation inside the region at `v` that leaves its place and its class. -/
theorem Inv.change (hv : R v = some r) (hphys : r'.phys = r.phys) (hpages : r'.pages = r.pages)
    (hclass : slabClass (some r') = slabClass (some r)) (hmapped : s'.mapped = s.mapped)
    (hheld : s'.held = s.held) (hcaches : s'.caches = s.caches)
    (hout : ∀ j, j < v ∨ v + r.pages * pageSize ≤ j → s'.mem j = s.mem j)
    (hnext : (∃ idx free, r.kind = .slab idx free) →
      (nextField v).get s'.mem = (nextField v).get s.mem)
    (hlive : ∀ q, q.1 < v ∨ v + r.pages * pageSize ≤ q.1 → (q ∈ s'.live ↔ q ∈ s.live))
    (hin : ∀ q ∈ s'.live, v ≤ q.1 → q.1 < v + r.pages * pageSize → r'.Owns v q.1 q.2 ∧ q.2 < 2 ^ 63)
    (hok : r'.Ok s'.mem (ptrs s'.live) v)
    (hbig : ∀ size, r'.kind = .big size → (v + bigHeader, size) ∈ s'.live)
    (hnodup : (s'.live.map Prod.fst).Nodup) :
    Inv s' (update R v (some r')) ∧ SameSlabs R (update R v (some r')) := by
  have hslabs : SameSlabs R (update R v (some r')) := sameSlabs_update (by rw [hclass, hv])
  refine ⟨?_, hslabs⟩
  have hsame : ∀ g : ℕ → Region → ℕ × ℕ, g v r' = g v r →
      update (fun k => (R k).map (g k)) v (some (g v r')) = fun k => (R k).map (g k) := by
    intro g hg
    rw [hg, ← Option.map_some, ← hv]
    exact update_eq_self v _
  have hap : ∀ k r1, R k = some r1 → k ≠ v →
      k + r1.pages * pageSize ≤ v ∨ v + r.pages * pageSize ≤ k :=
    fun k r1 hk hne => h.apart hk hv hne
  refine h.replace ?_ ?_ ?_ hap hout hlive ?_ ?_ hnodup ?_
  · rw [Option.map_some, hsame (fun k r => (k, r.pages)) (by rw [hpages]), hmapped]
    exact h.virt
  · rw [Option.map_some, hsame (fun _ r => (r.phys, r.pages)) (by rw [hphys, hpages]), hheld]
    exact h.phys
  · intro r1 hr1
    cases hv.symm.trans hr1
    rfl
  · exact fun q hq hlo hhi => ⟨r', rfl, hin q hq hlo hhi⟩
  · intro r1 hr1
    cases hr1
    rw [hpages]
    exact ⟨h.top v r hv, hok, hbig⟩
  · intro idx hi
    refine h.keep_chain hi (fun k r1 free hk hkind1 => ?_) (by rw [hcaches]) fun k => by rw [hslabs]
    by_cases hkv : k = v
    · subst hkv
      cases hv.symm.trans hk
      exact hnext ⟨idx, free, hkind1⟩
    · exact h.keep_next hk (hap k r1 hk hkv) hout

theorem Inv.owner (hv : R v = some r) {q : ℕ × ℕ} (hq : q ∈ s.live) (hlo : v ≤ q.1)
    (hhi : q.1 < v + r.pages * pageSize) : r.Owns v q.1 q.2 ∧ q.2 < 2 ^ 63 := by
  obtain ⟨k, r1, hk, hown, hlt⟩ := h.owned q hq
  have hb := hown.bounds (h.ok k r1 hk)
  by_cases hkv : k = v
  · subst hkv
    cases hv.symm.trans hk
    exact ⟨hown, hlt⟩
  · have := h.apart hk hv hkv
    omega

/-- The first slab of a class, when it has a free object. -/
theorem Inv.first {idx : ℕ} (hi : idx < slabNum) (hfree : ¬ noFree s (s.caches idx)) :
    ∃ phys o free, R (s.caches idx) = some ⟨phys, 1, .slab idx (o :: free)⟩ ∧
      SlabOk s.mem (ptrs s.live) (s.caches idx) idx (o :: free) := by
  rw [noFree, not_or] at hfree
  obtain ⟨hs, hlink, hmem⟩ := h.chains idx hi
  -- the cache leads to a slab of the class
  obtain ⟨⟨phys, pages, kind⟩, free, hv, rfl⟩ :
      ∃ r free, R (s.caches idx) = some r ∧ r.kind = .slab idx free := by
    cases hs with
    | nil => exact absurd hlink hfree.1
    | cons k hs =>
      rw [hlink.1]
      exact (hmem k).mp (by simp)
  obtain ⟨-, rfl, hslab⟩ := h.ok _ _ hv
  cases free with
  | nil => exact absurd hslab.count hfree.2
  | cons o free => exact ⟨phys, o, free, hv, hslab⟩

/-- **Taking an object from the first slab of a class** keeps the invariant. -/
theorem Inv.pop {idx : ℕ} (hn : sizeToIdx n = some idx) (hlt : n < 2 ^ 63)
    (hfree : ¬ noFree s (s.caches idx)) :
    ∃ R', Inv (HeapState.handOut { s with mem := popObj (s.caches idx) s.mem }
      ((freeListField (s.caches idx)).get s.mem) n) R' ∧ SameSlabs R R' := by
  have hi := (sizeToIdx_spec hn).1
  obtain ⟨phys, o, free, hv, hslab⟩ := h.first hi hfree
  set v := s.caches idx with hvdef
  obtain ⟨hhead, ho, -⟩ := hslab.chain
  obtain ⟨hobj, hdead⟩ := (hslab.free_iff o).mp (by simp)
  have hb := slabObjs_bounds hi hobj
  rw [hhead, HeapState.handOut, if_neg ho]
  have hout : ∀ j, j < v ∨ v + 1 * pageSize ≤ j → popObj v s.mem j = s.mem j := by
    intro j hj
    refine popObj_apply v s.mem ?_
    simp only [pageSize] at hj
    omega
  refine ⟨update R v (some ⟨phys, 1, .slab idx free⟩), h.change hv rfl rfl rfl rfl rfl rfl
    hout (fun _ => ?_) (fun q hq => ?_) (fun q hq hlo hhi => ?_)
    ⟨hi, rfl, hslab.pop hi fun o' ho' => ?_⟩ (by simp) (h.nodup_handOut n hdead)⟩
  · refine Field.get_congr _ fun j _ hj => popObj_apply v s.mem ?_
    simp only [nextField] at hj
    omega
  · refine ⟨fun hmem => (mem_cons.mp hmem).resolve_left ?_, mem_cons_of_mem _⟩
    rintro rfl
    simp only [slabHeader] at hq hb
    have hroom := (slab_layout hi).2.1
    omega
  · rcases mem_cons.mp hq with rfl | hq
    · exact ⟨⟨hn, hobj⟩, hlt⟩
    · exact h.owner hv hq hlo hhi
  · constructor
    · rintro ⟨q, hq, rfl⟩
      rcases mem_cons.mp hq with rfl | hq
      · exact .inr rfl
      · exact .inl ⟨q, hq, rfl⟩
    · rintro (⟨q, hq, rfl⟩ | rfl)
      · exact ⟨q, mem_cons_of_mem _ hq, rfl⟩
      · exact ⟨(o', n), mem_cons_self, rfl⟩

/-- **`kmalloc`** keeps the invariant. -/
theorem Inv.kmalloc (hsize : size < 2 ^ 63) (hf : Fresh s (request size) e) :
    ∃ R', Inv (exec s (.kmalloc size e)) R' ∧
      ∀ i k, slabClass (R' k) = some i → slabClass (R k) = some i ∨
        (size ≠ 0 ∧ sizeToIdx size = some i ∧ noFree s (s.caches i)) ∧ k = e.virt := by
  rw [exec, Kheap.kmalloc]
  by_cases hz : size = 0
  · exact ⟨R, by rw [if_pos hz]; exact h, fun _ _ => .inl⟩
  rw [if_neg hz]
  cases hidx : sizeToIdx size with
  | none =>
    rw [request, if_pos hidx] at hf
    obtain ⟨R', h', hsame⟩ := h.kmallocBig hsize hidx hf
    exact ⟨R', h', fun i k hk => .inl (hsame k ▸ hk)⟩
  | some idx =>
    rw [request, if_neg (by rw [hidx]; exact nofun)] at hf
    dsimp only
    set s1 := if noFree s (s.caches idx) then Kheap.slabGrow s idx e else s with hs1
    have hgrown : ∃ R1, Inv s1 R1 ∧ ∀ i k, slabClass (R1 k) = some i → slabClass (R k) = some i ∨
        (size ≠ 0 ∧ some idx = some i ∧ noFree s (s.caches i)) ∧ k = e.virt := by
      rw [hs1]
      split
      case isTrue hno =>
        obtain ⟨R1, h1, hnew⟩ := h.slabGrow (sizeToIdx_spec hidx).1 hf
        refine ⟨R1, h1, fun i k hk => (hnew i k hk).imp id ?_⟩
        rintro ⟨rfl, hv⟩
        exact ⟨⟨hz, rfl, hno⟩, hv⟩
      case isFalse => exact ⟨R, h, fun _ _ => .inl⟩
    obtain ⟨R1, h1, hnew⟩ := hgrown
    by_cases hno : noFree s1 (s1.caches idx)
    · rw [if_pos hno]
      exact ⟨R1, h1, hnew⟩
    · rw [if_neg hno]
      obtain ⟨R', h', hsame⟩ := h1.pop hidx hsize hno
      exact ⟨R', h', fun i k hk => hnew i k (hsame k ▸ hk)⟩

/-! ### Giving back -/

theorem Inv.ne_zero {q : ℕ × ℕ} (hq : q ∈ s.live) : q.1 ≠ 0 := by
  obtain ⟨v, r, hv, hown, -⟩ := h.owned q hq
  have hb := hown.bounds (h.ok v r hv)
  have := h.top v r hv
  omega

end

theorem pageBase_eq {v : ℕ} (ha : v % pageSize = 0) (hlo : v ≤ p) (hhi : p < v + pageSize) :
    pageBase p = v := by
  simp only [pageBase, pageSize] at ha hhi ⊢
  omega

theorem mem_given {live : List (ℕ × ℕ)} {q : ℕ × ℕ} :
    q ∈ live.filter (fun q => decide (q.1 ≠ p)) ↔ q ∈ live ∧ q.1 ≠ p := by
  rw [mem_filter, decide_eq_true_eq]

theorem Inv.nodup_given (h : Inv s R) (p : ℕ) :
    ((s.live.filter fun q => decide (q.1 ≠ p)).map Prod.fst).Nodup :=
  h.nodup.sublist (filter_sublist.map _)

/-- Giving back an object of a slab. -/
theorem Inv.freeObj (h : Inv s R) {phys idx : ℕ} {free : List ℕ}
    (hv : R v = some ⟨phys, 1, .slab idx free⟩) (hobj : p ∈ slabObjs v idx) (hp : ptrs s.live p) :
    ∃ R', Inv { s with
      mem := pushObj v p s.mem
      live := s.live.filter fun q => decide (q.1 ≠ p) } R' ∧ SameSlabs R R' := by
  obtain ⟨hi, -, hslab⟩ := h.ok v _ hv
  have hb := slabObjs_bounds hi hobj
  have htop := (h.top v _ hv).2
  have hroom := (slab_layout hi).2.1
  simp only [slabHeader] at hb
  rw [Nat.one_mul] at htop
  refine ⟨update R v (some ⟨phys, 1, .slab idx (p :: free)⟩), h.change hv rfl rfl
    rfl rfl rfl rfl (fun j hj => ?_) (fun _ => ?_) (fun q hq => ?_)
    (fun q hq hlo hhi => h.owner hv (mem_given.mp hq).1 hlo hhi)
    ⟨hi, rfl, hslab.push hi hobj (by omega) hp fun o' ho' => ?_⟩ (by simp)
    (h.nodup_given p)⟩
  · simp only [pageSize] at hj hb
    exact pushObj_apply v p s.mem (by omega) (by omega)
  · refine Field.get_congr _ fun j _ hj => ?_
    simp only [nextField] at hj
    exact pushObj_apply v p s.mem (by omega) (by omega)
  · rw [mem_given]
    refine ⟨fun hq' => hq'.1, fun hq' => ⟨hq', ?_⟩⟩
    rintro rfl
    simp only at hq
    omega
  · constructor
    · rintro ⟨q, hq, rfl⟩
      exact ⟨⟨q, (mem_given.mp hq).1, rfl⟩, (mem_given.mp hq).2⟩
    · rintro ⟨⟨q, hq, rfl⟩, hne⟩
      exact ⟨q, mem_given.mpr ⟨hq, hne⟩, rfl⟩

/-- Giving back a big allocation. -/
theorem Inv.freeBig (h : Inv s R) {phys pages : ℕ} (hv : R v = some ⟨phys, pages, .big size⟩) :
    ∃ R', Inv { s.unmap pages v phys with
      live := s.live.filter fun q => decide (q.1 ≠ v + bigHeader) } R' ∧ SameSlabs R R' := by
  have hpos := h.pages_pos hv
  have hslabs : SameSlabs R (update R v none) := sameSlabs_update (by rw [hv]; rfl)
  refine ⟨update R v none, h.replace (h.virt.remove (by rw [hv]; rfl))
    (h.phys.remove (by rw [hv]; rfl)) (fun r hr => by cases hv.symm.trans hr; rfl)
    (fun k r hk hne => h.apart hk hv hne) (fun _ _ => rfl)
    (fun q hq => ?_) (fun q hq hlo hhi => ?_) (nofun) (h.nodup_given _)
    fun idx hi => h.keep_chain hi (fun _ _ _ _ _ => rfl) rfl fun k => by rw [hslabs], hslabs⟩
  · rw [mem_given]
    refine ⟨fun hq' => hq'.1, fun hq' => ⟨hq', fun heq => ?_⟩⟩
    rw [heq] at hq
    simp only [bigHeader, pageSize] at hq hpos
    omega
  · -- the only allocation in the region is the one that was given back
    obtain ⟨hlive, hne⟩ := mem_given.mp hq
    exact absurd (h.owner hv hlive hlo hhi).1.2 hne

/-- **`kfree`** keeps the invariant. -/
theorem Inv.kfree (h : Inv s R) (hp : p = 0 ∨ ptrs s.live p) :
    ∃ R', Inv (exec s (.kfree p)) R' ∧ SameSlabs R R' := by
  rw [exec, Kheap.kfree]
  by_cases hz : p = 0
  · refine ⟨R, ?_, fun _ => rfl⟩
    rw [if_pos hz, filter_eq_self.mpr fun q hq => decide_eq_true (hz ▸ h.ne_zero hq)]
    exact h
  rw [if_neg hz]
  obtain ⟨q, hq, rfl⟩ := hp.resolve_left hz
  obtain ⟨v, ⟨phys, pages, kind⟩, hv, hown, -⟩ := h.owned q hq
  have hok := h.ok v _ hv
  have halign := h.aligned hv
  cases kind with
  | slab idx free =>
    obtain ⟨hi, rfl, hslab⟩ := hok
    have hb := slabObjs_bounds hi hown.2
    have hroom := (slab_layout hi).2.1
    rw [pageBase_eq halign (by omega) (by omega), if_neg (by rw [hslab.magic]; decide)]
    exact h.freeObj hv hown.2 ⟨q, hq, rfl⟩
  | big size =>
    obtain ⟨hmagic, hnpages, hbase, -⟩ := hok
    obtain ⟨-, heq⟩ := hown
    rw [heq, pageBase_eq halign (Nat.le_add_right _ _) (by simp only [bigHeader, pageSize]; omega),
      if_pos hmagic, hnpages, hbase]
    exact h.freeBig hv

/-- **A store into a live allocation** keeps the invariant. -/
theorem Inv.store (h : Inv s R) {q : ℕ × ℕ} (hq : q ∈ s.live) {a : ℕ} (hlo : q.1 ≤ a)
    (hhi : a < q.1 + q.2) (x : UInt8) : ∃ R', Inv (exec s (.store a x)) R' ∧ SameSlabs R R' := by
  obtain ⟨v, ⟨phys, pages, kind⟩, hv, hown, hlt⟩ := h.owned q hq
  have hok := h.ok v _ hv
  have hb := hown.bounds hok
  have hcap := le_capacity hlt
  simp only [bigHeader] at hb
  have hagree : ∀ j, j ≠ a → blit s.mem a (fun _ => x) 1 j = s.mem j :=
    fun j hj => blit_apply_of_outside _ _ _ _ (by omega)
  have hget : ∀ f : Field, f.off + f.width ≤ v + 24 →
      f.get (blit s.mem a (fun _ => x) 1) = f.get s.mem :=
    fun f hf => f.get_congr fun j _ hj => hagree j (by omega)
  refine ⟨update R v (some ⟨phys, pages, kind⟩), h.change hv rfl rfl rfl rfl
    rfl rfl (fun j hj => hagree j (by dsimp only at hj; omega))
    (fun _ => hget _ (by simp only [nextField]; omega)) (fun _ _ => Iff.rfl)
    (fun q' hq' hlo' hhi' => h.owner hv hq' hlo' hhi') ?_ (fun size hk => h.big v _ size hv hk)
    h.nodup⟩
  cases kind with
  | slab idx free =>
    obtain ⟨hi, hpages, hslab⟩ := hok
    have hobj := slabObjs_bounds hi hown.2
    have hroom := (slab_layout hi).2.1
    have hsize := (sizeToIdx_spec hown.1).2
    refine ⟨hi, hpages, hslab.congr (fun j _ hj => hagree j (by omega))
      (fun o ho j hj hj' => hagree j ?_) fun _ _ => Iff.rfl⟩
    -- the object that is written is live, so it is not one of the free ones
    obtain ⟨hobj', hdead⟩ := (hslab.free_iff o).mp ho
    have hne : o ≠ q.1 := fun heq => hdead ⟨q, hq, heq.symm⟩
    have := slabObjs_apart hobj' hown.2 hne
    omega
  | big size =>
    obtain ⟨h1, h2, h3, h4⟩ := hok
    refine ⟨(hget _ ?_).trans h1, (hget _ ?_).trans h2, (hget _ ?_).trans h3, h4⟩
    all_goals
      simp only [magicField, npagesField, physBaseField]
      omega

/-- The call asks for an object of class `idx` when the first slab has none. -/
def Grows (s : HeapState) (idx : ℕ) : Call → Prop
  | .kmalloc size _ => size ≠ 0 ∧ sizeToIdx size = some idx ∧ noFree s (s.caches idx)
  | _ => False

/-- **One call** keeps the invariant.  It makes one slab at most, of the class that grows. -/
theorem Inv.exec (h : Inv s R) {c : Call} (hl : Legit s c) :
    ∃ R' v, Inv (exec s c) R' ∧ ∀ idx k, slabClass (R' k) = some idx →
      slabClass (R k) = some idx ∨ Grows s idx c ∧ k = v := by
  cases c with
  | kmalloc size e =>
    obtain ⟨R', h', hnew⟩ := h.kmalloc hl.1 hl.2
    exact ⟨R', e.virt, h', hnew⟩
  | kfree p =>
    obtain ⟨R', h', hsame⟩ := h.kfree hl
    exact ⟨R', 0, h', fun idx k hk => .inl (hsame k ▸ hk)⟩
  | store a x =>
    obtain ⟨q, hq, hlo, hhi⟩ := hl
    obtain ⟨R', h', hsame⟩ := h.store hq hlo hhi x
    exact ⟨R', 0, h', fun idx k hk => .inl (hsame k ▸ hk)⟩

theorem inv_step (s : HeapState) (c : Call) (s' : HeapState) (h : ∃ R, Inv s R) (hl : Legit s c)
    (hst : step s c s') : ∃ R, Inv s' R := by
  obtain ⟨R, hR⟩ := h
  obtain ⟨R', -, h', -⟩ := hR.exec hl
  exact ⟨R', hst ▸ h'⟩

/-- **`slab_init`** establishes the invariant, with one slab of each class at most. -/
theorem inv_slabInit {es : ℕ → Env} (n : ℕ) (hn : n ≤ slabNum)
    (hf : ∀ i, i < n → Fresh (slabInit mem es i) 1 (es i)) : ∃ R, Inv (slabInit mem es n) R ∧
      ∀ idx k, slabClass (R k) = some idx → idx < n ∧ k = (es idx).virt := by
  induction n with
  | zero =>
    exact ⟨fun _ => none, ⟨spans_empty, spans_empty, nofun, nofun, nofun, nofun, nodup_nil,
      fun idx _ => ⟨[], rfl, fun k => ⟨nofun, nofun⟩⟩⟩, nofun⟩
  | succ n ih =>
    obtain ⟨R, h, hold⟩ := ih (by omega) fun i hi => hf i (by omega)
    obtain ⟨R', h', hnew⟩ := h.slabGrow hn (hf n (Nat.lt_succ_self n))
    refine ⟨R', h', fun idx k hk => ?_⟩
    rcases hnew idx k hk with hk | ⟨rfl, hk⟩
    · exact (hold idx k hk).imp (by omega) id
    · exact ⟨by omega, hk⟩

/-! ### The result -/

/-- **What is said of the heap.** -/
structure HeapOk (s : HeapState) : Prop where
  /-- Each allocation is as large as was asked for, and its pages are mapped. -/
  room : ∀ q ∈ s.live, q.2 ≤ capacity q.2
  mapped : ∀ q ∈ s.live, ∀ a, q.1 ≤ a → a < q.1 + capacity q.2 → s.mapped (pageBase a) = true
  /-- No two share a byte. -/
  apart : s.live.Pairwise fun q q' =>
    q.1 + capacity q.2 ≤ q'.1 ∨ q'.1 + capacity q'.2 ≤ q.1
  /-- None reaches into the header of a big allocation. -/
  bigHeaders : ∀ q ∈ s.live, sizeToIdx q.2 = none → ∀ q' ∈ s.live,
    q'.1 + capacity q'.2 ≤ q.1 - bigHeader ∨ q.1 ≤ q'.1
  /-- None reaches into the header of a slab, and every slab's free list is in order. -/
  slabs : ∀ idx, idx < slabNum → ∃ hs, Linked nextField s.mem (s.caches idx) hs ∧ ∀ h ∈ hs,
    (∀ q ∈ s.live, q.1 + capacity q.2 ≤ h ∨ h + slabHeader ≤ q.1) ∧
      ∃ free, SlabOk s.mem (ptrs s.live) h idx free

/-- Two live allocations share no byte. -/
theorem Inv.live_apart (h : Inv s R) {q q' : ℕ × ℕ} (hq : q ∈ s.live) (hq' : q' ∈ s.live)
    (hne : q.1 ≠ q'.1) : q.1 + capacity q.2 ≤ q'.1 ∨ q'.1 + capacity q'.2 ≤ q.1 := by
  obtain ⟨v, ⟨phys, pages, kind⟩, hv, hown, -⟩ := h.owned q hq
  obtain ⟨v', r', hv', hown', -⟩ := h.owned q' hq'
  have hb := hown.bounds (h.ok v _ hv)
  have hb' := hown'.bounds (h.ok v' _ hv')
  by_cases hvv : v = v'
  · subst hvv
    cases hv.symm.trans hv'
    cases kind with
    | slab idx free =>
      have hcap : ∀ n, sizeToIdx n = some idx → capacity n = slabSize idx := fun n hn => by
        rw [capacity, hn]
      rw [hcap _ hown.1, hcap _ hown'.1]
      exact slabObjs_apart hown.2 hown'.2 hne
    | big size => exact absurd (hown.2.trans hown'.2.symm) hne
  · have := h.apart hv hv' hvv
    omega

/-- No live allocation reaches into the header of a region: its first bytes, before the first
allocation that it can hold. -/
theorem Inv.header_apart (h : Inv s R) (hv : R v = some r) {hdr : ℕ}
    (hhdr : hdr ≤ r.pages * pageSize) (hown : ∀ p n, r.Owns v p n → v + hdr ≤ p) {q : ℕ × ℕ}
    (hq : q ∈ s.live) : q.1 + capacity q.2 ≤ v ∨ v + hdr ≤ q.1 := by
  obtain ⟨v', r', hv', hown', -⟩ := h.owned q hq
  have hb' := hown'.bounds (h.ok v' r' hv')
  by_cases hvv : v = v'
  · subst hvv
    cases hv.symm.trans hv'
    exact .inr (hown _ _ hown')
  · have := h.apart hv hv' hvv
    omega

theorem Inv.heapOk (h : Inv s R) : HeapOk s where
  room := fun q hq => by
    obtain ⟨_, _, _, _, hlt⟩ := h.owned q hq
    exact le_capacity hlt
  mapped := fun q hq a hlo hhi => by
    obtain ⟨v, r, hv, hown, -⟩ := h.owned q hq
    have hb := hown.bounds (h.ok v r hv)
    have ha := h.aligned hv
    refine (h.virt.covers _).mpr ⟨v, v, r.pages, by rw [hv]; rfl, ?_⟩
    simp only [pageBase, pageSize, bigHeader] at ha hb ⊢
    exact inSpan_of_aligned ha (by omega) (by omega) (by omega)
  apart := by
    have hnd : s.live.Pairwise fun q q' => q.1 ≠ q'.1 := pairwise_map.mp h.nodup
    exact hnd.imp_of_mem fun hq hq' hne => h.live_apart hq hq' hne
  bigHeaders := fun q hq hidx q' hq' => by
    obtain ⟨v, ⟨phys, pages, kind⟩, hv, hown, -⟩ := h.owned q hq
    have hb := hown.bounds (h.ok v _ hv)
    cases kind with
    | slab idx free =>
      have := hown.1
      rw [hidx] at this
      cases this
    | big size =>
      have hdr := h.header_apart hv (show bigHeader ≤ pages * pageSize by dsimp only at hb; omega)
        (fun p n hpn => Nat.le_of_eq hpn.2.symm) hq'
      rw [hown.2, Nat.add_sub_cancel]
      exact hdr
  slabs := fun idx hi => by
    obtain ⟨hs, hlink, hmem⟩ := h.chains idx hi
    refine ⟨hs, hlink, fun v hv => ?_⟩
    obtain ⟨⟨phys, pages, kind⟩, free, hR, hkind⟩ := (hmem v).mp hv
    simp only at hkind
    subst hkind
    obtain ⟨-, hpages, hslab⟩ := h.ok v _ hR
    simp only at hpages
    subst hpages
    exact ⟨fun q hq => h.header_apart hR (show slabHeader ≤ 1 * pageSize by decide)
      (fun p n hpn => (slabObjs_bounds hi hpn.2).1) hq, free, hslab⟩

/-- **The kernel heap of every run.**  After `slab_init`, any requests below `2^63` bytes, any
pointers given back while live and any stores into live allocations, with fresh pages from the
frame allocator and the mapper, the heap is as `HeapOk` says. -/
theorem heap_ok_of_run (mem : Buffer) (es : ℕ → Env)
    (hes : ∀ i, i < slabNum → Fresh (slabInit mem es i) 1 (es i)) {cs : List Call} {s : HeapState}
    (hrun : RunIn Legit step (slabInit mem es slabNum) cs s) : HeapOk s := by
  obtain ⟨R0, h0, -⟩ := inv_slabInit slabNum (Nat.le_refl _) hes
  obtain ⟨R, h⟩ := hrun.invariant (fun s => ∃ R, Inv s R) inv_step ⟨R0, h0⟩
  exact h.heapOk

/-- A heap whose first slabs could not be made, one request from a slab and a big one, and the
first pointer given back and handed out again. -/
def sampleCalls : List Call :=
  [.kmalloc 1000 ⟨4096, 0x100000000, fun _ => 0xff⟩,
    .kmalloc 5000 ⟨8192, 0x100001000, fun _ => 0xff⟩,
    .store 0x100000c00 1, .store 0x10000239f 1, .kfree 0x100000c00, .kmalloc 600 ⟨0, 0, fun _ => 0⟩,
    .kfree 0x100001018]

/-- No frame at all. -/
def noFrames : ℕ → Env := fun _ => ⟨0, 0, fun _ => 0⟩

theorem heap_ok_of_run_sample :
    allMet exec Legit (slabInit (fun _ => 0) noFrames slabNum) sampleCalls = true ∧
      HeapOk (sampleCalls.foldl exec (slabInit (fun _ => 0) noFrames slabNum)) := by
  have hmet : allMet exec Legit (slabInit (fun _ => 0) noFrames slabNum) sampleCalls = true := by
    decide +kernel
  exact ⟨hmet, heap_ok_of_run (fun _ => 0) noFrames (fun _ _ => .inl rfl) (runIn_foldl hmet)⟩

end AxiomeOS.Kheap
