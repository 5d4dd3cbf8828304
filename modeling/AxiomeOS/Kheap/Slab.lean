import Mathlib.Data.List.Nodup
import Mathlib.Data.List.Perm.Subperm
import AxiomeOS.Lib.Bytes
import AxiomeOS.Lib.Spans

/-!
# The kernel heap: slabs and big allocations

`kernel/slab.c` serves requests of up to 1024 bytes from slabs: pages that start with a header and
hold objects of one size, the free ones linked through their own first bytes.  Larger requests get
whole pages, with a header in front.  `kfree` finds out which of the two a pointer belongs to from
the magic number at the start of its page.

The model is a byte memory addressed by kernel virtual addresses.  What the frame allocator and
the mapper answer is a parameter of each call, together with the contents of the pages they hand
out; which pages are mapped and which frames are held is kept in the state.

This file has the functions, and what they do to one slab:

* `growLoop_spec`: a new slab's free list goes through all its objects;
* `slabOk_grow`, `SlabOk.pop`, `SlabOk.push`: making a slab, taking an object off its free list and
  putting one back.
-/

namespace AxiomeOS.Kheap

open Bytes Lib List

/-! ### Layout -/

/-- `PAGE_SIZE`. -/
def pageSize : ℕ := 4096

/-- `SLAB_MAGIC`. -/
def slabMagic : ℕ := 0xDEADBEEF

/-- `BIG_MAGIC`. -/
def bigMagic : ℕ := 0xB16B1E

/-- `sizeof(struct slab_header)`. -/
def slabHeader : ℕ := 32

/-- `sizeof(struct big_hdr)`. -/
def bigHeader : ℕ := 24

/-- `SLAB_NUM`. -/
def slabNum : ℕ := 6

/-- `slab_sizes[idx]`, as `slab_init` fills it in. -/
def slabSize (idx : ℕ) : ℕ := 2 ^ (5 + idx)

/-- `struct slab_header`: `uint32_t magic`. -/
def magicField (a : ℕ) : Field := ⟨a, 4⟩

/-- `struct slab_header *next`. -/
def nextField (a : ℕ) : Field := ⟨a + 8, 8⟩

/-- `void *free_list`. -/
def freeListField (a : ℕ) : Field := ⟨a + 16, 8⟩

/-- `int obj_size`. -/
def objSizeField (a : ℕ) : Field := ⟨a + 24, 4⟩

/-- `int free_count`. -/
def freeCountField (a : ℕ) : Field := ⟨a + 28, 4⟩

/-- The link in a free object. -/
def linkField (o : ℕ) : Field := ⟨o, 8⟩

/-- `struct big_hdr`: `uint64_t magic`. -/
def bigMagicField (a : ℕ) : Field := ⟨a, 8⟩

/-- `uint64_t npages`. -/
def npagesField (a : ℕ) : Field := ⟨a + 8, 8⟩

/-- `uint64_t phys_base`. -/
def physBaseField (a : ℕ) : Field := ⟨a + 16, 8⟩

/-! ### The state -/

/-- The kernel heap. -/
structure HeapState where
  mem : Buffer
  /-- `slab_caches`. -/
  caches : ℕ → ℕ
  /-- The heap pages that are mapped, by address. -/
  mapped : ℕ → Bool
  /-- The frames that the frame allocator has handed to the heap, by address. -/
  held : ℕ → Bool
  /-- History: the pointers handed out and not given back, with the sizes asked for. -/
  live : List (ℕ × ℕ)

/-- What `pmm` and `vmm` answer to a request: the frames' address and the mapping's address, 0 for
failure, and what the pages hold. -/
structure Env where
  phys : ℕ
  virt : ℕ
  fill : ℕ → UInt8

/-- `pmm_alloc_frames` and `vmm_mmap_phys`: `n` frames are taken and their pages appear. -/
def HeapState.map (s : HeapState) (n : ℕ) (e : Env) : HeapState :=
  { s with
    mem := blit s.mem e.virt e.fill (n * pageSize)
    mapped := fun a => s.mapped a || inSpan pageSize e.virt n a
    held := fun a => s.held a || inSpan pageSize e.phys n a }

/-- `vmm_unmap_page` on `n` pages and `pmm_free_frames`. -/
def HeapState.unmap (s : HeapState) (n virt phys : ℕ) : HeapState :=
  { s with
    mapped := fun a => s.mapped a && !inSpan pageSize virt n a
    held := fun a => s.held a && !inSpan pageSize phys n a }

/-! ### The functions -/

/-- `size_to_idx`, from index `i` on. -/
def sizeToIdxFrom (size : ℕ) : ℕ → ℕ → Option ℕ
  | 0, _ => none
  | k + 1, i => if size ≤ slabSize i then some i else sizeToIdxFrom size k (i + 1)

/-- `size_to_idx`. -/
def sizeToIdx (size : ℕ) : Option ℕ := sizeToIdxFrom size slabNum 0

/-- `data_start` of `slab_grow`. -/
def dataStart (objSize : ℕ) : ℕ := (slabHeader + objSize - 1) / objSize * objSize

/-- `count` of `slab_grow`. -/
def objCount (objSize : ℕ) : ℕ := (pageSize - dataStart objSize) / objSize

/-- The loop of `slab_grow`: `n` objects from `cur` on are put on the free list. -/
def growLoop (hdr objSize : ℕ) : ℕ → Buffer → ℕ → Buffer
  | 0, mem, _ => mem
  | n + 1, mem, cur =>
    let m₁ := (linkField cur).put ((freeListField hdr).get mem) mem
    let m₂ := (freeListField hdr).put cur m₁
    let m₃ := (freeCountField hdr).put ((freeCountField hdr).get m₂ + 1) m₂
    growLoop hdr objSize n m₃ (cur + objSize)

/-- The header that `slab_grow` writes before the loop. -/
def newHeader (hdr objSize next : ℕ) (mem : Buffer) : Buffer :=
  let m₁ := (magicField hdr).put slabMagic mem
  let m₂ := (freeListField hdr).put 0 m₁
  let m₃ := (objSizeField hdr).put objSize m₂
  let m₄ := (freeCountField hdr).put 0 m₃
  (nextField hdr).put next m₄

/-- The page that `slab_grow` makes into a slab of size class `idx`. -/
def newSlab (hdr idx next : ℕ) (mem : Buffer) : Buffer :=
  growLoop hdr (slabSize idx) (objCount (slabSize idx)) (newHeader hdr (slabSize idx) next mem)
    (hdr + dataStart (slabSize idx))

/-- `slab_grow`.  When the page cannot be mapped its frame goes back. -/
def slabGrow (s : HeapState) (idx : ℕ) (e : Env) : HeapState :=
  if e.phys = 0 then s
  else if e.virt = 0 then s
  else
    let s := s.map 1 e
    { s with
      mem := newSlab e.virt idx (s.caches idx) s.mem
      caches := fun i => if i = idx then e.virt else s.caches i }

/-- `npages` of a big allocation. -/
def bigPages (size : ℕ) : ℕ := (size + bigHeader + pageSize - 1) % 2 ^ 64 / pageSize

/-- The part of `kmalloc` for large requests. -/
def kmallocBig (s : HeapState) (size : ℕ) (e : Env) : HeapState × ℕ :=
  if e.phys = 0 then (s, 0)
  else if e.virt = 0 then (s, 0)
  else
    let s := s.map (bigPages size) e
    let m₁ := (bigMagicField e.virt).put bigMagic s.mem
    let m₂ := (npagesField e.virt).put (bigPages size) m₁
    ({ s with mem := (physBaseField e.virt).put e.phys m₂ }, e.virt + bigHeader)

/-- `!hdr || hdr->free_count == 0`. -/
def noFree (s : HeapState) (hdr : ℕ) : Prop := hdr = 0 ∨ (freeCountField hdr).get s.mem = 0

instance (s : HeapState) (hdr : ℕ) : Decidable (noFree s hdr) := by
  unfold noFree
  infer_instance

/-- Taking the first object off the free list of the slab `hdr`. -/
def popObj (hdr : ℕ) (mem : Buffer) : Buffer :=
  let m₁ := (freeListField hdr).put ((linkField ((freeListField hdr).get mem)).get mem) mem
  (freeCountField hdr).put ((freeCountField hdr).get m₁ - 1) m₁

/-- `kmalloc`: the heap after the call and the pointer. -/
def kmalloc (s : HeapState) (size : ℕ) (e : Env) : HeapState × ℕ :=
  if size = 0 then (s, 0)
  else
    match sizeToIdx size with
    | none => kmallocBig s size e
    | some idx =>
      let s := if noFree s (s.caches idx) then slabGrow s idx e else s
      if noFree s (s.caches idx) then (s, 0)
      else
        ({ s with mem := popObj (s.caches idx) s.mem },
          (freeListField (s.caches idx)).get s.mem)

/-- Putting the object `o` back on the free list of the slab `hdr`. -/
def pushObj (hdr o : ℕ) (mem : Buffer) : Buffer :=
  let m₁ := (linkField o).put ((freeListField hdr).get mem) mem
  let m₂ := (freeListField hdr).put o m₁
  (freeCountField hdr).put ((freeCountField hdr).get m₂ + 1) m₂

/-- `page_base`: the address with its low 12 bits cleared. -/
def pageBase (p : ℕ) : ℕ := p / pageSize * pageSize

/-- `kfree`. -/
def kfree (s : HeapState) (p : ℕ) : HeapState :=
  if p = 0 then s
  else if (magicField (pageBase p)).get s.mem = bigMagic then
    s.unmap ((npagesField (pageBase p)).get s.mem) (pageBase p)
      ((physBaseField (pageBase p)).get s.mem)
  else { s with mem := pushObj (pageBase p) p s.mem }

/-! ### One slab -/

/-- Two memories agree on `n` bytes from `a` on. -/
def AgreeOn (mem mem' : Buffer) (a n : ℕ) : Prop := ∀ j, a ≤ j → j < a + n → mem' j = mem j

variable {mem mem' : Buffer} {h idx j n o objSize : ℕ}

theorem AgreeOn.get {a : ℕ} (h : AgreeOn mem mem' a n) {f : Field}
    (hlo : a ≤ f.off) (hhi : f.off + f.width ≤ a + n) : f.get mem' = f.get mem :=
  f.get_congr fun j h1 h2 => h j (by omega) (by omega)

/-- Following the field `f` from `p` goes through exactly these records and ends at 0. -/
def Linked (f : ℕ → Field) (mem : Buffer) : ℕ → List ℕ → Prop
  | p, [] => p = 0
  | p, o :: l => p = o ∧ o ≠ 0 ∧ Linked f mem ((f o).get mem) l

theorem Linked.congr {f : ℕ → Field} {p : ℕ} {l : List ℕ}
    (h : Linked f mem p l) (hm : ∀ o ∈ l, (f o).get mem' = (f o).get mem) : Linked f mem' p l := by
  induction l generalizing p with
  | nil => exact h
  | cons o l ih =>
    refine ⟨h.1, h.2.1, ?_⟩
    rw [hm o (by simp)]
    exact ih h.2.2 fun o' ho' => hm o' (mem_cons_of_mem o ho')

/-- The objects of a slab: `n` of them from `cur` on. -/
def objs (objSize : ℕ) : ℕ → ℕ → List ℕ
  | 0, _ => []
  | n + 1, cur => cur :: objs objSize n (cur + objSize)

theorem mem_objs {cur : ℕ} : o ∈ objs objSize n cur ↔ ∃ i, i < n ∧ o = cur + i * objSize := by
  induction n generalizing cur with
  | zero => simp [objs]
  | succ n ih =>
    rw [objs, mem_cons, ih]
    constructor
    · rintro (rfl | ⟨i, hi, rfl⟩)
      · exact ⟨0, by omega, by omega⟩
      · exact ⟨i + 1, by omega, by rw [Nat.add_mul]; omega⟩
    · rintro ⟨i, hi, rfl⟩
      cases i with
      | zero => left; omega
      | succ i => right; exact ⟨i, by omega, by rw [Nat.add_mul]; omega⟩

theorem objs_nodup (hpos : 0 < objSize) (n cur : ℕ) : (objs objSize n cur).Nodup := by
  induction n generalizing cur with
  | zero => exact nodup_nil
  | succ n ih =>
    refine nodup_cons.mpr ⟨fun hmem => ?_, ih _⟩
    obtain ⟨i, -, hi⟩ := mem_objs.mp hmem
    omega

theorem length_objs (objSize n cur : ℕ) : (objs objSize n cur).length = n := by
  induction n generalizing cur with
  | zero => rfl
  | succ n ih => rw [objs, length_cons, ih]

theorem pushObj_apply (h o : ℕ) (mem : Buffer)
    (hj : j < h + 16 ∨ (h + 24 ≤ j ∧ j < h + 28) ∨ h + 32 ≤ j) (ho : j < o ∨ o + 8 ≤ j) :
    pushObj h o mem j = mem j := by
  rw [pushObj, Field.put_apply_of_outside _ _ _ (by simp only [freeCountField]; omega),
    Field.put_apply_of_outside _ _ _ (by simp only [freeListField]; omega),
    Field.put_apply_of_outside _ _ _ (by simp only [linkField]; omega)]

/-- The free list, the link and the count after `o` is pushed. -/
theorem pushObj_fields (mem : Buffer) (ho : h + slabHeader ≤ o) (htop : o < 2 ^ 64)
    (hc : (freeCountField h).get mem + 1 < 2 ^ 32) : (freeListField h).get (pushObj h o mem) = o ∧
      (linkField o).get (pushObj h o mem) = (freeListField h).get mem ∧
      (freeCountField h).get (pushObj h o mem) = (freeCountField h).get mem + 1 := by
  have hlist := Field.get_lt (freeListField h) mem
  simp only [slabHeader] at ho
  simp only [freeListField] at hlist
  simp only [freeCountField] at hc
  simp (disch := (simp only [Field.Disjoint, freeListField, freeCountField, linkField]; omega))
    only [pushObj, Field.get_put_of_disjoint, Field.get_put, and_self]

/-- **The loop of `slab_grow`** puts its objects on the free list, the last one first, counts them,
and writes nothing but the list's two header fields and the objects. -/
theorem growLoop_spec {hdr : ℕ} (hobj : 8 ≤ objSize) (n : ℕ) (mem : Buffer) (cur : ℕ) (l : List ℕ)
    (hcur : hdr + slabHeader ≤ cur) (htop : cur + n * objSize ≤ 2 ^ 64)
    (hlen : l.length + n < 2 ^ 32) (hchain : Linked linkField mem ((freeListField hdr).get mem) l)
    (hcount : (freeCountField hdr).get mem = l.length)
    (hl : ∀ o ∈ l, hdr + slabHeader ≤ o ∧ o + objSize ≤ cur) :
    Linked linkField (growLoop hdr objSize n mem cur)
        ((freeListField hdr).get (growLoop hdr objSize n mem cur))
        ((objs objSize n cur).reverse ++ l) ∧
      (freeCountField hdr).get (growLoop hdr objSize n mem cur) = l.length + n ∧
      AgreeOn mem (growLoop hdr objSize n mem cur) hdr 16 ∧
      AgreeOn mem (growLoop hdr objSize n mem cur) (hdr + 24) 4 ∧
      ∀ j, j < hdr ∨ cur + n * objSize ≤ j → growLoop hdr objSize n mem cur j = mem j := by
  induction n generalizing mem cur l with
  | zero => exact ⟨hchain, hcount, fun _ _ _ => rfl, fun _ _ _ => rfl, fun _ _ => rfl⟩
  | succ n ih =>
    rw [Nat.add_mul] at htop
    -- each turn of the loop pushes one object
    have hturn : growLoop hdr objSize (n + 1) mem cur =
        growLoop hdr objSize n (pushObj hdr cur mem) (cur + objSize) := rfl
    obtain ⟨hlist, hlink, hcount3⟩ := pushObj_fields mem hcur (by omega) (by omega)
    have hout := fun j => pushObj_apply (j := j) hdr cur mem
    rw [hcount] at hcount3
    simp only [slabHeader] at hcur hl
    set m3 := pushObj hdr cur mem
    have hchain3 : Linked linkField m3 ((freeListField hdr).get m3) (cur :: l) := by
      refine ⟨hlist, by omega, ?_⟩
      rw [hlink]
      refine hchain.congr fun o ho => Field.get_congr _ fun j hj hj' => ?_
      have := hl o ho
      simp only [linkField] at hj hj'
      exact hout j (by omega) (by omega)
    have hl3 : ∀ o ∈ cur :: l, hdr + slabHeader ≤ o ∧ o + objSize ≤ cur + objSize := by
      intro o ho
      simp only [slabHeader]
      rcases mem_cons.mp ho with rfl | ho
      · omega
      · have := hl o ho
        omega
    obtain ⟨h1, h2, h3, h4, h5⟩ := ih m3 _ _ (by simp only [slabHeader]; omega) (by omega)
      (by simp only [length_cons]; omega) hchain3 hcount3 hl3
    rw [hturn]
    refine ⟨?_, ?_, ?_, ?_, ?_⟩
    · rw [objs, reverse_cons, append_assoc]
      exact h1
    · rw [h2, length_cons]
      omega
    · intro j hj hj'
      rw [h3 j hj hj', hout j (by omega) (by omega)]
    · intro j hj hj'
      rw [h4 j hj hj', hout j (by omega) (by omega)]
    · intro j hj
      rw [Nat.add_mul] at hj
      rw [h5 j (by omega), hout j (by omega) (by omega)]

/-! ### What holds of a slab -/

/-- The objects of the slab at `h`. -/
def slabObjs (h idx : ℕ) : List ℕ :=
  objs (slabSize idx) (objCount (slabSize idx)) (h + dataStart (slabSize idx))

/-- The numbers of the six kinds of slab: the objects start behind the header, fit in the page, and
have room for a link. -/
theorem slab_layout (h : idx < slabNum) : slabHeader ≤ dataStart (slabSize idx) ∧ 8 ≤ slabSize idx ∧
      dataStart (slabSize idx) + objCount (slabSize idx) * slabSize idx ≤ pageSize ∧
      0 < objCount (slabSize idx) ∧ objCount (slabSize idx) < 128 := by
  have hall : ∀ i : Fin 6, slabHeader ≤ dataStart (slabSize i) ∧ 8 ≤ slabSize i ∧
      dataStart (slabSize i) + objCount (slabSize i) * slabSize i ≤ pageSize ∧
      0 < objCount (slabSize i) ∧ objCount (slabSize i) < 128 := by decide
  exact hall ⟨idx, h⟩

theorem slabObjs_bounds (hi : idx < slabNum) (ho : o ∈ slabObjs h idx) :
    h + slabHeader ≤ o ∧ o + slabSize idx ≤ h + pageSize := by
  obtain ⟨hstart, -, hend, -, -⟩ := slab_layout hi
  obtain ⟨i, hlt, rfl⟩ := mem_objs.mp ho
  have hmul : (i + 1) * slabSize idx ≤ objCount (slabSize idx) * slabSize idx :=
    Nat.mul_le_mul_right _ hlt
  rw [Nat.add_mul, Nat.one_mul] at hmul
  omega

theorem slabObjs_apart {o' : ℕ} (ho : o ∈ slabObjs h idx) (ho' : o' ∈ slabObjs h idx)
    (hne : o ≠ o') : o + slabSize idx ≤ o' ∨ o' + slabSize idx ≤ o := by
  obtain ⟨i, -, rfl⟩ := mem_objs.mp ho
  obtain ⟨k, -, rfl⟩ := mem_objs.mp ho'
  rcases Nat.lt_trichotomy i k with hlt | rfl | hlt
  · left
    have := Nat.mul_le_mul_right (slabSize idx) (show i + 1 ≤ k from hlt)
    rw [Nat.add_mul, Nat.one_mul] at this
    omega
  · exact absurd rfl hne
  · right
    have := Nat.mul_le_mul_right (slabSize idx) (show k + 1 ≤ i from hlt)
    rw [Nat.add_mul, Nat.one_mul] at this
    omega

/-- **A slab in order**: its free list goes through the objects in `free`, without repetition;
`free_count` is their number; and they are the objects that are not live. -/
structure SlabOk (mem : Buffer) (ptrs : ℕ → Prop) (h idx : ℕ) (free : List ℕ) : Prop where
  magic : (magicField h).get mem = slabMagic
  chain : Linked linkField mem ((freeListField h).get mem) free
  nodup : free.Nodup
  count : (freeCountField h).get mem = free.length
  free_iff : ∀ o, o ∈ free ↔ o ∈ slabObjs h idx ∧ ¬ ptrs o

variable {mem mem' : Buffer} {ptrs ptrs' : ℕ → Prop} {h idx : ℕ} {free : List ℕ}

/-- The order of a slab depends on its header, the links in its free objects and on which of its
objects are live. -/
theorem SlabOk.congr (hs : SlabOk mem ptrs h idx free) (hh : AgreeOn mem mem' h slabHeader)
    (hf : ∀ o ∈ free, AgreeOn mem mem' o 8) (hp : ∀ o ∈ slabObjs h idx, ptrs' o ↔ ptrs o) :
    SlabOk mem' ptrs' h idx free where
  magic := by
    rw [hh.get (by simp only [magicField]; omega) (by simp only [magicField, slabHeader]; omega)]
    exact hs.magic
  chain := by
    rw [hh.get (by simp only [freeListField]; omega)
      (by simp only [freeListField, slabHeader]; omega)]
    exact hs.chain.congr fun o ho => (hf o ho).get (Nat.le_refl _) (Nat.le_refl _)
  nodup := hs.nodup
  count := by
    rw [hh.get (by simp only [freeCountField]; omega)
      (by simp only [freeCountField, slabHeader]; omega)]
    exact hs.count
  free_iff := fun o => by
    rw [hs.free_iff]
    exact and_congr_right fun ho => not_congr (hp o ho).symm

theorem SlabOk.length_lt (hs : SlabOk mem ptrs h idx free) (hi : idx < slabNum) :
    free.length < 128 := by
  have hsub : free ⊆ slabObjs h idx := fun o ho => ((hs.free_iff o).mp ho).1
  have hle := (hs.nodup.subperm hsub).length_le
  rw [slabObjs, length_objs] at hle
  have := (slab_layout hi).2.2.2.2
  omega

theorem popObj_apply (h : ℕ) (mem : Buffer)
    (hj : j < h + 16 ∨ (h + 24 ≤ j ∧ j < h + 28) ∨ h + 32 ≤ j) : popObj h mem j = mem j := by
  rw [popObj, Field.put_apply_of_outside _ _ _ (by simp only [freeCountField]; omega),
    Field.put_apply_of_outside _ _ _ (by simp only [freeListField]; omega)]

/-- **Taking the first object off the free list.** -/
theorem SlabOk.pop (hs : SlabOk mem ptrs h idx (o :: free)) (hi : idx < slabNum)
    (hp : ∀ o' ∈ slabObjs h idx, ptrs' o' ↔ ptrs o' ∨ o' = o) :
    SlabOk (popObj h mem) ptrs' h idx free := by
  have hlen := hs.length_lt hi
  obtain ⟨hhead, -, hrest⟩ := hs.chain
  have hcount : (freeCountField h).get (popObj h mem) = free.length := by
    rw [popObj, Field.get_put _ _, Field.get_put_of_disjoint _ _ (.inl (by
      simp only [freeListField, freeCountField]; omega)), hs.count, length_cons,
      Nat.add_sub_cancel]
    rw [Field.get_put_of_disjoint _ _ (.inl (by
      simp only [freeListField, freeCountField]; omega)), hs.count]
    simp only [freeCountField, length_cons] at hlen ⊢
    omega
  have hlist : (freeListField h).get (popObj h mem) = (linkField o).get mem := by
    rw [popObj, Field.get_put_of_disjoint _ _ (.inr (by
      simp only [freeListField, freeCountField]; omega)), hhead,
      Field.get_put (freeListField h) _ (Field.get_lt (linkField o) mem)]
  have hnd := nodup_cons.mp hs.nodup
  refine ⟨?_, ?_, hnd.2, hcount, fun o' => ?_⟩
  · rw [← hs.magic]
    exact Field.get_congr _ fun j _ hj =>
      popObj_apply h mem (by simp only [magicField] at hj; omega)
  · rw [hlist]
    refine hrest.congr fun o' ho' => Field.get_congr _ fun j hj _ => popObj_apply h mem ?_
    have hobj := ((hs.free_iff o').mp (mem_cons_of_mem o ho')).1
    have hb := (slabObjs_bounds hi hobj).1
    simp only [linkField, slabHeader] at hj hb
    omega
  · constructor
    · intro ho'
      have hold := (hs.free_iff o').mp (mem_cons_of_mem o ho')
      refine ⟨hold.1, fun hlive => ?_⟩
      rcases (hp o' hold.1).mp hlive with hlive | rfl
      · exact hold.2 hlive
      · exact hnd.1 ho'
    · rintro ⟨hobj, hlive⟩
      rw [hp o' hobj, not_or] at hlive
      exact (mem_cons.mp ((hs.free_iff o').mpr ⟨hobj, hlive.1⟩)).resolve_left hlive.2

/-- **Putting a live object back on the free list.** -/
theorem SlabOk.push (hs : SlabOk mem ptrs h idx free) (hi : idx < slabNum)
    (hobj : o ∈ slabObjs h idx) (ho : o < 2 ^ 64) (hlive : ptrs o)
    (hp : ∀ o' ∈ slabObjs h idx, ptrs' o' ↔ ptrs o' ∧ o' ≠ o) :
    SlabOk (pushObj h o mem) ptrs' h idx (o :: free) := by
  have hlen := hs.length_lt hi
  have hb := slabObjs_bounds hi hobj
  have hroom := (slab_layout hi).2.1
  have hnew : o ∉ free := fun hmem => ((hs.free_iff o).mp hmem).2 hlive
  obtain ⟨hlist, hlink, hcount⟩ := pushObj_fields mem hb.1 ho (by rw [hs.count]; omega)
  rw [hs.count] at hcount
  simp only [slabHeader] at hb
  refine ⟨?_, ⟨hlist, by omega, ?_⟩, nodup_cons.mpr ⟨hnew, hs.nodup⟩, hcount, fun o' => ?_⟩
  · rw [← hs.magic]
    refine Field.get_congr _ fun j _ hj => ?_
    simp only [magicField] at hj
    exact pushObj_apply h o mem (by omega) (by omega)
  · rw [hlink]
    refine hs.chain.congr fun o' ho' => Field.get_congr _ fun j hj hj' => ?_
    have hold := (hs.free_iff o').mp ho'
    have hb' := slabObjs_bounds hi hold.1
    have hne : o ≠ o' := fun heq => hnew (heq ▸ ho')
    have hapart := slabObjs_apart hobj hold.1 hne
    simp only [linkField, slabHeader] at hj hj' hb'
    exact pushObj_apply h o mem (by omega) (by omega)
  · rw [mem_cons, hs.free_iff]
    constructor
    · rintro (rfl | ⟨hobj', hdead⟩)
      · exact ⟨hobj, fun hl => ((hp o' hobj).mp hl).2 rfl⟩
      · exact ⟨hobj', fun hl => hdead ((hp o' hobj').mp hl).1⟩
    · rintro ⟨hobj', hdead⟩
      by_cases heq : o' = o
      · exact .inl heq
      · exact .inr ⟨hobj', fun hl => hdead ((hp o' hobj').mpr ⟨hl, heq⟩)⟩

theorem newHeader_apply (h objSize next : ℕ) (mem : Buffer) (hj : j < h ∨ h + slabHeader ≤ j) :
    newHeader h objSize next mem j = mem j := by
  simp only [slabHeader] at hj
  simp (disch :=
      (simp only [magicField, nextField, freeListField, objSizeField, freeCountField]; omega)) only
    [newHeader, Field.put_apply_of_outside]

theorem newHeader_fields (objSize : ℕ) {next : ℕ} (hnext : next < 2 ^ 64) (mem : Buffer) :
    (freeListField h).get (newHeader h objSize next mem) = 0 ∧
      (freeCountField h).get (newHeader h objSize next mem) = 0 ∧
      (magicField h).get (newHeader h objSize next mem) = slabMagic ∧
      (nextField h).get (newHeader h objSize next mem) = next := by
  simp only [newHeader, magicField, nextField, freeListField, objSizeField, freeCountField,
    slabMagic]
  simp (disch := (simp only [Field.Disjoint]; omega)) only [Field.get_put_of_disjoint,
    Field.get_put, and_self]

/-- **A new slab is in order**: all its objects are free, and its `next` is the old head. -/
theorem slabOk_grow (hi : idx < slabNum) (hh : h + pageSize ≤ 2 ^ 64) {next : ℕ}
    (hnext : next < 2 ^ 64) (hp : ∀ o ∈ slabObjs h idx, ¬ ptrs o) (mem : Buffer) :
    SlabOk (newSlab h idx next mem) ptrs h idx (slabObjs h idx).reverse ∧
      (nextField h).get (newSlab h idx next mem) = next ∧
      ∀ j, j < h ∨ h + pageSize ≤ j → newSlab h idx next mem j = mem j := by
  rw [newSlab]
  obtain ⟨hstart, hroom, hend, hpos, hcount⟩ := slab_layout hi
  obtain ⟨hlist0, hcount0, hmagic0, hnext0⟩ := newHeader_fields (slabSize idx) hnext mem
  obtain ⟨hchain, hcnt, hlow, -, hframe⟩ := growLoop_spec hroom (objCount (slabSize idx))
    (newHeader h (slabSize idx) next mem) (h + dataStart (slabSize idx)) [] (by omega)
    (by omega) (by simp only [length_nil]; omega) hlist0 hcount0
    (nofun)
  rw [append_nil] at hchain
  rw [length_nil, Nat.zero_add] at hcnt
  refine ⟨⟨?_, hchain, nodup_reverse.mpr (objs_nodup (by omega) _ _), ?_, fun o => ?_⟩, ?_, ?_⟩
  · rw [hlow.get (by simp only [magicField]; omega) (by simp only [magicField]; omega), hmagic0]
  · rw [hcnt, length_reverse, slabObjs, length_objs]
  · rw [mem_reverse]
    exact ⟨fun ho => ⟨ho, hp o ho⟩, fun ho => ho.1⟩
  · rw [hlow.get (by simp only [nextField]; omega) (by simp only [nextField]; omega), hnext0]
  · intro j hj
    simp only [slabHeader, pageSize] at hj hstart hend
    rw [hframe j (by omega), newHeader_apply _ _ _ _ (by simp only [slabHeader]; omega)]

end AxiomeOS.Kheap
