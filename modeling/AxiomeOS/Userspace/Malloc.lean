import AxiomeOS.Lib.Bytes
import AxiomeOS.Lib.Runs
import AxiomeOS.Lib.Tiling

/-!
# The heap of the C library

`kernel/userspace/libc/stdlib.c` keeps a static heap of 4 MiB as a list of blocks, each a header
(`size`, `free`, `next`) in front of its payload.  The headers stand in the same bytes as the
payloads, so the model is a byte memory: a copy that runs over the end of its block overwrites the
next header here as it does there.

The library `AxiomeOS.Lib.Tiling` has the same heap as a list of blocks.  The layer here relates
the two: `Listed` says that the `next` pointers in memory go through exactly these blocks,
`malloc_spec` and `free_spec` say that the C functions do to memory what `carve` and `coalesce` do
to the list.

* `heap_tiled_of_run`: after any calls of `malloc`, `calloc`, `realloc` and `free` on live pointers
  and any stores into live blocks the heap is tiled, free blocks are apart, and the live pointers
  are the payloads in use, as long as no `calloc` or `realloc` asks for one of the last 15 sizes
  that a `size_t` can hold;
* `realloc_wrap_breaks_heap`: `ALIGN16` of such a size is 0, and `realloc` then copies the old
  block over the header behind the new one.
-/

namespace AxiomeOS.Libc

open Bytes Lib Runs List

variable {mem mem' : Buffer} {n p q : ℕ} {l l' : List Block} {b : Block}

/-! ### The functions -/

/-- `HEAP_SIZE`. -/
def heapSize : ℕ := 4 * 1024 * 1024

/-- `BLOCK_SIZE`: the size of a `block_t`. -/
def blockSize : ℕ := 24

/-- `ALIGN16`, in 64-bit arithmetic. -/
def align16 (x : ℕ) : ℕ := (x + 15) % 2 ^ 64 / 16 * 16

/-- `size_t size` of the block at `a`. -/
def sizeField (a : ℕ) : Field := ⟨a, 8⟩

/-- `int free`. -/
def freeField (a : ℕ) : Field := ⟨a + 8, 4⟩

/-- `struct block *next`. -/
def nextField (a : ℕ) : Field := ⟨a + 16, 8⟩

/-- The static data of the allocator, and `errno`. -/
structure Heap where
  mem : Buffer
  heapInit : Bool
  freeList : ℕ
  errno : ℕ

/-- `ENOMEM`. -/
def enomem : ℕ := 12

/-- `init_heap`; the array `heap` starts at `base`. -/
def initHeap (base : ℕ) (s : Heap) : Heap :=
  if s.heapInit then s
  else
    { s with
      mem := (nextField base).put 0 ((freeField base).put 1
        ((sizeField base).put (heapSize - blockSize) s.mem))
      freeList := base
      heapInit := true }

/-- `split_block`. -/
def splitBlock (block size : ℕ) (mem : Buffer) : Buffer :=
  if (size + blockSize + 16) % 2 ^ 64 ≤ (sizeField block).get mem then
    let newBlock := block + blockSize + size
    let m₁ := (sizeField newBlock).put ((sizeField block).get mem - size - blockSize) mem
    let m₂ := (freeField newBlock).put 1 m₁
    let m₃ := (nextField newBlock).put ((nextField block).get m₂) m₂
    let m₄ := (sizeField block).put size m₃
    (nextField block).put newBlock m₄
  else mem

/-- The loop of `merge_free_blocks`, for at most `fuel` rounds. -/
def mergeLoop : ℕ → Buffer → ℕ → Option Buffer
  | 0, _, _ => none
  | fuel + 1, mem, curr =>
    let next := (nextField curr).get mem
    if curr = 0 ∨ next = 0 then some mem
    else if (freeField curr).get mem ≠ 0 ∧ (freeField next).get mem ≠ 0 then
      let m₁ := (sizeField curr).put
        ((sizeField curr).get mem + (blockSize + (sizeField next).get mem)) mem
      mergeLoop fuel ((nextField curr).put ((nextField next).get m₁) m₁) curr
    else mergeLoop fuel mem next

/-- The loop of `malloc`: the first free block of at least `size` bytes, if there is one. -/
def findFit (mem : Buffer) (size : ℕ) : ℕ → ℕ → Option (Option ℕ)
  | 0, _ => none
  | fuel + 1, curr =>
    if curr = 0 then some none
    else if (freeField curr).get mem ≠ 0 ∧ size ≤ (sizeField curr).get mem then some (some curr)
    else findFit mem size fuel ((nextField curr).get mem)

/-- Rounds that are enough for a list of blocks in the heap. -/
def rounds : ℕ := heapSize / blockSize + 2

/-- `malloc`: the heap after the call and the pointer, 0 for NULL. -/
def malloc (base : ℕ) (s : Heap) (n : ℕ) : Option (Heap × ℕ) :=
  if n = 0 then some (s, 0)
  else
    let s := initHeap base s
    match findFit s.mem (align16 n) rounds s.freeList with
    | none => none
    | some none => some ({ s with errno := enomem }, 0)
    | some (some curr) =>
      some ({ s with mem := (freeField curr).put 0 (splitBlock curr (align16 n) s.mem) },
        curr + blockSize)

/-- `free`. -/
def free (s : Heap) (p : ℕ) : Option Heap :=
  if p = 0 then some s
  else
    (mergeLoop rounds ((freeField (p - blockSize)).put 1 s.mem) s.freeList).map fun m =>
      { s with mem := m }

/-- `memset(p, 0, n)`. -/
def memset (mem : Buffer) (p n : ℕ) : Buffer := blit mem p (fun _ => 0) n

/-- `memcpy(dst, src, n)`. -/
def memcpy (mem : Buffer) (dst src n : ℕ) : Buffer := blit mem dst (fun j => mem (src + j)) n

/-- `calloc`. -/
def calloc (base : ℕ) (s : Heap) (nmemb size : ℕ) : Option (Heap × ℕ) :=
  if nmemb = 0 ∨ size = 0 then some (s, 0)
  else if (2 ^ 64 - 1) / size < nmemb then some ({ s with errno := enomem }, 0)
  else
    (malloc base s (nmemb * size)).map fun r =>
      if r.2 = 0 then r else ({ r.1 with mem := memset r.1.mem r.2 (nmemb * size) }, r.2)

/-- `realloc`. -/
def realloc (base : ℕ) (s : Heap) (ptr size : ℕ) : Option (Heap × ℕ) :=
  if ptr = 0 then malloc base s size
  else if size = 0 then (free s ptr).map fun s => (s, 0)
  else if size ≤ (sizeField (ptr - blockSize)).get s.mem then some (s, ptr)
  else
    match malloc base s size with
    | none => none
    | some (s, newPtr) =>
      if newPtr = 0 then some (s, 0)
      else
        let old := (sizeField (ptr - blockSize)).get s.mem
        (free { s with mem := memcpy s.mem newPtr ptr (if old < size then old else size) } ptr).map
          fun s => (s, newPtr)

/-! ### Runs -/

/-- The heap and, as a history, the pointers that were handed out and not given back. -/
structure Client where
  heap : Heap
  live : List ℕ

/-- What a program can do with its heap. -/
inductive Call
  | malloc (n : ℕ)
  | calloc (nmemb size : ℕ)
  | realloc (p n : ℕ)
  | free (p : ℕ)
  /-- A store of the program itself, at address `a`. -/
  | store (a : ℕ) (v : UInt8)

/-- The live pointers after `r` was handed out. -/
def handOut (live : List ℕ) (r : ℕ) : List ℕ := if r = 0 then live else r :: live

/-- The live pointers after `realloc p n` returned `r`: nothing changed, or `p` was given back and
`r` handed out. -/
def handOver (live : List ℕ) (p n r : ℕ) : List ℕ :=
  if p = 0 then handOut live r
  else if n = 0 then live.erase p
  else if r = 0 ∨ r = p then live
  else r :: live.erase p

/-- One call. -/
def exec (base : ℕ) (s : Client) : Call → Option Client
  | .malloc n => (malloc base s.heap n).map fun r => ⟨r.1, handOut s.live r.2⟩
  | .calloc m n => (calloc base s.heap m n).map fun r => ⟨r.1, handOut s.live r.2⟩
  | .realloc p n => (realloc base s.heap p n).map fun r => ⟨r.1, handOver s.live p n r.2⟩
  | .free p => (free s.heap p).map fun h => ⟨h, s.live.erase p⟩
  | .store a v => some { s with heap := { s.heap with mem := blit s.heap.mem a (fun _ => v) 1 } }

def step (base : ℕ) (s : Client) (c : Call) (s' : Client) : Prop := exec base s c = some s'

/-- The process starts with a cleared heap. -/
def boot : Client := ⟨⟨fun _ => 0, false, 0, 0⟩, []⟩

/-- The arguments are `size_t`, pointers given back or grown are live, and the program stores into
live blocks only. -/
def Legit (s : Client) : Call → Prop
  | .malloc n => n < 2 ^ 64
  | .calloc m n => m < 2 ^ 64 ∧ n < 2 ^ 64
  | .realloc p n => (p = 0 ∨ p ∈ s.live) ∧ n < 2 ^ 64
  | .free p => p = 0 ∨ p ∈ s.live
  | .store a _ => ∃ p ∈ s.live, p ≤ a ∧ a < p + (sizeField (p - blockSize)).get s.heap.mem

/-- No `calloc` and no `realloc` of a live block asks for more than `SIZE_MAX - 15` bytes, the
sizes that `ALIGN16` rounds to 0. -/
def NoWrap : Call → Prop
  | .calloc m n => m * n + 15 < 2 ^ 64 ∨ 2 ^ 64 ≤ m * n
  | .realloc p n => p = 0 ∨ n + 15 < 2 ^ 64
  | _ => True

instance (s : Client) (c : Call) : Decidable (Legit s c) := by
  cases c <;> unfold Legit <;> infer_instance

instance (c : Call) : Decidable (NoWrap c) := by
  cases c <;> unfold NoWrap <;> infer_instance

/-! ### Blocks in memory -/

/-- Following `next` from `p` goes through exactly these blocks and ends at `q`. -/
def Listed (mem : Buffer) : ℕ → List Block → ℕ → Prop
  | p, [], q => p = q
  | p, b :: bs, q =>
    p = b.addr ∧ (sizeField p).get mem = b.size ∧
      (freeField p).get mem = (if b.free then 1 else 0) ∧ Listed mem ((nextField p).get mem) bs q

theorem Listed.append {m : ℕ} (hl : Listed mem p l m)
    (hl' : Listed mem m l' q) : Listed mem p (l ++ l') q := by
  induction l generalizing p with
  | nil => rw [Listed] at hl; rw [hl]; exact hl'
  | cons b l ih => exact ⟨hl.1, hl.2.1, hl.2.2.1, ih hl.2.2.2⟩

theorem Listed.split
    (h : Listed mem p (l ++ l') q) : ∃ m, Listed mem p l m ∧ Listed mem m l' q := by
  induction l generalizing p with
  | nil => exact ⟨p, rfl, h⟩
  | cons b l ih =>
    obtain ⟨m, hl, hl'⟩ := ih h.2.2.2
    exact ⟨m, ⟨h.1, h.2.1, h.2.2.1, hl⟩, hl'⟩

/-- Two memories with the same header at `a`. -/
def SameHeader (mem mem' : Buffer) (a : ℕ) : Prop :=
  ∀ j, a ≤ j → j < a + blockSize → mem' j = mem j

variable {m : Buffer} {a : ℕ} {bs : List Block}

theorem SameHeader.fields (h : SameHeader mem mem' a) :
    (sizeField a).get mem' = (sizeField a).get mem ∧
      (freeField a).get mem' = (freeField a).get mem ∧
      (nextField a).get mem' = (nextField a).get mem := by
  refine ⟨Field.get_congr _ ?_, Field.get_congr _ ?_, Field.get_congr _ ?_⟩
  all_goals
    intro j h1 h2
    simp only [sizeField, freeField, nextField] at h1 h2
    exact h j (by omega) (by simp only [blockSize]; omega)

theorem Listed.congr (h : Listed mem p bs q) (hm : ∀ b ∈ bs, SameHeader mem mem' b.addr) :
    Listed mem' p bs q := by
  induction bs generalizing p with
  | nil => exact h
  | cons b bs ih =>
    obtain ⟨hp, hsize, hfree, hrest⟩ := h
    obtain ⟨hs, hf, hn⟩ := (hm b mem_cons_self).fields
    rw [← hp] at hs hf hn
    refine ⟨hp, hs.trans hsize, hf.trans hfree, ?_⟩
    rw [hn]
    exact ih hrest fun c hc => hm c (mem_cons_of_mem b hc)

/-! ### The three loops -/

theorem flag_ne_zero (v : Bool) : (if v = true then 1 else 0) ≠ 0 ↔ v = true := by
  cases v <;> simp

/-- The search goes through the list and answers with the first block that fits. -/
theorem findFit_spec {fuel : ℕ} (hl : Listed mem p bs 0) (hpos : ∀ b ∈ bs, 0 < b.addr)
    (hf : bs.length < fuel) : findFit mem n fuel p = some none ∨
      ∃ l b l', bs = l ++ b :: l' ∧ b.free = true ∧ n ≤ b.size ∧
        findFit mem n fuel p = some (some b.addr) := by
  induction bs generalizing fuel p with
  | nil =>
    obtain _ | fuel := fuel
    · omega
    rw [Listed] at hl
    left
    rw [findFit, if_pos hl]
  | cons b bs ih =>
    obtain _ | fuel := fuel
    · omega
    obtain ⟨rfl, hsize, hfree, hrest⟩ := hl
    rw [findFit, if_neg (Nat.pos_iff_ne_zero.mp (hpos b (by simp))), hsize, hfree]
    simp only [flag_ne_zero]
    by_cases hfit : b.free = true ∧ n ≤ b.size
    · right
      rw [if_pos hfit]
      exact ⟨[], b, bs, rfl, hfit.1, hfit.2, rfl⟩
    · rw [if_neg hfit]
      have hlen : bs.length < fuel := by
        simp only [length_cons] at hf
        omega
      rcases ih hrest (fun c hc => hpos c (mem_cons_of_mem b hc)) hlen
        with hnone | ⟨l, c, l', hbs, hc⟩
      · exact .inl hnone
      · exact .inr ⟨b :: l, c, l', by rw [hbs]; rfl, hc⟩

/-- Joining the block at `p` with its neighbour, in memory. -/
theorem listed_join {e : ℕ} {c : Block}
    (hl : Listed mem p (b :: c :: bs) 0) (ht : Tiles blockSize p (b :: c :: bs) e)
    (he : e ≤ 2 ^ 64) (hb : b.free = true) : Listed ((nextField p).put ((nextField c.addr).get mem)
        ((sizeField p).put (b.size + (blockSize + c.size)) mem)) p
      (⟨b.addr, b.size + (blockSize + c.size), true⟩ :: bs) 0 := by
  obtain ⟨rfl, hsize, hfree, hnext, hcsize, hcfree, hrest⟩ := hl
  have hend := ht.extent_eq
  obtain ⟨-, haddr, htail⟩ := ht
  simp only [extent, map_cons, sum_cons, blockSize] at hend haddr
  rw [hnext] at hrest
  refine ⟨rfl, ?_, ?_, ?_⟩
  · rw [Field.get_put_of_disjoint _ _ (.inr (by simp only [sizeField, nextField]; omega)),
      Field.get_put]
    simp only [sizeField, blockSize]
    omega
  · rw [Field.get_put_of_disjoint _ _ (.inr (by simp only [freeField, nextField]; omega)),
      Field.get_put_of_disjoint _ _ (.inl (by simp only [freeField, sizeField]; omega)), hfree,
      hb]
  · rw [Field.get_put (nextField b.addr) _ (Field.get_lt (nextField c.addr) mem)]
    refine hrest.congr fun d hd j hj _ => ?_
    have hdb := (htail.bounds d hd).1
    simp only [blockSize] at hdb
    rw [Field.put_apply_of_outside _ _ _ (.inr (by simp only [nextField]; omega)),
      Field.put_apply_of_outside _ _ _ (.inr (by simp only [sizeField]; omega))]

/-- **`merge_free_blocks` joins free neighbours**, as `coalesce` does on the list, and does not
touch what is before the list. -/
theorem mergeLoop_spec {fuel e : ℕ} (hl : Listed mem p bs 0) (ht : Tiles blockSize p bs e)
    (hp : 0 < p) (he : e ≤ 2 ^ 64) (hf : bs.length ≤ fuel) :
    ∃ m, mergeLoop fuel mem p = some m ∧ Listed m p (coalesce blockSize bs) 0 ∧
      ∀ j, j < p → m j = mem j := by
  induction bs using coalesce.induct blockSize generalizing fuel mem p with
  | case1 =>
    rw [Listed] at hl
    omega
  | case2 b =>
    obtain _ | fuel := fuel
    · simp at hf
    refine ⟨mem, ?_, by rw [coalesce]; exact hl, fun _ _ => rfl⟩
    rw [mergeLoop]
    exact if_pos (.inr hl.2.2.2)
  | case3 b c bs hbc ih =>
    obtain _ | fuel := fuel
    · simp at hf
    have hjoin := listed_join hl ht he hbc.1
    obtain ⟨-, hsize, hfree, hnext, hcsize, hcfree, -⟩ := hl
    obtain ⟨hb, hcaddr, hrest⟩ := ht
    have hc0 : c.addr ≠ 0 := by
      rw [hcaddr]
      omega
    have htiles : Tiles blockSize p (⟨b.addr, b.size + (blockSize + c.size), true⟩ :: bs) e := by
      refine ⟨hb, ?_⟩
      rw [show p + blockSize + (b.size + (blockSize + c.size))
        = p + blockSize + b.size + blockSize + c.size by omega]
      exact hrest
    obtain ⟨m, hrun, hlist, hframe⟩ := ih hjoin htiles hp (show _ ≤ fuel by simp at hf ⊢; omega)
    refine ⟨m, ?_, by rw [coalesce, if_pos hbc]; exact hlist, ?_⟩
    · rw [hnext] at hcsize hcfree
      rw [mergeLoop]
      simp only [hnext, hsize, hfree, hcsize, hcfree, hbc.1, hbc.2, hc0, Nat.pos_iff_ne_zero.mp hp,
        if_true, or_self, if_false, ne_eq, Nat.one_ne_zero, not_false_eq_true, and_self]
      rw [Field.get_put_of_disjoint _ _ (.inl (by
        simp only [nextField, sizeField, blockSize] at hcaddr ⊢
        omega))]
      exact hrun
    · intro j hj
      rw [hframe j hj, Field.put_apply_of_outside _ _ _ (.inl (by simp only [nextField]; omega)),
        Field.put_apply_of_outside _ _ _ (.inl (by simp only [sizeField]; omega))]
  | case4 b c bs hbc ih =>
    obtain _ | fuel := fuel
    · simp at hf
    obtain ⟨haddr, hsize, hfree, hrest⟩ := hl
    obtain ⟨hb, htrest⟩ := ht
    have hnext : (nextField p).get mem = p + blockSize + b.size := hrest.1.trans htrest.1
    rw [hnext] at hrest
    obtain ⟨m, hrun, hlist, hframe⟩ := ih hrest htrest (by omega)
      (show _ ≤ fuel by simp at hf ⊢; omega)
    obtain ⟨hs, hf, hn⟩ := SameHeader.fields fun j (_ : p ≤ j) hj => hframe j (by omega)
    refine ⟨m, ?_, ?_, fun j hj => hframe j (by omega)⟩
    · rw [mergeLoop]
      have hcond : ¬ ((freeField p).get mem ≠ 0 ∧
          (freeField ((nextField p).get mem)).get mem ≠ 0) := by
        rw [hnext, hfree, hrest.2.2.1, flag_ne_zero, flag_ne_zero]
        exact hbc
      rw [if_neg (by omega), if_neg hcond, hnext]
      exact hrun
    · rw [coalesce, if_neg hbc]
      refine ⟨haddr, hs.trans hsize, hf.trans hfree, ?_⟩
      rw [hn, hnext]
      exact hlist

/-! ### Handing out and taking back a block -/

/-- Nothing outside the block is written when it is cut and marked as used. -/
theorem splitBlock_frame {size : ℕ} {v : ℕ}
    (hsize : (sizeField b.addr).get mem = b.size) (hwrap : size + blockSize + 16 < 2 ^ 64) {j : ℕ}
    (hj : j < b.addr ∨ b.addr + blockSize + b.size ≤ j) :
    (freeField b.addr).put v (splitBlock b.addr size mem) j = mem j := by
  rw [Field.put_apply_of_outside _ _ _ (by simp only [freeField, blockSize] at hj ⊢; omega),
    splitBlock, Nat.mod_eq_of_lt hwrap, hsize]
  by_cases hcut : size + blockSize + 16 ≤ b.size
  · rw [if_pos hcut]
    simp only [blockSize] at hj hcut ⊢
    simp (disch := (simp only [sizeField, freeField, nextField]; omega)) only
      [Field.put_apply_of_outside]
  · rw [if_neg hcut]

/-- The flag of a block is the only thing that a store to it changes. -/
theorem listed_mark (hl : Listed mem b.addr [b] q) (v : Bool) :
    Listed ((freeField b.addr).put (if v = true then 1 else 0) mem) b.addr
      [⟨b.addr, b.size, v⟩] q := by
  obtain ⟨-, hsize, -, hnext⟩ := hl
  refine ⟨rfl, ?_, ?_, ?_⟩
  · rw [Field.get_put_of_disjoint _ _ (.inr (by simp only [freeField, sizeField]; omega)), hsize]
  · exact Field.get_put _ _ (by cases v <;> simp [freeField])
  · rw [Field.get_put_of_disjoint _ _ (.inl (by simp only [freeField, nextField]; omega))]
    exact hnext

/-- **`split_block` and `curr->free = 0` hand out the block**, as `carve` does on the list. -/
theorem listed_carve_block {size : ℕ}
    (hl : Listed mem b.addr [b] q) (hend : b.addr + blockSize + b.size ≤ 2 ^ 64)
    (hwrap : size + blockSize + 16 < 2 ^ 64) :
    Listed ((freeField b.addr).put 0 (splitBlock b.addr size mem)) b.addr
      (carve blockSize 16 b size) q := by
  have hmark := listed_mark hl false
  obtain ⟨-, hsize, -, hnext⟩ := hl
  rw [Listed] at hnext
  rw [carve, splitBlock, Nat.mod_eq_of_lt hwrap, hsize]
  by_cases hcut : size + blockSize + 16 ≤ b.size
  · rw [if_pos hcut, if_pos hcut]
    have hq : q < 2 ^ 64 := hnext ▸ Field.get_lt (nextField b.addr) mem
    simp only [blockSize] at hend hwrap hcut ⊢
    -- the five stores of `split_block` and the flag go to six different fields
    simp (disch := (simp only [Field.Disjoint, sizeField, freeField, nextField]; omega)) only
      [Listed, Field.get_put_of_disjoint, Field.get_put, hnext]
    simp
  · rw [if_neg hcut, if_neg hcut]
    exact hmark

/-- A change inside one block, seen from the whole list. -/
theorem Listed.replace {e : ℕ} {k : List Block}
    (hl : Listed mem p (l ++ b :: l') 0) (ht : Tiles blockSize p (l ++ b :: l') e)
    (hframe : ∀ j, j < b.addr ∨ b.addr + blockSize + b.size ≤ j → m j = mem j)
    (hk : ∀ q, Listed mem b.addr [b] q → Listed m b.addr k q) : Listed m p (l ++ (k ++ l')) 0 := by
  obtain ⟨hleft, hright⟩ := ht.around
  obtain ⟨r, hbefore, hb, hsize, hfree, hbehind⟩ := hl.split
  rw [hb] at hbefore hsize hfree hbehind
  refine (hbefore.congr fun c hc j _ hj => hframe j (.inl ?_)).append
    ((hk _ ⟨rfl, hsize, hfree, rfl⟩).append (hbehind.congr fun c hc j hj _ => hframe j (.inr ?_)))
  · have := hleft c hc
    omega
  · have := hright c hc
    omega

/-- The heap in memory is this list of blocks. -/
structure Good (base : ℕ) (s : Heap) (bs : List Block) : Prop where
  init : s.heapInit = true
  head : s.freeList = base
  listed : Listed s.mem base bs 0
  tiles : Tiles blockSize base bs (base + heapSize)
  separated : Separated bs

/-- Where the linker put the array `heap`: not at 0, and inside the address space. -/
structure Placement where
  base : ℕ
  pos : 0 < base
  fits : base + heapSize ≤ 2 ^ 64

variable {P : Placement} {s : Heap} {bs : List Block}

theorem Good.length_lt (h : Good P.base s bs) : bs.length < rounds := by
  have hext := h.tiles.extent_eq
  have hle := length_mul_le_extent blockSize bs
  simp only [rounds, heapSize, blockSize] at hext hle ⊢
  omega

theorem Good.block (h : Good P.base s bs) (hb : b ∈ bs) :
    0 < b.addr ∧ b.size ≤ heapSize ∧ b.addr + blockSize + b.size ≤ 2 ^ 64 := by
  have hbounds := h.tiles.bounds b hb
  have hpos := P.pos
  have hfits := P.fits
  omega

/-- The heap that `init_heap` makes is one free block. -/
theorem good_initHeap (h : s.heapInit = false) :
    Good P.base (initHeap P.base s) [⟨P.base, heapSize - blockSize, true⟩] := by
  rw [initHeap, h, if_neg (by decide)]
  refine ⟨rfl, rfl, ⟨rfl, ?_, ?_, ?_⟩, ⟨rfl, ?_⟩, isChain_singleton _⟩
  iterate 3
    simp (disch := (simp only [Field.Disjoint, sizeField, freeField, nextField]; omega)) only
      [Listed, heapSize, blockSize, Field.get_put_of_disjoint, Field.get_put, if_true]
  · show P.base + blockSize + (heapSize - blockSize) = P.base + heapSize
    have hsum : blockSize + (heapSize - blockSize) = heapSize := by decide
    omega

theorem Good.initHeap_eq (h : Good P.base s bs) : initHeap P.base s = s := by
  rw [initHeap, h.init]
  rfl

/-- **`malloc` on a well-formed heap**: nothing, or the first block that fits is handed out. -/
theorem malloc_spec (h : Good P.base s bs) (hn : n ≠ 0) :
    malloc P.base s n = some ({ s with errno := enomem }, 0) ∨
      ∃ l b l' s', bs = l ++ b :: l' ∧ b.free = true ∧ align16 n ≤ b.size ∧
        malloc P.base s n = some (s', b.addr + blockSize) ∧
        Good P.base s' (l ++ (carve blockSize 16 b (align16 n) ++ l')) := by
  have hmalloc : ∀ r, findFit s.mem (align16 n) rounds P.base = some r →
      malloc P.base s n = r.elim (some ({ s with errno := enomem }, 0)) fun curr =>
        some ({ s with mem := (freeField curr).put 0 (splitBlock curr (align16 n) s.mem) },
          curr + blockSize) := by
    intro r hr
    rw [malloc, if_neg hn, h.initHeap_eq]
    dsimp only
    rw [h.head, hr]
    cases r <;> rfl
  rcases findFit_spec (n := align16 n) h.listed (fun b hb => (h.block hb).1) h.length_lt
    with hnone | ⟨l, b, l', rfl, hbfree, hfit, hfound⟩
  · exact .inl (hmalloc none hnone)
  · right
    have hb := h.block (b := b) (by simp)
    have hwrap : align16 n + blockSize + 16 < 2 ^ 64 := by
      simp only [heapSize, blockSize] at hb ⊢
      omega
    refine ⟨l, b, l', _, rfl, hbfree, hfit, hmalloc _ hfound, h.init, h.head, ?_, h.tiles.carve,
      separated_carve hbfree h.separated⟩
    refine h.listed.replace h.tiles (fun j hj => ?_) fun q hq =>
      listed_carve_block hq hb.2.2 hwrap
    obtain ⟨r, -, hr, hsize, -, -⟩ := h.listed.split
    rw [hr] at hsize
    exact splitBlock_frame hsize hwrap hj

/-- **`free` on a block in use**: the block is marked free and joined with its neighbours. -/
theorem free_spec (h : Good P.base s (l ++ b :: l')) : ∃ s', free s (b.addr + blockSize) = some s' ∧
      Good P.base s' (coalesce blockSize (l ++ ⟨b.addr, b.size, true⟩ :: l')) := by
  have hmark : Listed ((freeField b.addr).put 1 s.mem) P.base
      (l ++ ⟨b.addr, b.size, true⟩ :: l') 0 := by
    refine h.listed.replace (k := [⟨b.addr, b.size, true⟩]) h.tiles (fun j hj => ?_) fun q hq => ?_
    · exact Field.put_apply_of_outside _ _ _ (by simp only [freeField, blockSize] at hj ⊢; omega)
    · exact listed_mark hq true
  have htiles : Tiles blockSize P.base (l ++ ⟨b.addr, b.size, true⟩ :: l') (P.base + heapSize) := by
    obtain ⟨m, hl, hb, hl'⟩ := h.tiles.split
    exact hl.append ⟨hb, hl'⟩
  have hlen := h.length_lt
  obtain ⟨m, hrun, hlist, -⟩ := mergeLoop_spec hmark htiles P.pos P.fits
    (show _ ≤ rounds by simp only [length_append, length_cons] at hlen ⊢; omega)
  refine ⟨{ s with mem := m }, ?_, h.init, h.head, hlist, htiles.coalesce, separated_coalesce _ _⟩
  rw [free, if_neg (by simp only [blockSize]; omega), Nat.add_sub_cancel, h.head, hrun]
  rfl

/-! ### The heap and its client -/

/-- The heap is well formed and the blocks in use are the live ones. -/
def Owns (P : Placement) (s : Heap) (live : List ℕ) : Prop :=
  ∃ bs, Good P.base s bs ∧ live.Nodup ∧ ∀ p, p ∈ live ↔ p ∈ payloads blockSize bs

/-- **The invariant**: nothing has been asked for yet, or the heap is well formed. -/
def Inv (P : Placement) (s : Heap) (live : List ℕ) : Prop :=
  (s.heapInit = false ∧ live = []) ∨ Owns P s live

variable {live : List ℕ}

theorem Inv.ready (h : Inv P s live) : Owns P (initHeap P.base s) live := by
  rcases h with ⟨hs, rfl⟩ | ⟨bs, hg, hown⟩
  · exact ⟨_, good_initHeap hs, nodup_nil, fun p => Iff.rfl⟩
  · rw [hg.initHeap_eq]
    exact ⟨bs, hg, hown⟩

theorem Inv.owns (h : Inv P s live) (hp : p ∈ live) : Owns P s live :=
  h.resolve_left fun hnone => not_mem_nil (hnone.2 ▸ hp)

theorem Good.write (h : Good P.base s bs) (hb : b ∈ bs)
    (hm : ∀ j, j < b.addr + blockSize ∨ b.addr + blockSize + b.size ≤ j → m j = s.mem j) :
    Good P.base { s with mem := m } bs := by
  refine ⟨h.init, h.head, h.listed.congr fun c hc j hj hj' => hm j ?_, h.tiles, h.separated⟩
  obtain ⟨l, l', rfl⟩ := append_of_mem hb
  obtain ⟨hleft, hright⟩ := h.tiles.around
  rcases mem_append.mp hc with hc | hc
  · have := hleft c hc
    omega
  · rcases mem_cons.mp hc with rfl | hc
    · omega
    · have := hright c hc
      omega

theorem Owns.write (h : Owns P s live) (hp : p ∈ live)
    (hm : ∀ j, j < p ∨ p + (sizeField (p - blockSize)).get s.mem ≤ j → m j = s.mem j) :
    Owns P { s with mem := m } live := by
  obtain ⟨bs, hg, hnd, hlive⟩ := h
  obtain ⟨b, hb, -, rfl⟩ := mem_payloads.mp ((hlive p).mp hp)
  obtain ⟨l, l', rfl⟩ := append_of_mem hb
  obtain ⟨r, -, hr, hsize, -, -⟩ := hg.listed.split
  rw [hr] at hsize
  rw [Nat.add_sub_cancel, hsize] at hm
  exact ⟨_, hg.write hb hm, hnd, hlive⟩

/-- **`malloc` hands out a block that nobody holds**, with room for `align16 n` bytes. -/
theorem Inv.alloc (h : Inv P s live) (hn : n ≠ 0) :
    ∃ s' r, malloc P.base s n = some (s', r) ∧ Owns P s' (handOut live r) ∧
      (r ≠ 0 → r ∉ live ∧ align16 n ≤ (sizeField (r - blockSize)).get s'.mem) := by
  obtain ⟨bs, hg, hnd, hlive⟩ := h.ready
  have hready : malloc P.base s n = malloc P.base (initHeap P.base s) n := by
    rw [malloc, malloc, if_neg hn, if_neg hn, hg.initHeap_eq]
  rw [hready]
  rcases malloc_spec hg hn with hnone | ⟨l, b, l', s', rfl, hfree, hfit, hrun, hg'⟩
  · exact ⟨_, 0, hnone, ⟨bs, { hg with }, hnd, hlive⟩, fun h0 => absurd rfl h0⟩
  · refine ⟨s', _, hrun, ?_, fun _ => ?_⟩
    all_goals
      have hnew : b.addr + blockSize ∉ live := by
        intro hmem
        obtain ⟨c, hc, hcfree, heq⟩ := mem_payloads.mp ((hlive _).mp hmem)
        obtain ⟨hleft, hright⟩ := hg.tiles.around
        simp only [blockSize] at hleft hright heq
        rcases mem_append.mp hc with hc | hc
        · have := hleft c hc
          omega
        · rcases mem_cons.mp hc with rfl | hc
          · rw [hfree] at hcfree
            cases hcfree
          · have := hright c hc
            omega
    · rw [handOut, if_neg (by simp only [blockSize]; omega)]
      refine ⟨_, hg', nodup_cons.mpr ⟨hnew, hnd⟩, fun p => ?_⟩
      rw [mem_cons, mem_payloads_carve hfree, hlive p]
    · refine ⟨hnew, ?_⟩
      obtain ⟨r, -, hr⟩ := hg'.listed.split
      obtain ⟨q, hq, -⟩ := hr.split
      rw [Nat.add_sub_cancel]
      rw [carve] at hq
      split at hq
      · rw [← hq.1, hq.2.1]
      · rw [← hq.1, hq.2.1]
        exact hfit

/-- **`free` takes a live block back.** -/
theorem Owns.release (h : Owns P s live) (hp : p ∈ live) :
    ∃ s', free s p = some s' ∧ Owns P s' (live.erase p) := by
  obtain ⟨bs, hg, hnd, hlive⟩ := h
  obtain ⟨b, hb, hused, rfl⟩ := mem_payloads.mp ((hlive p).mp hp)
  obtain ⟨l, l', rfl⟩ := append_of_mem hb
  obtain ⟨s', hrun, hg'⟩ := free_spec hg
  refine ⟨s', hrun, _, hg', hnd.erase _, fun p => ?_⟩
  rw [payloads_coalesce, mem_payloads_release (by decide) hused hg.tiles, ← hlive p,
    hnd.mem_erase_iff, and_comm]

theorem align16_ge (h : n + 15 < 2 ^ 64) : n ≤ align16 n := by
  rw [align16, Nat.mod_eq_of_lt h]
  omega

theorem Inv.call_malloc (h : Inv P s live) (n : ℕ) :
    ∃ r, malloc P.base s n = some r ∧ Inv P r.1 (handOut live r.2) := by
  by_cases hn : n = 0
  · exact ⟨(s, 0), by rw [malloc, if_pos hn], h⟩
  · obtain ⟨s', r, hrun, hown, -⟩ := h.alloc hn
    exact ⟨(s', r), hrun, .inr hown⟩

/-- `calloc` clears the block it got, and no more. -/
theorem Inv.call_calloc (h : Inv P s live) {m : ℕ} (hw : NoWrap (.calloc m n)) :
    ∃ r, calloc P.base s m n = some r ∧ Inv P r.1 (handOut live r.2) := by
  rw [calloc]
  by_cases hz : m = 0 ∨ n = 0
  · exact ⟨(s, 0), by rw [if_pos hz], h⟩
  rw [if_neg hz]
  by_cases hover : (2 ^ 64 - 1) / n < m
  · refine ⟨({ s with errno := enomem }, 0), by rw [if_pos hover], ?_⟩
    rcases h with h | ⟨bs, hg, hown⟩
    · exact .inl h
    · exact .inr ⟨bs, { hg with }, hown⟩
  rw [if_neg hover]
  have hn : 0 < n := by omega
  have hmul : m * n ≤ 2 ^ 64 - 1 := (Nat.le_div_iff_mul_le hn).mp (Nat.not_lt.mp hover)
  have hfit : m * n + 15 < 2 ^ 64 := by
    rcases hw with hw | hw <;> omega
  have hne : m * n ≠ 0 := Nat.mul_ne_zero (by omega) (by omega)
  obtain ⟨s', r, hrun, hown, hroom⟩ := h.alloc hne
  rw [hrun]
  by_cases hr : r = 0
  · exact ⟨(s', r), congrArg some (if_pos hr), .inr hown⟩
  · refine ⟨({ s' with mem := memset s'.mem r (m * n) }, r), congrArg some (if_neg hr), .inr ?_⟩
    have hlive : r ∈ handOut live r := by
      rw [handOut, if_neg hr]
      exact mem_cons_self
    refine hown.write hlive fun j hj => blit_apply_of_outside s'.mem r _ (m * n) ?_
    have := (hroom hr).2
    have := align16_ge hfit
    omega

/-- `realloc` of a live block: the block stays, is freed, or moves with its contents. -/
theorem Owns.call_realloc (h : Owns P s live) (hp : p ∈ live) (hp0 : p ≠ 0) (hw : n + 15 < 2 ^ 64) :
    ∃ r, realloc P.base s p n = some r ∧ Inv P r.1 (handOver live p n r.2) := by
  rw [realloc, if_neg hp0]
  simp only [handOver, if_neg hp0]
  by_cases hn : n = 0
  · obtain ⟨s', hrun, hown⟩ := h.release hp
    refine ⟨(s', 0), by rw [if_pos hn, hrun]; rfl, ?_⟩
    rw [if_pos hn]
    exact .inr hown
  rw [if_neg hn]
  by_cases hbig : n ≤ (sizeField (p - blockSize)).get s.mem
  · refine ⟨(s, p), by rw [if_pos hbig], ?_⟩
    rw [if_neg hn, if_pos (.inr rfl)]
    exact .inr h
  rw [if_neg hbig]
  obtain ⟨s', r, hrun, hown, hroom⟩ := Inv.alloc (.inr h) hn
  rw [hrun]
  by_cases hr : r = 0
  · refine ⟨(s', 0), by dsimp only; rw [if_pos hr], ?_⟩
    rw [if_neg hn, if_pos (.inl rfl)]
    rw [handOut, if_pos hr] at hown
    exact .inr hown
  · obtain ⟨hnew, hsize⟩ := hroom hr
    have hpr : r ≠ p := fun heq => hnew (heq ▸ hp)
    rw [handOut, if_neg hr] at hown
    -- the copy stays inside the new block
    have hcopied := hown.write mem_cons_self
      (m := memcpy s'.mem r p (if (sizeField (p - blockSize)).get s'.mem < n
        then (sizeField (p - blockSize)).get s'.mem else n))
      (fun j hj => blit_apply_of_outside _ _ _ _ (by
        have hle := align16_ge hw
        split <;> omega))
    obtain ⟨s'', hrun', hown'⟩ := hcopied.release (mem_cons_of_mem r hp)
    refine ⟨(s'', r), ?_, ?_⟩
    · dsimp only
      rw [if_neg hr, hrun']
      rfl
    · rw [if_neg hn, if_neg (fun hor => hor.elim hr hpr)]
      rw [erase_cons_tail (by simpa using hpr)] at hown'
      exact .inr hown'

/-- **One call.**  On a heap that satisfies the invariant a call returns, and the invariant holds
again. -/
theorem exec_spec {s : Client} {c : Call} (h : Inv P s.heap s.live) (hl : Legit s c)
    (hw : NoWrap c) : ∃ s', exec P.base s c = some s' ∧ Inv P s'.heap s'.live := by
  cases c with
  | malloc n =>
    obtain ⟨r, hrun, hinv⟩ := h.call_malloc n
    exact ⟨_, by rw [exec, hrun]; rfl, hinv⟩
  | calloc m n =>
    obtain ⟨r, hrun, hinv⟩ := h.call_calloc hw
    exact ⟨_, by rw [exec, hrun]; rfl, hinv⟩
  | realloc p n =>
    by_cases hp0 : p = 0
    · obtain ⟨r, hrun, hinv⟩ := h.call_malloc n
      refine ⟨⟨r.1, handOver s.live p n r.2⟩, by rw [exec, realloc, if_pos hp0, hrun]; rfl, ?_⟩
      rw [handOver, if_pos hp0]
      exact hinv
    · have hp := hl.1.resolve_left hp0
      obtain ⟨r, hrun, hinv⟩ := (h.owns hp).call_realloc hp hp0 (hw.resolve_left hp0)
      exact ⟨_, by rw [exec, hrun]; rfl, hinv⟩
  | free p =>
    by_cases hp : p ∈ s.live
    · obtain ⟨s', hrun, hown'⟩ := (h.owns hp).release hp
      exact ⟨_, by rw [exec, hrun]; rfl, .inr hown'⟩
    · obtain rfl := hl.resolve_right hp
      refine ⟨⟨s.heap, s.live.erase 0⟩, by rw [exec, free, if_pos rfl]; rfl, ?_⟩
      rw [erase_of_not_mem hp]
      exact h
  | store a v =>
    obtain ⟨p, hp, hpa, hap⟩ := hl
    exact ⟨_, rfl, .inr ((h.owns hp).write hp fun j hj =>
      blit_apply_of_outside _ _ _ _ (by omega))⟩

/-! ### Every run -/

/-- **What is said of the heap**, in terms of the block list that memory holds.  Before the first
request there is no list and nothing is live. -/
structure HeapTiled (base : ℕ) (s : Client) : Prop where
  before : s.heap.heapInit = false → s.live = []
  after : s.heap.heapInit = true → ∃ bs, Listed s.heap.mem s.heap.freeList bs 0 ∧
    Tiles blockSize base bs (base + heapSize) ∧ extent blockSize bs = heapSize ∧ Separated bs ∧
    (∀ p, p ∈ s.live ↔ ∃ b ∈ bs, b.free = false ∧ p = b.addr + blockSize) ∧
    (s.live = [] → bs = [⟨base, heapSize - blockSize, true⟩])

theorem Inv.heapTiled {s : Client} (h : Inv P s.heap s.live) : HeapTiled P.base s := by
  rcases h with ⟨hi, hnil⟩ | ⟨bs, hg, -, hlive⟩
  · exact ⟨fun _ => hnil, fun ht => by rw [hi] at ht; cases ht⟩
  · have hinit : s.heap.heapInit ≠ false := by
      rw [hg.init]
      decide
    refine ⟨fun hf => absurd hf hinit, fun _ => ⟨bs, ?_, hg.tiles, ?_, hg.separated,
      fun p => (hlive p).trans mem_payloads, fun hnil => ?_⟩⟩
    · rw [hg.head]
      exact hg.listed
    · have := hg.tiles.extent_eq
      omega
    · have hnone : payloads blockSize bs = [] := by
        apply eq_nil_iff_forall_not_mem.mpr
        intro p hp
        rw [← hlive p, hnil] at hp
        exact absurd hp not_mem_nil
      rw [single_of_all_free hg.separated hnone hg.tiles (by simp only [heapSize]; omega),
        Nat.add_sub_cancel_left]

/-- **The heap of every run.**  Wherever the array stands, after any calls on live pointers and
stores into live blocks, in which no `calloc` or `realloc` asks for more than `SIZE_MAX - 15`
bytes, the heap is tiled as `HeapTiled` says; and the next such call returns. -/
theorem heap_tiled_of_run (P : Placement) {cs : List Call} {s : Client}
    (h : RunIn (fun s c => Legit s c ∧ NoWrap c) (step P.base) boot cs s) :
    HeapTiled P.base s ∧ ∀ c, Legit s c → NoWrap c → ∃ s', step P.base s c s' := by
  have hinv : Inv P s.heap s.live := by
    refine RunIn.invariant (fun s => Inv P s.heap s.live) ?_ h (.inl ⟨rfl, rfl⟩)
    intro s c s' hI hG hst
    obtain ⟨s1, hrun, hI'⟩ := exec_spec hI hG.1 hG.2
    rw [step, hrun] at hst
    cases hst
    exact hI'
  refine ⟨hinv.heapTiled, fun c hl hw => ?_⟩
  obtain ⟨s', hrun, -⟩ := exec_spec hinv hl hw
  exact ⟨s', hrun⟩

/-- A heap at the second page, for the runs below. -/
def secondPage : Placement := ⟨4096, Nat.two_pow_pos 12, by decide⟩

/-- A block that is allocated, written, moved by `realloc` and freed. -/
def movedBlock : List Call :=
  [.malloc 100, .store 4125 7, .calloc 3 5, .realloc 4120 300, .free 4256]

theorem movedBlock_runs :
    (execAll (exec 4096) (fun s c => Legit s c ∧ NoWrap c) boot movedBlock).isSome = true := by
  decide +kernel

theorem heap_tiled_of_run_moved : ∃ s,
    RunIn (fun s c => Legit s c ∧ NoWrap c) (step secondPage.base) boot movedBlock s ∧
      HeapTiled secondPage.base s := by
  obtain ⟨s, hs⟩ := Option.isSome_iff_exists.mp movedBlock_runs
  exact ⟨s, runIn_of_execAll hs, (heap_tiled_of_run secondPage (runIn_of_execAll hs)).1⟩

/-- Growing a block of 100 bytes to `SIZE_MAX`. -/
def wrappedGrowth : List Call := [.malloc 100, .realloc 4120 (2 ^ 64 - 1)]

theorem wrappedGrowth_runs : (execAll (exec 4096) Legit boot wrappedGrowth).isSome = true := by
  decide +kernel

/-- The state that growth leads to. -/
def afterGrowth : Client :=
  (execAll (exec 4096) Legit boot wrappedGrowth).get wrappedGrowth_runs

/-- The headers that `next` leads through: the third one has been overwritten with the old block's
contents, zeros. -/
theorem afterGrowth_headers : afterGrowth.heap.heapInit = true ∧ afterGrowth.heap.freeList = 4096 ∧
      (sizeField 4096).get afterGrowth.heap.mem = 112 ∧
      (nextField 4096).get afterGrowth.heap.mem = 4232 ∧
      (sizeField 4232).get afterGrowth.heap.mem = 0 ∧
      (nextField 4232).get afterGrowth.heap.mem = 4256 ∧
      (sizeField 4256).get afterGrowth.heap.mem = 0 ∧
      (nextField 4256).get afterGrowth.heap.mem = 0 := by
  decide +kernel

/-- **`realloc` to `SIZE_MAX` breaks the heap.**  `ALIGN16` wraps to 0, so the new block has no
payload, and the copy of the old one goes over the header behind it: the list ends after 184 bytes
and the rest of the heap is lost. -/
theorem realloc_wrap_breaks_heap : ∃ s,
    RunIn Legit (step secondPage.base) boot [.malloc 100, .realloc 4120 (2 ^ 64 - 1)] s ∧
      ¬ HeapTiled secondPage.base s := by
  refine ⟨afterGrowth, runIn_of_execAll (Option.some_get wrappedGrowth_runs).symm, ?_⟩
  intro ht
  obtain ⟨hinit, hhead, hs1, hn1, hs2, hn2, hs3, hn3⟩ := afterGrowth_headers
  obtain ⟨bs, hl, htiles, hext, -⟩ := ht.after hinit
  rw [hhead] at hl
  match bs, hl, htiles, hext with
  | [], hl, _, _ =>
    rw [Listed] at hl
    omega
  | [b], hl, _, _ =>
    have hb := hl.2.2.2
    rw [Listed, hn1] at hb
    omega
  | [b, c], hl, _, _ =>
    have hb := hl.2.2.2
    rw [hn1] at hb
    have hc := hb.2.2.2
    rw [Listed, hn2] at hc
    omega
  | b :: c :: d :: bs, hl, htiles, hext =>
    obtain ⟨-, hb, -, hl⟩ := hl
    rw [hn1] at hl
    obtain ⟨-, hc, -, hl⟩ := hl
    rw [hn2] at hl
    obtain ⟨-, hd, -, hl⟩ := hl
    rw [hn3] at hl
    -- the list ends here, since no block stands at 0
    have hend : bs = [] := by
      cases bs with
      | nil => rfl
      | cons f bs =>
        have hf := (htiles.bounds f (by simp)).1
        rw [← hl.1] at hf
        cases hf
    rw [hend] at hext
    simp only [extent, map_cons, map_nil, sum_cons, sum_nil, ← hb, ← hc, ← hd,
      hs1, hs2, hs3] at hext
    cases hext

end AxiomeOS.Libc
