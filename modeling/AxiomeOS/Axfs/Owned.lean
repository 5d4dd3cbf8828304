import AxiomeOS.Axfs.Volume
import Mathlib.Data.Finset.Card

/-!
# axiomefs: who owns which block

`Owned v S` says that the inodes in `S` and the blocks their extents name share nothing: all of
them are marked used in the bitmap, no block is the extent of two inodes or twice of one, and no
extent is itself an inode of `S`.

Each operation is described once by what it does to the blocks:

* `afsAllocBlock_spec` — an allocation that finds a block marks one that was free;
* `Extended` — a run of block writes and appended extents, for one inode, touches the blocks of
  that inode and free blocks only; `writeBlocks_extended` says that the loop of `axfs_write` is
  such a run, and that it ends when there are blocks enough;
* `Writable.extended` — such a run leaves what the next one needs.
-/

namespace AxiomeOS.Axfs

open Bytes Finset

variable {b k n : ℕ}

/-! ### Inodes -/

/-- `extent_count` of an inode. -/
def count (di : Block) : ℕ := Inode.extentCount.get di

/-- `extents[k].physical_block` of an inode. -/
def extent (di : Block) (k : ℕ) : ℕ := (Inode.physicalBlock k).get di

variable {di : Block} {f : Field} {i' j len off : ℕ}

theorem count_appendExtent (h : count di < maxExtents) :
    count (appendExtent di n) = count di + 1 := by
  have hlt : count di + 1 < 256 ^ Inode.extentCount.width := by
    show count di + 1 < 256 ^ 4
    have : count di < 160 := h
    omega
  exact Field.get_put _ _ hlt

theorem extent_appendExtent (hn : n < 2 ^ 64) (k : ℕ) :
    extent (appendExtent di n) k = if k = count di then n else extent di k := by
  have hcount : (Inode.extentCount).Disjoint (Inode.physicalBlock k) := by
    simp only [Field.Disjoint, Inode.extentCount, Inode.physicalBlock]
    omega
  have href : (Inode.referenceCount (count di)).Disjoint (Inode.physicalBlock k) := by
    simp only [Field.Disjoint, Inode.referenceCount, Inode.physicalBlock]
    omega
  have hblk : (Inode.blockCount (count di)).Disjoint (Inode.physicalBlock k) := by
    simp only [Field.Disjoint, Inode.blockCount, Inode.physicalBlock]
    omega
  show (Inode.physicalBlock k).get (Inode.extentCount.put _ ((Inode.referenceCount (count di)).put 1
    ((Inode.blockCount (count di)).put 1 ((Inode.physicalBlock (count di)).put n di)))) = _
  rw [Field.get_put_of_disjoint _ _ hcount, Field.get_put_of_disjoint _ _ href,
    Field.get_put_of_disjoint _ _ hblk]
  by_cases hk : k = count di
  · rw [if_pos hk, ← hk]
    exact Field.get_put _ _ hn
  · rw [if_neg hk]
    apply Field.get_put_of_disjoint
    simp only [Field.Disjoint, Inode.physicalBlock]
    omega

theorem get_appendExtent (di : Block) (n : ℕ) (h : f.off + f.width ≤ 84) :
    f.get (appendExtent di n) = f.get di := by
  apply f.get_congr
  intro j _ hj
  have hlow : ∀ g : Field, ∀ (w : ℕ) (b : Block), 84 ≤ g.off → g.put w b j = b j :=
    fun g w b hg => g.put_apply_of_outside w b (.inl (by omega))
  rw [appendExtent, hlow _ _ _ (by simp [Inode.extentCount]),
    hlow _ _ _ (by simp only [Inode.referenceCount]; omega),
    hlow _ _ _ (by simp only [Inode.blockCount]; omega),
    hlow _ _ _ (by simp only [Inode.physicalBlock]; omega)]

/-! ### Writing blocks -/

section Blocks

variable (v : Volume)

@[simp] theorem blocks_afsWriteBlock (b : ℕ) (buf : Block) (j : ℕ) :
    (v.afsWriteBlock b buf).blocks j = if j = b then buf else v.blocks j := rfl

theorem marked_afsWriteBlock (h : b ≠ v.freeBitmapBlock) (buf : Block) (j : ℕ) :
    (v.afsWriteBlock b buf).marked j = v.marked j := by
  show getBit (if v.freeBitmapBlock = b then buf else v.blocks v.freeBitmapBlock) j = _
  rw [if_neg (Ne.symm h)]
  rfl

theorem blocks_writeInode_of_ne (h : j ≠ b) (di : Block) :
    (writeInode v b di).blocks j = v.blocks j := if_neg h

theorem marked_writeInode (h : b ≠ v.freeBitmapBlock) (di : Block) (j : ℕ) :
    (writeInode v b di).marked j = v.marked j :=
  marked_afsWriteBlock v h _ j

theorem get_writeInode (b : ℕ) (di : Block) (h : 32 ≤ f.off) :
    f.get ((writeInode v b di).blocks b) = f.get di := by
  apply f.get_congr
  intro j hj _
  have hhigh : ∀ g : Field, ∀ (w : ℕ) (c : Block), g.off + g.width ≤ 32 → g.put w c j = c j :=
    fun g w c hg => g.put_apply_of_outside w c (.inr (by omega))
  show (if b = b then afsSetChecksum _ else v.blocks b) j = di j
  rw [if_pos rfl, afsSetChecksum, hhigh _ _ _ (by decide), hhigh _ _ _ (by decide),
    hhigh _ _ _ (by decide), hhigh _ _ _ (by decide)]

end Blocks

/-! ### Allocation -/

/-- The volume with block `n` marked used. -/
def Volume.mark (v : Volume) (n : ℕ) : Volume :=
  v.afsWriteBlock v.freeBitmapBlock (setBit (v.blocks v.freeBitmapBlock) n)

/-- The blocks that have their bit in the one block of the bitmap.  `afs_alloc_block` goes on to
`total_blocks`, so on a larger volume it leaves its buffer once these are all used. -/
def Volume.limit (v : Volume) : ℕ := min v.totalBlocks 32768

/-- How many of them are free. -/
def Volume.freeBlocks (v : Volume) : ℕ :=
  ((Finset.range v.limit).filter fun i => v.marked i = false).card

theorem marked_mark (v : Volume) (n j : ℕ) :
    (v.mark n).marked j = (v.marked j || decide (j = n)) := by
  show getBit (if v.freeBitmapBlock = v.freeBitmapBlock then _ else _) j = _
  rw [if_pos rfl]
  exact getBit_setBit _ n j

theorem blocks_mark_of_ne (v : Volume) (n : ℕ) (h : j ≠ v.freeBitmapBlock) :
    (v.mark n).blocks j = v.blocks j := if_neg h

/-- **An allocation that finds a block** marks the first one that was free and answers it. -/
theorem afsAllocBlock_of_clear {v : Volume} {i : ℕ} (hi : i < v.totalBlocks)
    (hclear : v.marked i = false) :
    ∃ n, n ≤ i ∧ v.marked n = false ∧ afsAllocBlock v = (v.mark n, n) := by
  cases hfind : (List.range v.totalBlocks).find?
      (fun i => !getBit (v.afsReadBlock v.freeBitmapBlock) i) with
  | none =>
    have hused := List.find?_eq_none.mp hfind i (List.mem_range.mpr hi)
    have hfree : getBit (v.afsReadBlock v.freeBitmapBlock) i = false := hclear
    rw [hfree] at hused
    exact absurd rfl hused
  | some n =>
    obtain ⟨hfree, -, hbefore⟩ := List.find?_range_eq_some.mp hfind
    refine ⟨n, ?_, ?_, ?_⟩
    · by_contra hlt
      have hused := hbefore i (by omega)
      have hfree : getBit (v.afsReadBlock v.freeBitmapBlock) i = false := hclear
      rw [hfree] at hused
      exact absurd hused (by decide)
    · rw [Bool.not_eq_true'] at hfree
      exact hfree
    · rw [afsAllocBlock, hfind]
      rfl

theorem afsAllocBlock_spec {v : Volume} (h : 0 < v.freeBlocks) :
    ∃ n, n < v.limit ∧ v.marked n = false ∧ afsAllocBlock v = (v.mark n, n) := by
  obtain ⟨i, hi⟩ := card_pos.mp h
  rw [mem_filter, mem_range] at hi
  obtain ⟨n, hn, hfree, halloc⟩ :=
    afsAllocBlock_of_clear (Nat.lt_of_lt_of_le hi.1 (Nat.min_le_left _ _)) hi.2
  exact ⟨n, Nat.lt_of_le_of_lt hn hi.1, hfree, halloc⟩

theorem freeBlocks_congr {v w : Volume} (ht : w.totalBlocks = v.totalBlocks)
    (hm : ∀ j, w.marked j = v.marked j) : w.freeBlocks = v.freeBlocks := by
  rw [Volume.freeBlocks, Volume.freeBlocks, Volume.limit, Volume.limit, ht]
  simp only [hm]

theorem freeBlocks_mark {v : Volume} (hn : n < v.limit) (hfree : v.marked n = false) :
    (v.mark n).freeBlocks + 1 = v.freeBlocks := by
  have hset : ((range v.limit).filter fun i => (v.mark n).marked i = false) =
      ((range v.limit).filter fun i => v.marked i = false).erase n := by
    ext i
    simp only [mem_filter, mem_erase, marked_mark, Bool.or_eq_false_iff,
      decide_eq_false_iff_not]
    constructor
    · intro hi
      exact ⟨hi.2.2, hi.1, hi.2.1⟩
    · intro hi
      exact ⟨hi.2.1, hi.2.2, hi.1⟩
  have hmem : n ∈ (range v.limit).filter fun i => v.marked i = false := by
    rw [mem_filter, mem_range]
    exact ⟨hn, hfree⟩
  show ((range v.limit).filter fun i => (v.mark n).marked i = false).card + 1 = _
  rw [hset, card_erase_add_one hmem]
  rfl

/-! ### What writing one inode's blocks can do -/

/-- The volume and inode after a run of block writes and appended extents, for one inode. -/
structure Extended (v : Volume) (di : Block) (v' : Volume) (di' : Block) : Prop where
  total : v'.totalBlocks = v.totalBlocks
  bitmap : v'.freeBitmapBlock = v.freeBitmapBlock
  root : v'.rootInodeBlock = v.rootInodeBlock
  count_le : count di ≤ count di'
  marked : ∀ j, v.marked j = true → v'.marked j = true
  free : v'.freeBlocks + (count di' - count di) = v.freeBlocks
  old : ∀ k, k < count di → extent di' k = extent di k
  fresh : ∀ k, count di ≤ k → k < count di' →
    extent di' k < v.limit ∧ v.marked (extent di' k) = false ∧
      v'.marked (extent di' k) = true
  inj : ∀ k k', count di ≤ k → k < count di' → count di ≤ k' → k' < count di' →
    extent di' k = extent di' k' → k = k'
  head : ∀ f : Field, f.off + f.width ≤ 84 → f.get di' = f.get di
  frame : ∀ j, v.marked j = true → j ≠ v.freeBitmapBlock → (∀ k, k < count di → extent di k ≠ j) →
    v'.blocks j = v.blocks j

theorem Extended.refl (v : Volume) (di : Block) : Extended v di v di where
  total := rfl
  bitmap := rfl
  root := rfl
  count_le := Nat.le_refl _
  marked := fun _ h => h
  free := by omega
  old := fun _ _ => rfl
  fresh := fun k h h' => absurd h' (Nat.not_lt.mpr h)
  inj := fun k _ h h' => absurd h' (Nat.not_lt.mpr h)
  head := fun _ _ => rfl
  frame := fun _ _ _ _ => rfl

section Run

variable {v v' : Volume} {d : Block} (he : Extended v di v' d)
include he

theorem Extended.fresh_ne (hb : v.marked b = true) (hk : count di ≤ k) (hk' : k < count d) :
    extent d k ≠ b := by
  rintro rfl
  rw [(he.fresh k hk hk').2.1] at hb
  cases hb

/-- Extents from `m` on that are marked and differ still differ: the new ones were free. -/
theorem Extended.inj_from {m : ℕ}
    (hused : ∀ k, m ≤ k → k < count di → v.marked (extent di k) = true)
    (hinj : ∀ k k', m ≤ k → k < count di → m ≤ k' → k' < count di →
      extent di k = extent di k' → k = k') {k' : ℕ} (hm : m ≤ k) (hk : k < count d) (hm' : m ≤ k')
    (hk' : k' < count d) (heq : extent d k = extent d k') : k = k' := by
  by_cases hold : k < count di
  · rw [he.old k hold] at heq
    by_cases hold' : k' < count di
    · rw [he.old k' hold'] at heq
      exact hinj k k' hm hold hm' hold' heq
    · exact absurd heq.symm (he.fresh_ne (hused k hm hold) (by omega) hk')
  · by_cases hold' : k' < count di
    · rw [he.old k' hold'] at heq
      exact absurd heq (he.fresh_ne (hused k' hm' hold') (by omega) hk)
    · exact he.inj k k' (by omega) hk (by omega) hk' heq

end Run

theorem Extended.limit_eq {v v' : Volume} {d : Block} (he : Extended v di v' d) :
    v'.limit = v.limit := by
  rw [Volume.limit, Volume.limit, he.total]

theorem Extended.trans {v₁ v₂ v₃ : Volume} {d₁ d₂ d₃ : Block} (h : Extended v₁ d₁ v₂ d₂)
    (h' : Extended v₂ d₂ v₃ d₃) : Extended v₁ d₁ v₃ d₃ := by
  have hle := h.count_le
  have hle' := h'.count_le
  refine
    { total := h'.total.trans h.total
      bitmap := h'.bitmap.trans h.bitmap
      root := h'.root.trans h.root
      count_le := Nat.le_trans hle hle'
      marked := fun j hj => h'.marked j (h.marked j hj)
      free := ?_
      old := ?_
      fresh := ?_
      inj := fun _ _ => h'.inj_from (fun k hk hk2 => (h.fresh k hk hk2).2.2) h.inj
      head := fun f hf => (h'.head f hf).trans (h.head f hf)
      frame := ?_ }
  · have h1 := h.free
    have h2 := h'.free
    omega
  · intro k hk
    rw [h'.old k (by omega), h.old k hk]
  · intro k hk hk3
    by_cases hk2 : k < count d₂
    · have hk1 := h.fresh k hk hk2
      rw [h'.old k hk2]
      exact ⟨hk1.1, hk1.2.1, h'.marked _ hk1.2.2⟩
    · have hnew := h'.fresh k (by omega) hk3
      refine ⟨h.limit_eq ▸ hnew.1, ?_, hnew.2.2⟩
      cases hm : v₁.marked (extent d₃ k) with
      | false => rfl
      | true => exact absurd (h.marked _ hm) (ne_true_of_eq_false hnew.2.1)
  · intro j hj hbm hext
    have hsecond : ∀ k, k < count d₂ → extent d₂ k ≠ j := by
      intro k hk heq
      by_cases hk1 : k < count d₁
      · exact hext k hk1 ((h.old k hk1).symm.trans heq)
      · exact h.fresh_ne hj (by omega) hk heq
    rw [h'.frame j (h.marked j hj) (h.bitmap ▸ hbm) hsecond, h.frame j hj hbm hext]

/-- Writing a block the inode already has. -/
theorem Extended.write {v : Volume} (hk : k < count di)
    (hbm : extent di k ≠ v.freeBitmapBlock) (buf : Block) :
    Extended v di (v.afsWriteBlock (extent di k) buf) di :=
  { Extended.refl v di with
    marked := fun j hj => (marked_afsWriteBlock v hbm buf j).trans hj
    free := by
      rw [Nat.sub_self, Nat.add_zero]
      exact freeBlocks_congr rfl (marked_afsWriteBlock v hbm buf)
    fresh := fun k h h' => absurd h' (Nat.not_lt.mpr h)
    frame := fun j _ _ hext => if_neg fun hj => hext k hk hj.symm }

/-- Writing a block that was free and appending it. -/
theorem Extended.append {v : Volume} (hbm : v.marked v.freeBitmapBlock = true)
    (hcount : count di < maxExtents) (hn : n < v.limit) (hfree : v.marked n = false) (buf : Block) :
    Extended v di ((v.mark n).afsWriteBlock n buf) (appendExtent di n) := by
  have hne : n ≠ v.freeBitmapBlock := by
    intro h
    rw [h, hbm] at hfree
    exact Bool.noConfusion hfree
  have hmarks : ∀ j, ((v.mark n).afsWriteBlock n buf).marked j = (v.marked j || decide (j = n)) :=
    fun j => (marked_afsWriteBlock (v.mark n) hne buf j).trans (marked_mark v n j)
  have hext : ∀ k, extent (appendExtent di n) k = if k = count di then n else extent di k :=
    extent_appendExtent (by rw [Volume.limit] at hn; omega)
  have hc := count_appendExtent (n := n) hcount
  have hlast : ∀ k, count di ≤ k → k < count (appendExtent di n) → k = count di := by
    intro k hk hk'
    omega
  refine
    { total := rfl
      bitmap := rfl
      root := rfl
      count_le := by omega
      marked := fun j hj => by rw [hmarks, hj, Bool.true_or]
      free := ?_
      old := fun k hk => by rw [hext, if_neg (by omega)]
      fresh := ?_
      inj := fun k k' hk hk2 hk' hk2' _ => (hlast k hk hk2).trans (hlast k' hk' hk2').symm
      head := fun f hf => get_appendExtent di n hf
      frame := ?_ }
  · have hcard := freeBlocks_mark hn hfree
    have hsame : ((v.mark n).afsWriteBlock n buf).freeBlocks = (v.mark n).freeBlocks :=
      freeBlocks_congr rfl (marked_afsWriteBlock (v.mark n) hne buf)
    omega
  · intro k hk hk'
    rw [hext, if_pos (hlast k hk hk')]
    refine ⟨hn, hfree, ?_⟩
    rw [hmarks, decide_eq_true rfl, Bool.or_true]
  · intro j hj hjbm _
    have hjn : j ≠ n := by
      intro h
      rw [← h, hj] at hfree
      exact Bool.noConfusion hfree
    rw [blocks_afsWriteBlock, if_neg hjn, blocks_mark_of_ne v n hjbm]

/-! ### The loop of `axfs_write` -/

theorem lastByte_eq (h : 0 < off + len) (h' : off + len ≤ 2 ^ 64) :
    lastByte off len = off + len - 1 := by
  rw [lastByte]
  omega

theorem chunkHi_lt (off len L : ℕ) : chunkHi off len L < 4096 := by
  rw [chunkHi]
  split <;> omega

theorem chunk_fits (h : 0 < off + len) (h' : off + len ≤ 2 ^ 64) (L : ℕ) :
    chunkLo off L + chunkLen off len L = chunkHi off len L + 1 := by
  have hl := lastByte_eq h h'
  have hlo : chunkLo off L ≤ chunkHi off len L + 1 := by
    rw [chunkLo, chunkHi, hl]
    split <;> split <;> omega
  have hhi := chunkHi_lt off len L
  rw [chunkLen]
  omega

section Turns

variable {v : Volume} {di : Block} (buf : ℕ → UInt8) {off len L : ℕ}

/-- The bytes a turn puts into a block `b`. -/
def chunk (buf : ℕ → UInt8) (off len L : ℕ) (b : Block) : Block :=
  blit b (chunkLo off L) (fun j => buf (L * 4096 + chunkLo off L - off + j)) (chunkLen off len L)

/-- **A turn on a block the file has** writes that block and leaves the inode as it is. -/
theorem writeBlock_of_lt (hfit : chunkLo off L + chunkLen off len L ≤ 4096) (hL : L < maxExtents)
    (hlt : L < count di) (hphys : extent di L ≠ 0) : writeBlock buf off len L v di =
      some (v.afsWriteBlock (extent di L) (chunk buf off len L (v.blocks (extent di L))), di) := by
  have hlt' : L < Inode.extentCount.get di := hlt
  have hphys' : (Inode.physicalBlock L).get di ≠ 0 := hphys
  have hbound : ¬(4096 < chunkLo off L + chunkLen off len L ∨
      maxExtents ≤ min L (Inode.extentCount.get di)) := by
    rw [Nat.min_eq_left (Nat.le_of_lt hlt')]
    omega
  have hsame : (Inode.physicalBlock L).put ((Inode.physicalBlock L).get di) di = di :=
    Field.put_get _ _
  simp only [writeBlock, if_pos hlt', if_pos hphys', if_neg hbound, hsame]
  rfl

/-- **A turn past the end of the extents** writes a block that was free and appends it. -/
theorem writeBlock_of_ge (hfit : chunkLo off L + chunkLen off len L ≤ 4096)
    (hge : count di ≤ L) (hcount : count di < maxExtents) (hfree : 0 < v.freeBlocks) :
    ∃ n, n < v.limit ∧ v.marked n = false ∧
      writeBlock buf off len L v di =
        some ((v.mark n).afsWriteBlock n (chunk buf off len L zeroBlock), appendExtent di n) := by
  obtain ⟨n, hn, hnfree, halloc⟩ := afsAllocBlock_spec hfree
  have hge' : ¬L < Inode.extentCount.get di := Nat.not_lt.mpr hge
  have hbound : ¬(4096 < chunkLo off L + chunkLen off len L ∨
      maxExtents ≤ min L (Inode.extentCount.get di)) := by
    rw [Nat.min_eq_right (Nat.le_of_not_lt hge')]
    have : Inode.extentCount.get di < maxExtents := hcount
    omega
  refine ⟨n, hn, hnfree, ?_⟩
  simp only [writeBlock, if_neg hge', ne_eq, not_true_eq_false, if_false, halloc, if_neg hbound]
  rfl

end Turns

/-- What the loop needs of the volume and the inode it works on. -/
structure Writable (v : Volume) (di : Block) : Prop where
  zero_used : v.marked 0 = true
  bitmap_used : v.marked v.freeBitmapBlock = true
  extent_ne : ∀ k, k < count di → extent di k ≠ 0 ∧ extent di k ≠ v.freeBitmapBlock
  extent_used : ∀ k, k < count di → v.marked (extent di k) = true
  extent_inj : ∀ k k', k < count di → k' < count di → extent di k = extent di k' → k = k'

theorem Writable.extended {v v' : Volume} {di' : Block} (hw : Writable v di)
    (he : Extended v di v' di') : Writable v' di' where
  zero_used := he.marked 0 hw.zero_used
  bitmap_used := he.bitmap ▸ he.marked _ hw.bitmap_used
  extent_used := by
    intro k hk
    by_cases hold : k < count di
    · rw [he.old k hold]
      exact he.marked _ (hw.extent_used k hold)
    · exact (he.fresh k (by omega) hk).2.2
  extent_inj := fun k k' hk hk' => he.inj_from (fun k _ => hw.extent_used k)
    (fun k k' _ hk _ => hw.extent_inj k k' hk) k.zero_le hk k'.zero_le hk'
  extent_ne := by
    intro k hk
    by_cases hold : k < count di
    · rw [he.old k hold, he.bitmap]
      exact hw.extent_ne k hold
    · have hne := fun b (hb : v.marked b = true) => he.fresh_ne hb (Nat.le_of_not_lt hold) hk
      exact ⟨hne 0 hw.zero_used, he.bitmap ▸ hne _ hw.bitmap_used⟩

/-- One turn of the loop: it runs, and appends an extent exactly when there is none yet. -/
theorem writeBlock_extended {v : Volume} (hw : Writable v di) (buf : ℕ → UInt8)
    {L : ℕ} (hfit : chunkLo off L + chunkLen off len L ≤ 4096) (hL : L < maxExtents)
    (hfree : count di ≤ L → 0 < v.freeBlocks) :
    ∃ v' di', writeBlock buf off len L v di = some (v', di') ∧ Extended v di v' di' ∧
      count di' = if count di ≤ L then count di + 1 else count di := by
  by_cases hlt : L < count di
  · refine ⟨_, _, writeBlock_of_lt buf hfit hL hlt (hw.extent_ne L hlt).1, ?_, ?_⟩
    · exact .write hlt (hw.extent_ne L hlt).2 _
    · rw [if_neg (by omega)]
  · have hge : count di ≤ L := Nat.le_of_not_lt hlt
    have hcount : count di < maxExtents := Nat.lt_of_le_of_lt hge hL
    obtain ⟨n, hn, hnfree, hturn⟩ := writeBlock_of_ge buf hfit hge hcount (hfree hge)
    refine ⟨_, _, hturn, ?_, ?_⟩
    · exact .append hw.bitmap_used hcount hn hnfree _
    · rw [if_pos hge, count_appendExtent hcount]

/-- **The loop runs** to its end when there are blocks enough, and appends one extent for each
block at or past the old end of the extents. -/
theorem writeBlocks_extended (buf : ℕ → UInt8)
    (hfit : ∀ L, chunkLo off L + chunkLen off len L ≤ 4096) (n L : ℕ) (v : Volume)
    (di : Block) (hw : Writable v di) (hn : L + n ≤ maxExtents)
    (hfree : L + n - max L (count di) ≤ v.freeBlocks) :
    ∃ v' di', writeBlocks buf off len n L v di = some (v', di') ∧ Extended v di v' di' ∧
      count di' = count di + (L + n - max L (count di)) := by
  induction n generalizing L v di with
  | zero => exact ⟨v, di, rfl, .refl v di, by omega⟩
  | succ n ih =>
    obtain ⟨v1, d1, hturn, hext, hcount⟩ := writeBlock_extended hw buf (hfit L) (by omega)
      (by omega)
    have hused := hext.free
    -- a turn past the end uses up one block and one of the extents still to come
    have hstep : L + 1 + n - max (L + 1) (count d1) ≤ v1.freeBlocks ∧
        count d1 + (L + 1 + n - max (L + 1) (count d1)) =
          count di + (L + (n + 1) - max L (count di)) := by
      by_cases hge : count di ≤ L
      · rw [if_pos hge] at hcount
        rw [Nat.max_eq_left hge] at hfree ⊢
        rw [Nat.max_eq_left (show count d1 ≤ L + 1 by omega)]
        omega
      · rw [if_neg hge] at hcount
        rw [Nat.max_eq_right (show L ≤ count di by omega)] at hfree ⊢
        rw [Nat.max_eq_right (show L + 1 ≤ count d1 by omega)]
        omega
    obtain ⟨v', d', hrun, hext', hcount'⟩ := ih (L + 1) v1 d1 (hw.extended hext) (by omega) hstep.1
    refine ⟨v', d', ?_, hext.trans hext', hcount'.trans hstep.2⟩
    rw [writeBlocks, hturn]
    exact hrun

/-! ### Ownership -/

/-- A block that may belong to a file: inside the volume, with a bit in the bitmap, marked used, and
neither the superblock nor the bitmap. -/
structure InUse (v : Volume) (b : ℕ) : Prop where
  lt : b < v.limit
  used : v.marked b = true
  ne_zero : b ≠ 0
  ne_bitmap : b ≠ v.freeBitmapBlock

/-- **The inodes `S` and their extents share no block.** -/
structure Owned (v : Volume) (S : ℕ → Prop) : Prop where
  zero_used : v.marked 0 = true
  bitmap_used : v.marked v.freeBitmapBlock = true
  inode : ∀ i, S i → InUse v i
  count_le : ∀ i, S i → count (v.blocks i) ≤ maxExtents
  extents : ∀ i k, S i → k < count (v.blocks i) →
    InUse v (extent (v.blocks i) k) ∧ ¬S (extent (v.blocks i) k)
  inj : ∀ i k i' k', S i → k < count (v.blocks i) → S i' → k' < count (v.blocks i') →
    extent (v.blocks i) k = extent (v.blocks i') k' → i = i' ∧ k = k'

section Ownership

variable {v v' : Volume} {S : ℕ → Prop} {i : ℕ} {d : Block}

section

variable (ho : Owned v S) (hi : S i)
include ho hi

theorem Owned.writable : Writable v (v.blocks i) where
  zero_used := ho.zero_used
  bitmap_used := ho.bitmap_used
  extent_ne := fun k hk =>
    ⟨(ho.extents i k hi hk).1.ne_zero, (ho.extents i k hi hk).1.ne_bitmap⟩
  extent_used := fun k hk => (ho.extents i k hi hk).1.used
  extent_inj := fun k k' hk hk' heq => (ho.inj i k i k' hi hk hi hk' heq).2

theorem Owned.extent_ne {k' : ℕ} (hi' : S i') (hne : i ≠ i') (hk : k < count (v.blocks i))
    (hk' : k' < count (v.blocks i')) : extent (v.blocks i) k ≠ extent (v.blocks i') k' :=
  fun h => hne (ho.inj i k i' k' hi hk hi' hk' h).1

theorem Owned.inode_frame (he : Extended v (v.blocks i) v' d) (hi' : S i') :
    v'.blocks i' = v.blocks i' := by
  apply he.frame i' (ho.inode i' hi').used (ho.inode i' hi').ne_bitmap
  intro k hk h
  exact (ho.extents i k hi hk).2 (h ▸ hi')

theorem Owned.extent_frame (he : Extended v (v.blocks i) v' d) (hi' : S i') (hne : i ≠ i')
    (hk : k < count (v.blocks i')) :
    v'.blocks (extent (v.blocks i') k) = v.blocks (extent (v.blocks i') k) := by
  have huse := (ho.extents i' k hi' hk).1
  exact he.frame _ huse.used huse.ne_bitmap fun k' hk' => ho.extent_ne hi hi' hne hk' hk

end

theorem count_writeInode (v : Volume) (i : ℕ) (e : Block) :
    count ((writeInode v i e).blocks i) = count e :=
  get_writeInode v i e (by decide)

theorem extent_writeInode (v : Volume) (i : ℕ) (e : Block) (k : ℕ) :
    extent ((writeInode v i e).blocks i) k = extent e k :=
  get_writeInode v i e (by simp only [Inode.physicalBlock]; omega)

end Ownership

end AxiomeOS.Axfs
