import AxiomeOS.Axfs.Owned

/-!
# axiomefs: a file as an array of bytes

`fileByte v i p` is the byte at position `p` of the file with inode `i`: byte `p % 4096` of the
block that extent `p / 4096` names, if `p` is below the size and there is such an extent.
`axfsRead_getElem?` says that this is what `axfs_read` delivers, at whatever offset and length.

`axfs_write` is compared with the array model: afterwards the file holds the written bytes in the
written range, the old bytes outside it, and zeros between the old end and the start of the write.
It does so exactly when `WriteFits` holds (`axfsWrite_byteArray_iff`).  The first condition of
`WriteFits` is that the write does not start beyond the first block after the last extent: the
driver appends the blocks of a write at the end of the extent array, so that a write further out
lands in the wrong logical blocks.
-/

namespace AxiomeOS.Axfs

open Bytes List

variable {L len off : ℕ} {node : Vnode}

/-- The size field of an inode. -/
def size (di : Block) : ℕ := Inode.size.get di

/-- The byte at position `p` of the file with inode `i`. -/
def fileByte (v : Volume) (i p : ℕ) : Option UInt8 :=
  if p < size (v.blocks i) ∧ p / 4096 < count (v.blocks i) then
    some (v.blocks (extent (v.blocks i) (p / 4096)) (p % 4096))
  else none

/-! ### Reading -/

theorem chunkLo_pos (h : off / 4096 ≤ L) : 4096 * L + chunkLo off L = max off (4096 * L) := by
  rw [chunkLo]
  by_cases hL : L = off / 4096
  · rw [if_pos hL, Nat.max_eq_left (by omega)]
    omega
  · rw [if_neg hL, Nat.max_eq_right (by omega)]
    omega

theorem chunkHi_pos (h : 0 < off + len) (h' : off + len ≤ 2 ^ 64)
    (hL : L ≤ (off + len - 1) / 4096) :
    4096 * L + chunkHi off len L + 1 = min (off + len) (4096 * (L + 1)) := by
  rw [chunkHi, lastByte_eq h h']
  by_cases heq : L = (off + len - 1) / 4096
  · rw [if_pos heq, Nat.min_eq_left (by omega)]
    omega
  · rw [if_neg heq, Nat.min_eq_right (by omega)]
    omega

/-- The chunks of the first `n` blocks of a transfer, put together, are its bytes up to the end of
those blocks.  `byte L j` is byte `j` of logical block `L`. -/
theorem flatMap_chunks (byte : ℕ → ℕ → UInt8) {r : ℕ} (h : 0 < r) (h' : off + r ≤ 2 ^ 64) (n : ℕ)
    (hn : off / 4096 + n ≤ (off + r - 1) / 4096 + 1) :
    ((range' (off / 4096) n).flatMap fun L =>
      (range (chunkLen off r L)).map fun j => byte L (chunkLo off L + j)) =
    (range (min (off + r) (4096 * (off / 4096 + n)) - off)).map
      fun k => byte ((off + k) / 4096) ((off + k) % 4096) := by
  induction n with
  | zero =>
    have hzero : min (off + r) (4096 * (off / 4096 + 0)) - off = 0 :=
      Nat.sub_eq_zero_of_le (Nat.le_trans (Nat.min_le_right _ _) (Nat.mul_div_le off 4096))
    rw [hzero]
    rfl
  | succ n ih =>
    have hfirst : off / 4096 ≤ off / 4096 + n := Nat.le_add_right _ _
    have hlast : off / 4096 + n ≤ (off + r - 1) / 4096 := by omega
    have hih := ih (by omega)
    have hsucc : off / 4096 + (n + 1) = off / 4096 + n + 1 := rfl
    rw [range'_1_concat, flatMap_append, hih, hsucc]
    clear hih ih hsucc hn
    generalize off / 4096 + n = L at hfirst hlast ⊢
    have hpos : 4096 * L < off + r := by omega
    have hlo := chunkLo_pos hfirst
    have hhi := chunkHi_pos (Nat.add_pos_right off h) h' hlast
    have hfit := chunk_fits (Nat.add_pos_right off h) h' L
    -- the chunk starts where the earlier ones end, and adds its own length
    have hdone : off + (min (off + r) (4096 * L) - off) = 4096 * L + chunkLo off L := by
      rw [Nat.min_eq_right (Nat.le_of_lt hpos), hlo]
      omega
    have hmore : min (off + r) (4096 * (L + 1)) - off =
        (min (off + r) (4096 * L) - off) + chunkLen off r L := by
      rw [← hhi]
      omega
    generalize min (off + r) (4096 * L) - off = m at hdone hmore ⊢
    rw [hmore, range_add, map_append, map_map]
    congr 1
    rw [flatMap_cons, flatMap_nil, append_nil]
    apply map_congr_left
    intro j hj
    rw [mem_range] at hj
    have hj' : chunkLo off L + j < 4096 := by omega
    have hat : off + (m + j) = 4096 * L + (chunkLo off L + j) := by omega
    show _ = byte ((off + (m + j)) / 4096) ((off + (m + j)) % 4096)
    rw [hat, Nat.mul_add_div (by omega), Nat.div_eq_of_lt hj', Nat.add_zero, Nat.mul_add_mod,
      Nat.mod_eq_of_lt hj']

theorem axfsRead_eq (v : Volume) (node : Vnode) (off len : ℕ) :
    axfsRead v node off len =
      if size (v.blocks node.priv) ≤ off then [] else
        (range' (off / 4096)
          (min (lastByte off (min len (size (v.blocks node.priv) - off)) / 4096 + 1)
            (count (v.blocks node.priv)) - off / 4096)).flatMap fun L =>
          (range (chunkLen off (min len (size (v.blocks node.priv) - off)) L)).map fun j =>
            v.blocks (extent (v.blocks node.priv) L) (chunkLo off L + j) := rfl

variable {ec i k p sz : ℕ} {v v' : Volume} {d di : Block} {S : ℕ → Prop}

/-- **Reading.**  Whatever range is read, its bytes are those of the file. -/
theorem axfsRead_getElem? (v : Volume) (node : Vnode) (off : ℕ) (hk : k < len) :
    (axfsRead v node off len)[k]? = fileByte v node.priv (off + k) := by
  have hsize : size (v.blocks node.priv) < 2 ^ 64 := Field.get_lt Inode.size _
  rw [axfsRead_eq, fileByte]
  generalize size (v.blocks node.priv) = sz at hsize
  generalize count (v.blocks node.priv) = ec
  by_cases hoff : sz ≤ off
  · rw [if_pos hoff, if_neg (by omega)]
    rfl
  · obtain ⟨r, hr, hpos, hle, hlt⟩ : ∃ r, min len (sz - off) = r ∧ 0 < r ∧ off + r ≤ 2 ^ 64 ∧
        (k < r ↔ off + k < sz) := ⟨_, rfl, by omega, by omega, by omega⟩
    rw [if_neg hoff, hr, lastByte_eq (Nat.add_pos_right off hpos) hle,
      flatMap_chunks (fun L j => v.blocks (extent (v.blocks node.priv) L) j) hpos hle _ (by omega),
      getElem?_map]
    -- the bytes delivered end with the transfer or with the extents
    have hcount : k < min (off + r) (4096 * (off / 4096 +
        (min ((off + r - 1) / 4096 + 1) ec - off / 4096))) - off ↔
        off + k < sz ∧ (off + k) / 4096 < ec := by
      rw [← hlt]
      clear hr hlt
      omega
    by_cases hin : off + k < sz ∧ (off + k) / 4096 < ec
    · rw [if_pos hin, getElem?_range (hcount.mpr hin)]
      rfl
    · rw [if_neg hin, getElem?_eq_none]
      · rfl
      · rw [length_range]
        exact Nat.le_of_not_lt fun hlen => hin (hcount.mp hlen)

/-! ### The blocks after the loop of a write -/

/-- Logical block `k` of a file before a write: zeros where there is no extent yet. -/
def oldBlock (v : Volume) (di : Block) (k : ℕ) : Block :=
  if k < count di then v.blocks (extent di k) else zeroBlock

/-- A turn at or before the end of the extents replaces logical block `L`, and no other. -/
theorem writeBlock_oldBlock (hw : Writable v di) (buf : ℕ → UInt8)
    (hfit : chunkLo off L + chunkLen off len L ≤ 4096) (hL : L < maxExtents)
    (hnext : L ≤ count di) (hfree : count di ≤ L → 0 < v.freeBlocks) :
    ∃ v' di', writeBlock buf off len L v di = some (v', di') ∧ Extended v di v' di' ∧
      L + 1 ≤ count di' ∧
      ∀ k, oldBlock v' di' k =
        if k = L then chunk buf off len L (oldBlock v di L) else oldBlock v di k := by
  by_cases hlt : L < count di
  · refine ⟨_, _, writeBlock_of_lt buf hfit hL hlt (hw.extent_ne L hlt).1,
      Extended.write hlt (hw.extent_ne L hlt).2 _, hlt, ?_⟩
    intro k
    by_cases hk : k < count di
    · rw [oldBlock, if_pos hk, blocks_afsWriteBlock]
      by_cases hkL : k = L
      · rw [if_pos hkL, if_pos (congrArg (extent di) hkL), oldBlock, if_pos hlt]
      · rw [if_neg hkL, if_neg fun h => hkL (hw.extent_inj k L hk hlt h), oldBlock, if_pos hk]
    · rw [oldBlock, if_neg hk, if_neg (by omega), oldBlock, if_neg hk]
  · have hge : count di ≤ L := Nat.le_of_not_lt hlt
    have hcount : count di < maxExtents := Nat.lt_of_le_of_lt hge hL
    obtain ⟨n, hn, hnfree, hturn⟩ := writeBlock_of_ge buf hfit hge hcount (hfree hge)
    have hext : ∀ k, extent (appendExtent di n) k = if k = count di then n else extent di k :=
      extent_appendExtent (by rw [Volume.limit] at hn; omega)
    have hc : count (appendExtent di n) = count di + 1 := count_appendExtent hcount
    refine ⟨_, _, hturn, .append hw.bitmap_used hcount hn hnfree _, by omega, ?_⟩
    intro k
    rw [oldBlock, hc, hext]
    by_cases hkL : k = L
    · rw [if_pos (show k < count di + 1 by omega), if_pos (show k = count di by omega), if_pos hkL,
        blocks_afsWriteBlock, if_pos rfl, oldBlock, if_neg hlt]
    · rw [if_neg hkL, if_neg (show ¬k = count di by omega), oldBlock]
      by_cases hk : k < count di
      · have hne : extent di k ≠ n := by
          intro h
          rw [← h, hw.extent_used k hk] at hnfree
          exact Bool.noConfusion hnfree
        rw [if_pos (show k < count di + 1 by omega), if_pos hk, blocks_afsWriteBlock, if_neg hne,
          blocks_mark_of_ne v n (hw.extent_ne k hk).2]
      · rw [if_neg (show ¬k < count di + 1 by omega), if_neg hk]

/-- **The blocks after the loop**, for a write that starts at or before the end of the extents:
the logical blocks it covers are replaced, and the others are as they were. -/
theorem writeBlocks_oldBlock (buf : ℕ → UInt8)
    (hfit : ∀ L, chunkLo off L + chunkLen off len L ≤ 4096) (n : ℕ) :
    ∀ (L : ℕ) (v : Volume) (di : Block), Writable v di → L ≤ count di → L + n ≤ maxExtents →
      L + n - max L (count di) ≤ v.freeBlocks →
      ∀ v' di', writeBlocks buf off len n L v di = some (v', di') →
        ∀ k, oldBlock v' di' k =
          if L ≤ k ∧ k < L + n then chunk buf off len k (oldBlock v di k) else oldBlock v di k := by
  induction n with
  | zero =>
    intro L v di _ _ _ _ v' di' hrun k
    obtain ⟨rfl, rfl⟩ : v = v' ∧ di = di' := by
      simpa only [writeBlocks, Option.some.injEq, Prod.mk.injEq] using hrun
    rw [if_neg (by omega)]
  | succ n ih =>
    intro L v di hw hnext hn hfree v' di' hrun k
    rw [Nat.max_eq_right hnext] at hfree
    obtain ⟨v1, d1, hturn, hext, hcount, hblocks⟩ :=
      writeBlock_oldBlock hw buf (hfit L) (by omega) hnext (by omega)
    have hused := hext.free
    have hle := hext.count_le
    rw [writeBlocks, hturn] at hrun
    have hneed : L + 1 + n - max (L + 1) (count d1) ≤ v1.freeBlocks := by
      rw [Nat.max_eq_right hcount]
      omega
    rw [ih (L + 1) v1 d1 (hw.extended hext) hcount (by omega) hneed v' di' hrun k, hblocks]
    by_cases hk : k = L
    · subst hk
      rw [if_pos rfl, if_neg (by omega), if_pos (by omega)]
    · rw [if_neg hk]
      exact if_congr (by omega) rfl rfl

theorem chunk_apply (buf : ℕ → UInt8) {j : ℕ} (hlen : 0 < len)
    (hend : off + len ≤ 2 ^ 64) (hfirst : off / 4096 ≤ L) (hlast : L ≤ (off + len - 1) / 4096)
    (hj : j < 4096) (b : Block) :
    chunk buf off len L b j =
      if off ≤ 4096 * L + j ∧ 4096 * L + j < off + len then buf (4096 * L + j - off) else b j := by
  have hlo := chunkLo_pos hfirst
  have hhi := chunkHi_pos (Nat.add_pos_right off hlen) hend hlast
  have hfit := chunk_fits (Nat.add_pos_right off hlen) hend L
  by_cases hin : off ≤ 4096 * L + j ∧ 4096 * L + j < off + len
  · rw [if_pos hin, chunk, blit_apply_of_inside _ _ _ _ (by omega) (by omega)]
    congr 1
    omega
  · rw [if_neg hin, chunk, blit_apply_of_outside]
    omega

/-! ### Writing -/

/-- What `axfs_write` does to the inode after its loop: the new size and the modification
count. -/
def finishInode (off len : ℕ) (di : Block) : Block :=
  let top := (off + len) % 2 ^ 64
  let di := if Inode.size.get di < top then Inode.size.put top di else di
  Inode.modified.put (Inode.modified.get di + 1) di

theorem get_finishInode (off len : ℕ) (di : Block) {f : Field}
    (hsize : Inode.size.Disjoint f) (hmod : Inode.modified.Disjoint f) :
    f.get (finishInode off len di) = f.get di := by
  show f.get (Inode.modified.put _ (if _ then _ else _)) = _
  rw [Field.get_put_of_disjoint _ _ hmod]
  split
  · exact Field.get_put_of_disjoint _ _ hsize
  · rfl

theorem count_finishInode (off len : ℕ) (di : Block) : count (finishInode off len di) = count di :=
  get_finishInode off len di (by decide) (by decide)

theorem extent_finishInode (off len : ℕ) (di : Block) (k : ℕ) :
    extent (finishInode off len di) k = extent di k := by
  apply get_finishInode
  · exact .inl (by simp only [Inode.size, Inode.physicalBlock]; omega)
  · exact .inl (by simp only [Inode.modified, Inode.physicalBlock]; omega)

theorem size_finishInode (hend : off + len < 2 ^ 64) (di : Block) :
    size (finishInode off len di) = max (size di) (off + len) := by
  have hdisj : Inode.modified.Disjoint Inode.size := by decide
  show Inode.size.get (Inode.modified.put _ (if size di < (off + len) % 2 ^ 64 then _ else di)) = _
  rw [Field.get_put_of_disjoint _ _ hdisj, Nat.mod_eq_of_lt hend]
  by_cases hgrow : size di < off + len
  · rw [if_pos hgrow, Nat.max_eq_right (Nat.le_of_lt hgrow)]
    exact Field.get_put Inode.size di hend
  · rw [if_neg hgrow, Nat.max_eq_left (Nat.le_of_not_lt hgrow)]
    rfl

/-- The blocks a write has to allocate: those it covers past the end of the extents. -/
def blocksNeeded (di : Block) (off len : ℕ) : ℕ :=
  (off + len - 1) / 4096 + 1 - max (off / 4096) (count di)

theorem blocksNeeded_reaches (len : ℕ) (h : off / 4096 ≤ count di) :
    (off + len - 1) / 4096 + 1 ≤ count di + blocksNeeded di off len := by
  rw [blocksNeeded, Nat.max_eq_right h]
  omega

theorem chunks_fit (hpos : 0 < off + len) (hend : off + len ≤ 160 * 4096) (L : ℕ) :
    chunkLo off L + chunkLen off len L ≤ 4096 := by
  rw [chunk_fits hpos (by omega)]
  exact chunkHi_lt off len L

theorem span_eq (hpos : 0 < off + len) :
    off / 4096 + ((off + len - 1) / 4096 + 1 - off / 4096) = (off + len - 1) / 4096 + 1 := by
  omega

theorem span_le (hend : off + len ≤ 160 * 4096) (hpos : 0 < off + len) :
    (off + len - 1) / 4096 + 1 ≤ maxExtents := by
  show (off + len - 1) / 4096 + 1 ≤ 160
  omega

theorem not_written (h : ¬(off / 4096 ≤ p / 4096 ∧ p / 4096 < (off + len - 1) / 4096 + 1)) :
    ¬(off ≤ p ∧ p < off + len) := by
  intro hin
  apply h
  refine ⟨Nat.div_le_div_right hin.1, Nat.lt_succ_of_le (Nat.div_le_div_right ?_)⟩
  omega

/-- **A write returns** when there are blocks enough, and is a run on its own inode. -/
theorem axfsWrite_run (hw : Writable v (v.blocks node.priv))
    (buf : ℕ → UInt8) (hpos : 0 < off + len) (hend : off + len ≤ 160 * 4096)
    (hfree : blocksNeeded (v.blocks node.priv) off len ≤ v.freeBlocks) :
    ∃ v' d, writeBlocks buf off len ((off + len - 1) / 4096 + 1 - off / 4096) (off / 4096) v
        (v.blocks node.priv) = some (v', d) ∧
      Extended v (v.blocks node.priv) v' d ∧
      count d = count (v.blocks node.priv) + blocksNeeded (v.blocks node.priv) off len ∧
      axfsWrite v node off buf len = some (writeInode v' node.priv (finishInode off len d),
          { node with size := size (finishInode off len d) }, len) := by
  have htotal := span_eq hpos
  obtain ⟨v', d, hrun, hext, hcount⟩ := writeBlocks_extended buf (chunks_fit hpos hend)
    ((off + len - 1) / 4096 + 1 - off / 4096) (off / 4096) v (v.blocks node.priv) hw
    (by rw [htotal]; exact span_le hend hpos) (by rw [htotal]; exact hfree)
  refine ⟨v', d, hrun, hext, ?_, ?_⟩
  · rw [hcount, htotal]
    rfl
  · have hlast : lastByte off len = off + len - 1 := lastByte_eq hpos (by omega)
    have hrun' : writeBlocks buf off len (lastByte off len / 4096 + 1 - off / 4096) (off / 4096) v
        (v.afsReadBlock node.priv) = some (v', d) := by
      rw [hlast]
      exact hrun
    rw [axfsWrite, hrun']
    rfl

/-! ### The array of bytes -/

/-- **Exactly when a write agrees with the array model.**  It starts in the first block after the
last extent, or before; the file has an extent for every byte below its size that the write does
not supply; and the bytes stored between the end of the file and the write are zero. -/
def WriteFits (v : Volume) (i off len : ℕ) : Prop :=
  off / 4096 ≤ count (v.blocks i) ∧
  (size (v.blocks i) ≤ 4096 * count (v.blocks i) ∨
    off ≤ 4096 * count (v.blocks i) ∧ size (v.blocks i) ≤ off + len) ∧
  ∀ p, size (v.blocks i) ≤ p → p < off → p / 4096 < count (v.blocks i) →
    v.blocks (extent (v.blocks i) (p / 4096)) (p % 4096) = 0

/-- The volume `v'` after the write holds the array of bytes that the write makes of the file:
every read delivers, at each position below the new size, the written byte, the old byte, or 0. -/
def HoldsArray (v v' : Volume) (node : Vnode) (off : ℕ) (buf : ℕ → UInt8) (len : ℕ) : Prop :=
  ∀ o l k, k < l → o + k < max (size (v.blocks node.priv)) (off + len) →
    if off ≤ o + k ∧ o + k < off + len then
      (axfsRead v' node o l)[k]? = some (buf (o + k - off))
    else if o + k < size (v.blocks node.priv) then
      ∃ b, (axfsRead v node (o + k) 1)[0]? = some b ∧ (axfsRead v' node o l)[k]? = some b
    else (axfsRead v' node o l)[k]? = some 0

/-- The files `S` other than `node` read as before. -/
def OthersUnchanged (v v' : Volume) (S : ℕ → Prop) (node : Vnode) : Prop :=
  ∀ other : Vnode, S other.priv → other.priv ≠ node.priv →
    ∀ o l, axfsRead v' other o l = axfsRead v other o l

section Write

variable {v v' : Volume} {S : ℕ → Prop} {i : ℕ} {d e : Block}

theorem fileByte_writeInode (hcount : count e = count d) (hextent : ∀ k, extent e k = extent d k)
    (hne : ∀ k, k < count d → extent d k ≠ i) (p : ℕ) :
    fileByte (writeInode v' i e) i p =
      if p < size e ∧ p / 4096 < count d then some (oldBlock v' d (p / 4096) (p % 4096))
      else none := by
  have hsize : size ((writeInode v' i e).blocks i) = size e := get_writeInode v' i e (by decide)
  rw [fileByte, hsize, count_writeInode, extent_writeInode, hcount, hextent]
  by_cases hin : p < size e ∧ p / 4096 < count d
  · rw [if_pos hin, if_pos hin, blocks_writeInode_of_ne v' (hne _ hin.2), oldBlock, if_pos hin.2]
  · rw [if_neg hin, if_neg hin]

theorem Owned.extent_ne_self (ho : Owned v S) (hi : S i) (he : Extended v (v.blocks i) v' d)
    (hk : k < count d) : extent d k ≠ i := by
  by_cases hold : k < count (v.blocks i)
  · rw [he.old k hold]
    intro h
    apply (ho.extents i k hi hold).2
    rw [h]
    exact hi
  · exact he.fresh_ne (ho.inode i hi).used (Nat.le_of_not_lt hold) hk

/-- A read depends on the inode and on the blocks its extents name. -/
theorem axfsRead_congr {w : Volume} (hinode : w.blocks node.priv = v.blocks node.priv)
    (hdata : ∀ k, k < count (v.blocks node.priv) →
      w.blocks (extent (v.blocks node.priv) k) = v.blocks (extent (v.blocks node.priv) k))
    (o l : ℕ) : axfsRead w node o l = axfsRead v node o l := by
  rw [axfsRead_eq, axfsRead_eq, hinode]
  by_cases hoff : size (v.blocks node.priv) ≤ o
  · rw [if_pos hoff, if_pos hoff]
  · rw [if_neg hoff, if_neg hoff, flatMap_def, flatMap_def]
    congr 1
    apply map_congr_left
    intro L hL
    rw [mem_range'_1] at hL
    rw [hdata L (by omega)]

theorem Owned.othersUnchanged (ho : Owned v S) (hi : S node.priv)
    (he : Extended v (v.blocks node.priv) v' d) (e : Block) :
    OthersUnchanged v (writeInode v' node.priv e) S node := by
  intro other hother hne
  apply axfsRead_congr
  · rw [blocks_writeInode_of_ne v' hne, ho.inode_frame hi he hother]
  · intro k hk
    have hself : extent (v.blocks other.priv) k ≠ node.priv := by
      intro h
      apply (ho.extents other.priv k hother hk).2
      rw [h]
      exact hi
    rw [blocks_writeInode_of_ne v' hself, ho.extent_frame hi he hother (Ne.symm hne) hk]

end Write

/-- The array model, position by position. -/
theorem holdsArray_iff {buf : ℕ → UInt8} :
    HoldsArray v v' node off buf len ↔
      ∀ p, p < max (size (v.blocks node.priv)) (off + len) →
        if off ≤ p ∧ p < off + len then fileByte v' node.priv p = some (buf (p - off))
        else if p < size (v.blocks node.priv) then
          ∃ b, fileByte v node.priv p = some b ∧ fileByte v' node.priv p = some b
        else fileByte v' node.priv p = some 0 := by
  constructor
  · intro h p hp
    have hat := h p 1 0 Nat.one_pos hp
    rw [axfsRead_getElem? v' node p Nat.one_pos, axfsRead_getElem? v node (p + 0) Nat.one_pos]
      at hat
    exact hat
  · intro h o l k hk hp
    have hat := h (o + k) hp
    rw [axfsRead_getElem? v' node o hk, axfsRead_getElem? v node (o + k) Nat.one_pos]
    exact hat

/-- **The file after a write** that starts at or before the end of the extents. -/
theorem fileByte_axfsWrite (ho : Owned v S) (hi : S node.priv) (buf : ℕ → UInt8) (hlen : 0 < len)
    (hend : off + len ≤ 160 * 4096)
    (hfree : blocksNeeded (v.blocks node.priv) off len ≤ v.freeBlocks)
    (hstart : off / 4096 ≤ count (v.blocks node.priv))
    (hrun : writeBlocks buf off len ((off + len - 1) / 4096 + 1 - off / 4096) (off / 4096) v
      (v.blocks node.priv) = some (v', d)) (he : Extended v (v.blocks node.priv) v' d) (p : ℕ) :
    fileByte (writeInode v' node.priv (finishInode off len d)) node.priv p =
      if p < max (size (v.blocks node.priv)) (off + len) ∧ p / 4096 < count d then
        some (if off ≤ p ∧ p < off + len then buf (p - off)
          else oldBlock v (v.blocks node.priv) (p / 4096) (p % 4096))
      else none := by
  have hpos : 0 < off + len := Nat.add_pos_right off hlen
  have htotal := span_eq hpos
  have hsize : size (finishInode off len d) = max (size (v.blocks node.priv)) (off + len) := by
    rw [size_finishInode (by omega)]
    exact congrArg (max · (off + len)) (he.head Inode.size (by decide))
  have hblock := writeBlocks_oldBlock buf (chunks_fit hpos hend) _ _ v _ (ho.writable hi) hstart
    (by rw [htotal]; exact span_le hend hpos) (by rw [htotal]; exact hfree) v' d hrun (p / 4096)
  rw [fileByte_writeInode (count_finishInode off len d) (extent_finishInode off len d)
    (fun k hk => ho.extent_ne_self hi he hk), hsize, hblock, htotal]
  congr 2
  have hat : 4096 * (p / 4096) + p % 4096 = p := Nat.div_add_mod p 4096
  have hmod : p % 4096 < 4096 := Nat.mod_lt p (by decide)
  by_cases hcover : off / 4096 ≤ p / 4096 ∧ p / 4096 < (off + len - 1) / 4096 + 1
  · rw [if_pos hcover, chunk_apply buf hlen (Nat.le_trans hend (by decide)) hcover.1
      (Nat.le_of_lt_succ hcover.2) hmod, hat]
  · rw [if_neg hcover, if_neg (not_written hcover)]

theorem fileByte_axfsWrite_far (ho : Owned v S) (hi : S i)
    (hlen : 0 < len) (he : Extended v (v.blocks i) v' d)
    (hcount : count d = count (v.blocks i) + blocksNeeded (v.blocks i) off len)
    (hfar : count (v.blocks i) < off / 4096) :
    fileByte (writeInode v' i (finishInode off len d)) i (off + len - 1) = none := by
  rw [fileByte_writeInode (count_finishInode off len d) (extent_finishInode off len d)
    (fun k hk => ho.extent_ne_self hi he hk), if_neg]
  intro h
  rw [hcount, blocksNeeded, Nat.max_eq_left (Nat.le_of_lt hfar)] at h
  omega

theorem fileByte_some {b : UInt8} (h : fileByte v i p = some b) :
    p < size (v.blocks i) ∧ p / 4096 < count (v.blocks i) := by
  rw [fileByte] at h
  split_ifs at h with hin
  exact hin

/-- If every position below `sz` outside the written range has an extent, the file is covered. -/
theorem covered_of_outside (h : ∀ p, p < sz → ¬(off ≤ p ∧ p < off + len) → p / 4096 < ec) :
    sz ≤ 4096 * ec ∨ off ≤ 4096 * ec ∧ sz ≤ off + len := by
  by_cases hsz : sz ≤ 4096 * ec
  · exact .inl hsz
  · right
    have hoff : off ≤ 4096 * ec := by
      apply Nat.le_of_not_lt
      intro hlt
      have := h (4096 * ec) (by omega) (by omega)
      omega
    refine ⟨hoff, ?_⟩
    apply Nat.le_of_not_lt
    intro hlt
    have := h (sz - 1) (by omega) (by omega)
    omega

/-- **A write is the array model exactly when it fits.**  For every file of a volume whose blocks
are owned, every offset and every non-empty buffer that ends within the first 160 blocks, when
there are free blocks enough: the write returns its length, every read afterwards delivers the
bytes of the array model, and every other file is unchanged, if and only if `WriteFits`. -/
theorem axfsWrite_byteArray_iff (v : Volume) (S : ℕ → Prop) (ho : Owned v S) (node : Vnode)
    (hi : S node.priv) (off len : ℕ) (buf : ℕ → UInt8) (hlen : 0 < len)
    (hend : off + len ≤ 160 * 4096)
    (hfree : blocksNeeded (v.blocks node.priv) off len ≤ v.freeBlocks) :
    (∃ v' node', axfsWrite v node off buf len = some (v', node', len) ∧
      HoldsArray v v' node off buf len ∧ OthersUnchanged v v' S node) ↔
    WriteFits v node.priv off len := by
  obtain ⟨v', d, hrun, he, hcount, hwrite⟩ :=
    axfsWrite_run (ho.writable hi) buf (Nat.add_pos_right off hlen) hend hfree
  have hbytes := fun hstart => fileByte_axfsWrite ho hi buf hlen hend hfree hstart hrun he
  have hreach : off / 4096 ≤ count (v.blocks node.priv) → ∀ p, p < off + len →
      p / 4096 < count d := by
    intro hstart p hp
    have hlast := blocksNeeded_reaches len hstart
    omega
  have hfar := fileByte_axfsWrite_far ho hi hlen he hcount
  have hothers := ho.othersUnchanged hi he (finishInode off len d)
  have hgrow := he.count_le
  clear hcount hrun hend hfree he
  constructor
  · intro ⟨w, node', hw, harray, _⟩
    have hwv : writeInode v' node.priv (finishInode off len d) = w :=
      congrArg Prod.fst (Option.some.inj (hwrite.symm.trans hw))
    subst hwv
    rw [holdsArray_iff] at harray
    have hstart : off / 4096 ≤ count (v.blocks node.priv) := by
      apply Nat.le_of_not_lt
      intro hlt
      have hlast := harray (off + len - 1) (lt_max_iff.mpr (.inr (by omega)))
      rw [if_pos (by omega), hfar hlt] at hlast
      cases hlast
    refine ⟨hstart, ?_, ?_⟩
    · apply covered_of_outside
      intro p hp hout
      have hat := harray p (lt_max_iff.mpr (.inl hp))
      rw [if_neg hout, if_pos hp] at hat
      obtain ⟨b, hb, -⟩ := hat
      exact (fileByte_some hb).2
    · intro p hp hpoff hext
      have hout : ¬(off ≤ p ∧ p < off + len) := by omega
      have hlt : p < max (size (v.blocks node.priv)) (off + len) := lt_max_iff.mpr (.inr (by omega))
      have hat := harray p hlt
      rw [if_neg hout, if_neg (Nat.not_lt.mpr hp), hbytes hstart p,
        if_pos ⟨hlt, hreach hstart p (by omega)⟩, if_neg hout, oldBlock, if_pos hext] at hat
      exact Option.some.inj hat
  · intro ⟨hstart, hsupplied, hzero⟩
    refine ⟨_, _, hwrite, holdsArray_iff.mpr ?_, hothers⟩
    intro p hp
    rw [hbytes hstart p]
    by_cases hin : off ≤ p ∧ p < off + len
    · rw [if_pos hin, if_pos ⟨hp, hreach hstart p hin.2⟩, if_pos hin]
    · rw [if_neg hin]
      by_cases hold : p < size (v.blocks node.priv)
      · have hext : p / 4096 < count (v.blocks node.priv) := by omega
        rw [if_pos hold, fileByte, if_pos ⟨hold, hext⟩,
          if_pos ⟨hp, Nat.lt_of_lt_of_le hext hgrow⟩, if_neg hin, oldBlock, if_pos hext]
        exact ⟨_, rfl, rfl⟩
      · have hpl : p < off + len := (lt_max_iff.mp hp).resolve_left hold
        rw [if_neg hold, if_pos ⟨hp, hreach hstart p hpl⟩, if_neg hin, oldBlock]
        by_cases hext : p / 4096 < count (v.blocks node.priv)
        · rw [if_pos hext, hzero p (Nat.le_of_not_lt hold) (by omega) hext]
        · rw [if_neg hext]
          rfl

/-! ### A sparse write -/

/-- Sixteen blocks, the first eight marked used: the bitmap in block 2, the root directory in
block 5 with its data in block 6, and an empty file in block 7. -/
def sparseVolume : Volume where
  blocks := fun b =>
    if b = 2 then fun j => if j = 0 then 255 else 0
    else if b = 5 then appendExtent (newInode 5 .dir none) 6
    else if b = 7 then newInode 7 .file none
    else zeroBlock
  totalBlocks := 16
  rootInodeBlock := 5
  freeBitmapBlock := 2
  transactionId := 2

theorem sparseVolume_owned : Owned sparseVolume (· = 7) where
  zero_used := by decide
  bitmap_used := by decide
  inode := by
    rintro i rfl
    exact ⟨by decide, by decide, by decide, by decide⟩
  count_le := by
    rintro i rfl
    decide
  extents := by
    rintro i k rfl hk
    exact absurd hk (Nat.not_lt_zero k)
  inj := by
    rintro i k i' k' rfl hk
    exact absurd hk (Nat.not_lt_zero k)

theorem axfsWrite_byteArray_first_byte :
    ∃ v' node', axfsWrite sparseVolume (axfsMakeVnode sparseVolume 7) 0 (fun _ => 65) 1 =
        some (v', node', 1) ∧
      HoldsArray sparseVolume v' (axfsMakeVnode sparseVolume 7) 0 (fun _ => 65) 1 ∧
      OthersUnchanged sparseVolume v' (· = 7) (axfsMakeVnode sparseVolume 7) := by
  apply (axfsWrite_byteArray_iff sparseVolume (· = 7) sparseVolume_owned
    (axfsMakeVnode sparseVolume 7) rfl 0 1 (fun _ => 65) (by decide) (by decide) (by decide)).mpr
  refine ⟨by decide, by decide, ?_⟩
  intro p _ hp
  exact absurd hp (Nat.not_lt_zero p)

/-- **A write past the end of an empty file** lands in its first block: the byte written at 4096
cannot be read back, and position 0, which should read as zero, holds it. -/
theorem axfsWrite_sparse_misplaced : Owned sparseVolume (· = 7) ∧
      blocksNeeded (sparseVolume.blocks 7) 4096 1 ≤ sparseVolume.freeBlocks ∧
      (axfsWrite sparseVolume (axfsMakeVnode sparseVolume 7) 4096 (fun _ => 65) 1).any
        (fun r => r.2.2 = 1 ∧ axfsRead r.1 (axfsMakeVnode sparseVolume 7) 4096 1 = [] ∧
          axfsRead r.1 (axfsMakeVnode sparseVolume 7) 0 1 = [65]) :=
  ⟨sparseVolume_owned, by decide, by decide⟩

end AxiomeOS.Axfs
