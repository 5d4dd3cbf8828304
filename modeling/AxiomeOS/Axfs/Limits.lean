import AxiomeOS.Axfs.File
import AxiomeOS.Axfs.Full
import AxiomeOS.Axfs.Mkfs

/-!
# axiomefs: the limits of an inode and of the bitmap

The array of extents has 160 places, and the free-space bitmap one block of 4096 bytes.  The driver
tests neither limit.

* `writeInside_iff` — `axfs_write` stays in the array of extents, and refuses what does not fit,
  exactly for the writes that end within the first 160 blocks; among the writes of no bytes the one
  at offset 0 covers all blocks of the address space.
* `transfers_exact_iff` — a read delivers the bytes there are, and a write of no bytes changes
  nothing, except that reading or writing no bytes at offset 0 works on all blocks, and writing no
  bytes past the end of a file makes it longer.
* `bitmap_inside_iff` — the bitmap of a volume that `mkfs` formatted is indexed within its block,
  and allocation finds a free block, exactly if the volume has at most 32768 blocks and is not full.
-/

namespace AxiomeOS.Axfs

open Bytes Option

variable {node : Vnode} {v : Volume} {S : ℕ → Prop} {off len : ℕ}

/-! ### The array of extents -/

/-- The index into `extents` that the turn for block `L` uses: `L`, or the end of the array. -/
def extentIndex (di : Block) (L : ℕ) : ℕ := min L (count di)

/-- The number of turns of the loop of `axfs_write`. -/
def turns (off len : ℕ) : ℕ := lastByte off len / 4096 + 1 - off / 4096

/-- The loop of the write uses places of the array only, and never counts more than there are. -/
def WriteInside (v : Volume) (node : Vnode) (off : ℕ) (buf : ℕ → UInt8) (len : ℕ) : Prop :=
  ∀ k v' di, k ≤ turns off len →
    writeBlocks buf off len k (off / 4096) v (v.blocks node.priv) = some (v', di) →
    count di ≤ maxExtents ∧ (k < turns off len → extentIndex di (off / 4096 + k) < maxExtents)

/-- A write that needs a block beyond the limit returns with a failure. -/
def WriteRefusesBeyond (v : Volume) (node : Vnode) (off : ℕ) (buf : ℕ → UInt8) (len : ℕ) : Prop :=
  0 < len → 4096 * maxExtents < off + len →
    ∃ v' node' r, axfsWrite v node off buf len = some (v', node', r) ∧ r ≠ len

section Turns

variable {v' : Volume} {di di' : Block} {buf : ℕ → UInt8} {L : ℕ}

/-- What a turn does to the number of extents. -/
theorem writeBlock_count (h : writeBlock buf off len L v di = some (v', di')) :
    extentIndex di L < maxExtents ∧
      count di' = if L < count di then count di else count di + 1 := by
  have hcount : count di = Inode.extentCount.get di := rfl
  unfold writeBlock at h
  dsimp only at h
  split at h
  · cases h
  case isFalse hbound =>
    have hindex : extentIndex di L < maxExtents := by
      rw [extentIndex, hcount]
      omega
    refine ⟨hindex, ?_⟩
    split at h
    case isTrue hlt =>
      cases h
      rw [if_pos (show L < count di from hlt)]
      apply Field.get_put_of_disjoint
      simp only [Field.Disjoint, Inode.extentCount, Inode.physicalBlock]
      omega
    case isFalse hge =>
      cases h
      rw [if_neg (show ¬ L < count di from hge)]
      apply count_appendExtent
      rw [extentIndex] at hindex
      omega

theorem writeBlock_count_le (hcount : count di ≤ maxExtents)
    (h : writeBlock buf off len L v di = some (v', di')) : count di' ≤ maxExtents := by
  obtain ⟨hindex, hnew⟩ := writeBlock_count h
  rw [extentIndex] at hindex
  by_cases hL : L < count di
  · rw [if_pos hL] at hnew
    omega
  · rw [if_neg hL] at hnew
    omega

/-- **A run of turns** counts no further than the blocks it covers. -/
theorem writeBlocks_count_le (n : ℕ) {L : ℕ} {v v' : Volume} {di di' : Block}
    (h : writeBlocks buf off len n L v di = some (v', di')) :
    count di' ≤ max (count di) (L + n) := by
  induction n generalizing L v v' di di' with
  | zero =>
    cases h
    exact Nat.le_max_left _ _
  | succ n ih =>
    obtain ⟨⟨v1, di1⟩, hone, hrest⟩ := bind_eq_some_iff.mp h
    obtain ⟨-, hcount⟩ := writeBlock_count hone
    have hle : count di' ≤ max (count di1) (L + 1 + n) := ih hrest
    by_cases hL : L < count di
    · rw [if_pos hL] at hcount
      omega
    · rw [if_neg hL] at hcount
      omega

theorem writeBlocks_cons (n L : ℕ) (v : Volume) (di : Block) :
    writeBlocks buf off len (n + 1) L v di =
      (writeBlock buf off len L v di).bind fun s => writeBlocks buf off len n (L + 1) s.1 s.2 := by
  rw [writeBlocks]

/-- The last turn of a run. -/
theorem writeBlocks_snoc (n L : ℕ) (v : Volume) (di : Block) :
    writeBlocks buf off len (n + 1) L v di =
      (writeBlocks buf off len n L v di).bind fun s => writeBlock buf off len (L + n) s.1 s.2 := by
  induction n generalizing L v di with
  | zero =>
    have hstop : (fun s : Volume × Block => writeBlocks buf off len 0 (L + 1) s.1 s.2) = some := by
      funext s
      rw [writeBlocks]
    rw [writeBlocks_cons, hstop, bind_fun_some, writeBlocks, bind_some, Nat.add_zero]
  | succ n ih =>
    have hlast : L + 1 + n = L + (n + 1) := by omega
    rw [writeBlocks_cons, writeBlocks_cons n, Option.bind_assoc]
    apply Option.bind_congr
    intro s _
    rw [ih, hlast]

theorem writeBlocks_inside (n L : ℕ) (di : Block) (s : Volume × Block)
    (h : writeBlocks buf off len n L v di = some s) (k : ℕ) (hk : k < n)
    (hrun : writeBlocks buf off len k L v di = some (v', di')) :
    extentIndex di' (L + k) < maxExtents := by
  induction n generalizing s with
  | zero => exact absurd hk (Nat.not_lt_zero k)
  | succ n ih =>
    rw [writeBlocks_snoc] at h
    obtain ⟨t, hfirst, hlast⟩ := bind_eq_some_iff.mp h
    obtain hkn | rfl := Nat.lt_succ_iff_lt_or_eq.mp hk
    · exact ih t hfirst hkn
    · obtain rfl : (v', di') = t := some.inj (hrun.symm.trans hfirst)
      exact (writeBlock_count hlast).1

theorem writeBlock_isSome (hfit : chunkLo off L + chunkLen off len L ≤ 4096)
    (hindex : extentIndex di L < maxExtents) : ∃ s, writeBlock buf off len L v di = some s := by
  have hbound : ¬(4096 < chunkLo off L + chunkLen off len L ∨
      maxExtents ≤ min L (Inode.extentCount.get di)) := by
    have : min L (Inode.extentCount.get di) < maxExtents := hindex
    omega
  unfold writeBlock
  rw [if_neg hbound]
  split
  · exact ⟨_, rfl⟩
  · exact ⟨_, rfl⟩

theorem nothing_fits (L : ℕ) : chunkLo 0 L + chunkLen 0 0 L ≤ 4096 := by
  have hlo : chunkLo 0 L = 0 := by
    rw [chunkLo, Nat.zero_mod, ite_self]
  have hhi : chunkHi 0 0 L < 4096 := chunkHi_lt 0 0 L
  rw [chunkLen, hlo]
  omega

/-- **A write of no bytes at offset 0** makes all turns that the array has places for. -/
theorem writeBlocks_of_nothing (buf : ℕ → UInt8) (v : Volume) (di : Block) (k : ℕ)
    (hk : k ≤ maxExtents) :
    ∃ v' di', writeBlocks buf 0 0 k 0 v di = some (v', di') ∧ k ≤ count di' := by
  induction k with
  | zero => exact ⟨v, di, rfl, Nat.zero_le _⟩
  | succ k ih =>
    have hk' : k < 160 := hk
    obtain ⟨v1, di1, hrun, hreach⟩ := ih (Nat.le_of_lt hk)
    have hfit := nothing_fits (0 + k)
    have hindex : extentIndex di1 (0 + k) < maxExtents := by
      rw [extentIndex]
      omega
    have hnext : ∃ s, writeBlock buf 0 0 (0 + k) v1 di1 = some s := writeBlock_isSome hfit hindex
    obtain ⟨⟨v2, di2⟩, hone⟩ := hnext
    refine ⟨v2, di2, ?_, ?_⟩
    · rw [writeBlocks_snoc, hrun, bind_some]
      exact hone
    · obtain ⟨-, hcount2⟩ := writeBlock_count hone
      split at hcount2 <;> omega

end Turns

theorem turns_of_pos (h : 0 < off + len) (h' : off + len ≤ 2 ^ 64) :
    turns off len = (off + len - 1) / 4096 + 1 - off / 4096 := by
  rw [turns, lastByte_eq h h']

theorem writeInside_of_end_le (buf : ℕ → UInt8)
    (hcount : count (v.blocks node.priv) ≤ maxExtents) (hlen : 0 < len)
    (hend : off + len ≤ 4096 * maxExtents) : WriteInside v node off buf len := by
  have hcount' : count (v.blocks node.priv) ≤ 160 := hcount
  have hend' : off + len ≤ 4096 * 160 := hend
  have hturns : turns off len = (off + len - 1) / 4096 + 1 - off / 4096 :=
    turns_of_pos (by omega) (by omega)
  intro k v' di hk hrun
  have hle := writeBlocks_count_le k hrun
  rw [extentIndex]
  omega

theorem turns_nothing (hpos : 0 < off) (hoff : off < 2 ^ 64) :
    turns off 0 = if off % 4096 = 0 then 0 else 1 := by
  rw [turns_of_pos (by omega) (by omega)]
  split <;> omega

theorem writeInside_nothing_iff (buf : ℕ → UInt8)
    (hcount : count (v.blocks node.priv) ≤ maxExtents) (hpos : 0 < off) (hoff : off < 2 ^ 64) :
    WriteInside v node off buf 0 ↔
      (off % 4096 = 0 ∨ extentIndex (v.blocks node.priv) (off / 4096) < maxExtents) := by
  refine ⟨?_, ?_⟩
  · intro h
    by_cases halign : off % 4096 = 0
    · exact .inl halign
    · have hturns : turns off 0 = 1 := by rw [turns_nothing hpos hoff, if_neg halign]
      have hfirst : writeBlocks buf off 0 0 (off / 4096) v (v.blocks node.priv) =
          some (v, v.blocks node.priv) := by rw [writeBlocks]
      exact .inr ((h 0 _ _ (Nat.zero_le _) hfirst).2 (by omega))
  · intro h k v' di hk hrun
    have hturns := turns_nothing hpos hoff
    by_cases halign : off % 4096 = 0
    · rw [if_pos halign] at hturns
      obtain rfl : k = 0 := by omega
      rw [writeBlocks] at hrun
      cases hrun
      exact ⟨hcount, fun hk => by omega⟩
    · rw [if_neg halign] at hturns
      have hindex := h.resolve_left halign
      obtain rfl | rfl : k = 0 ∨ k = 1 := by omega
      · rw [writeBlocks] at hrun
        cases hrun
        exact ⟨hcount, fun _ => hindex⟩
      · rw [writeBlocks_snoc, writeBlocks, bind_some] at hrun
        exact ⟨writeBlock_count_le hcount hrun, fun hk => by omega⟩

theorem not_writeInside_nothing (v : Volume) (node : Vnode) (buf : ℕ → UInt8) :
    ¬WriteInside v node 0 buf 0 := by
  intro h
  have hturns : turns 0 0 = 2 ^ 52 := by decide
  obtain ⟨v', di, hrun, hreach⟩ := writeBlocks_of_nothing buf v (v.blocks node.priv) maxExtents
    (Nat.le_refl _)
  have hmax : maxExtents = 160 := rfl
  have hlt := (h maxExtents v' di (by omega) hrun).2 (by omega)
  rw [extentIndex] at hlt
  omega

/-- **The writes that respect the limit of 160 extents.**  All indices are in the array, the count
stays at most 160, and what does not fit is refused, exactly if the count is at most 160 before and
the write ends within 160 blocks.  A write of no bytes must not be at offset 0, and needs a place
for the block of its offset unless that is a multiple of 4096. -/
theorem writeInside_iff (v : Volume) (node : Vnode) (off : ℕ) (buf : ℕ → UInt8) (len : ℕ)
    (hoff : off < 2 ^ 64) :
    (WriteInside v node off buf len ∧ WriteRefusesBeyond v node off buf len) ↔
      count (v.blocks node.priv) ≤ maxExtents ∧
      (0 < len → off + len ≤ 4096 * maxExtents) ∧
      (len = 0 → 0 < off ∧
        (off % 4096 = 0 ∨ extentIndex (v.blocks node.priv) (off / 4096) < maxExtents)) := by
  refine ⟨?_, ?_⟩
  · rintro ⟨hinside, hrefuses⟩
    have hfirst : writeBlocks buf off len 0 (off / 4096) v (v.blocks node.priv) =
        some (v, v.blocks node.priv) := by rw [writeBlocks]
    have hcount := (hinside 0 _ _ (Nat.zero_le _) hfirst).1
    refine ⟨hcount, ?_, ?_⟩
    · intro hlen
      by_contra hend
      obtain ⟨v', node', r, hwrite, hr⟩ := hrefuses hlen (Nat.lt_of_not_le hend)
      exact hr (axfsWrite_length hwrite)
    · rintro rfl
      obtain rfl | hpos := Nat.eq_zero_or_pos off
      · exact absurd hinside (not_writeInside_nothing v node buf)
      · exact ⟨hpos, (writeInside_nothing_iff buf hcount hpos hoff).mp hinside⟩
  · rintro ⟨hcount, hend, hnothing⟩
    obtain rfl | hlen := Nat.eq_zero_or_pos len
    · obtain ⟨hpos, hplace⟩ := hnothing rfl
      exact ⟨(writeInside_nothing_iff buf hcount hpos hoff).mpr hplace,
        fun h => absurd h (by omega)⟩
    · refine ⟨writeInside_of_end_le buf hcount hlen (hend hlen), ?_⟩
      intro _ hbeyond
      exact absurd (hend hlen) (Nat.not_le_of_lt hbeyond)

/-- The file in block 7 of the volume, with all 160 extents. -/
def fullFileVolume : Volume :=
  { sparseVolume with
    blocks := fun b =>
      if b = 7 then Inode.extentCount.put 160 (newInode 7 .file none) else sparseVolume.blocks b }

theorem writeInside_iff_first_byte :
    WriteInside sparseVolume (axfsMakeVnode sparseVolume 7) 0 (fun _ => 65) 1 :=
  ((writeInside_iff sparseVolume (axfsMakeVnode sparseVolume 7) 0 (fun _ => 65) 1
    (by decide)).mpr (by decide)).1

/-- **One more byte after 160 blocks** is entered in place 160 of the array. -/
theorem write_after_last_extent : count (fullFileVolume.blocks 7) = maxExtents ∧
      ¬WriteInside fullFileVolume (axfsMakeVnode fullFileVolume 7) 655360 (fun _ => 65) 1 := by
  refine ⟨by decide, ?_⟩
  intro h
  have hfirst : writeBlocks (fun _ => 65) 655360 1 0 (655360 / 4096) fullFileVolume
      (fullFileVolume.blocks (axfsMakeVnode fullFileVolume 7).priv) =
      some (fullFileVolume, fullFileVolume.blocks 7) := by
    rw [writeBlocks]
    rfl
  exact absurd ((h 0 _ _ (Nat.zero_le _) hfirst).2 (by decide)) (by decide)

/-! ### Transfers of no bytes -/

/-- The inodes `S` are not in the bitmap's block; each has at most 160 extents, which name blocks,
but none of `S`. -/
structure Separate (v : Volume) (S : ℕ → Prop) : Prop where
  ne_bitmap : ∀ i, S i → i ≠ v.freeBitmapBlock
  count_le : ∀ i, S i → count (v.blocks i) ≤ maxExtents
  extents : ∀ i k, S i → k < count (v.blocks i) →
    extent (v.blocks i) k ≠ 0 ∧ ¬S (extent (v.blocks i) k)

theorem Owned.separate (ho : Owned v S) : Separate v S where
  ne_bitmap := fun i hi => (ho.inode i hi).ne_bitmap
  count_le := ho.count_le
  extents := fun i k hi hk => ⟨(ho.extents i k hi hk).1.ne_zero, (ho.extents i k hi hk).2⟩

/-- The files `S` have the sizes and the bytes they had. -/
def SameFiles (v v' : Volume) (S : ℕ → Prop) : Prop :=
  ∀ i, S i → size (v'.blocks i) = size (v.blocks i) ∧ ∀ p, fileByte v' i p = fileByte v i p

/-- A write of no bytes returns, leaves every file as it was, and takes no block. -/
def WritesNothing (v : Volume) (S : ℕ → Prop) (node : Vnode) (off : ℕ) (buf : ℕ → UInt8) : Prop :=
  ∃ v' node', axfsWrite v node off buf 0 = some (v', node', 0) ∧ SameFiles v v' S ∧
    ∀ b, v'.marked b = v.marked b

theorem chunkLen_nothing (hoff : off < 2 ^ 64) (halign : off % 4096 ≠ 0) :
    chunkLen off 0 (off / 4096) = 0 := by
  have hlast : lastByte off 0 = off - 1 := lastByte_eq (by omega) (by omega)
  rw [chunkLen, chunkLo, chunkHi, hlast, if_pos rfl, if_pos (by omega)]
  omega

/-- **Reading** a file all of whose bytes have extents: some bytes are asked for. -/
theorem length_axfsRead
    (hback : size (v.blocks node.priv) ≤ 4096 * count (v.blocks node.priv)) (hlen : 0 < len) :
    (axfsRead v node off len).length = min len (size (v.blocks node.priv) - off) := by
  have hsize : size (v.blocks node.priv) < 2 ^ 64 := Field.get_lt Inode.size _
  rw [axfsRead_eq]
  generalize size (v.blocks node.priv) = sz at hsize hback
  generalize count (v.blocks node.priv) = ec at hback
  by_cases hoff : sz ≤ off
  · rw [if_pos hoff, Nat.sub_eq_zero_of_le hoff, Nat.min_zero]
    rfl
  · obtain ⟨r, hr, hpos, hle⟩ : ∃ r, min len (sz - off) = r ∧ 0 < r ∧ off + r ≤ sz :=
      ⟨_, rfl, by omega, by omega⟩
    rw [if_neg hoff, hr, lastByte_eq (Nat.add_pos_right off hpos) (by omega),
      flatMap_chunks (fun L j => v.blocks (extent (v.blocks node.priv) L) j) hpos (by omega) _
        (by omega), List.length_map, List.length_range]
    clear hr
    omega

/-- Nothing is read past offset 0 if nothing is asked for. -/
theorem length_axfsRead_nothing (v : Volume) (node : Vnode) (hpos : 0 < off) :
    (axfsRead v node off 0).length = 0 := by
  have hsize : size (v.blocks node.priv) < 2 ^ 64 := Field.get_lt Inode.size _
  rw [axfsRead_eq]
  generalize size (v.blocks node.priv) = sz at hsize
  by_cases hoff : sz ≤ off
  · rw [if_pos hoff]
    rfl
  · have hlast : lastByte off 0 = off - 1 := lastByte_eq (by omega) (by omega)
    rw [if_neg hoff, Nat.zero_min, List.length_eq_zero_iff, List.flatMap_eq_nil_iff]
    intro L hL
    rw [List.mem_range'_1, hlast] at hL
    -- there is a turn only for the block of the offset
    have hturn : L = off / 4096 ∧ off % 4096 ≠ 0 := by omega
    rw [hturn.1, chunkLen_nothing (by omega) hturn.2]
    rfl

theorem afsWriteBlock_self (v : Volume) (b : ℕ) : v.afsWriteBlock b (v.blocks b) = v := by
  have hblocks : (fun i => if i = b then v.blocks b else v.blocks i) = v.blocks := by
    funext i
    by_cases h : i = b
    · rw [if_pos h, h]
    · rw [if_neg h]
  rw [Volume.afsWriteBlock, hblocks]

/-- The loop of a write of no bytes inside the file writes back a block as it is, or nothing. -/
theorem writeBlocks_nothing {di : Block} (hphys : ∀ k, k < count di → extent di k ≠ 0)
    (hcount : count di ≤ maxExtents) (buf : ℕ → UInt8) (hpos : 0 < off)
    (hback : off ≤ 4096 * count di) :
    writeBlocks buf off 0 (turns off 0) (off / 4096) v di = some (v, di) := by
  have hcount' : count di ≤ 160 := hcount
  have hturns := turns_nothing hpos (by omega)
  by_cases halign : off % 4096 = 0
  · rw [hturns, if_pos halign, writeBlocks]
  · have hlt : off / 4096 < count di := by omega
    have hempty : chunkLen off 0 (off / 4096) = 0 := chunkLen_nothing (by omega) halign
    have hfit : chunkLo off (off / 4096) + chunkLen off 0 (off / 4096) ≤ 4096 := by
      rw [hempty, chunkLo, if_pos rfl]
      omega
    have hchunk : ∀ b, chunk buf off 0 (off / 4096) b = b := by
      intro b
      funext j
      rw [chunk, hempty, blit_apply_of_outside _ _ _ _ (by omega)]
    rw [hturns, if_neg halign, writeBlocks_snoc, writeBlocks, bind_some, Nat.add_zero,
      writeBlock_of_lt buf hfit (Nat.lt_of_lt_of_le hlt hcount) hlt (hphys _ hlt), hchunk,
      afsWriteBlock_self]

theorem axfsWrite_eq (v : Volume) (node : Vnode) (off : ℕ) (buf : ℕ → UInt8) (len : ℕ) :
    axfsWrite v node off buf len =
      (writeBlocks buf off len (turns off len) (off / 4096) v (v.blocks node.priv)).map fun s =>
        (writeInode s.1 node.priv (finishInode off len s.2),
          { node with size := size (finishInode off len s.2) }, len) := rfl

/-- Writing back an inode with its size and its extents changes no file. -/
theorem Separate.sameFiles (ho : Separate v S) {i : ℕ} (hi : S i) {e : Block}
    (hsize : size e = size (v.blocks i)) (hcount : count e = count (v.blocks i))
    (hextent : ∀ k, extent e k = extent (v.blocks i) k) : SameFiles v (writeInode v i e) S := by
  have hne : ∀ j k, S j → k < count (v.blocks j) → extent (v.blocks j) k ≠ i := by
    intro j k hj hk h
    apply (ho.extents j k hj hk).2
    rw [h]
    exact hi
  intro j hj
  by_cases hji : j = i
  · subst hji
    refine ⟨(get_writeInode v j e (by decide)).trans hsize, ?_⟩
    intro p
    rw [fileByte_writeInode hcount hextent (fun k hk => hne j k hj hk), hsize, fileByte]
    by_cases hin : p < size (v.blocks j) ∧ p / 4096 < count (v.blocks j)
    · rw [if_pos hin, if_pos hin, oldBlock, if_pos hin.2]
    · rw [if_neg hin, if_neg hin]
  · have hinode := blocks_writeInode_of_ne v hji e
    refine ⟨congrArg size hinode, ?_⟩
    intro p
    rw [fileByte, fileByte, hinode]
    by_cases hin : p < size (v.blocks j) ∧ p / 4096 < count (v.blocks j)
    · rw [if_pos hin, if_pos hin, blocks_writeInode_of_ne v (hne j _ hj hin.2)]
    · rw [if_neg hin, if_neg hin]

/-- **A write of no bytes inside a file** changes nothing. -/
theorem Separate.writesNothing (ho : Separate v S) (hi : S node.priv)
    (hback : size (v.blocks node.priv) ≤ 4096 * count (v.blocks node.priv))
    (buf : ℕ → UInt8) (hpos : 0 < off) (hoff : off ≤ size (v.blocks node.priv)) :
    WritesNothing v S node off buf := by
  have hsize : size (v.blocks node.priv) < 2 ^ 64 := Field.get_lt Inode.size _
  have hwrite : axfsWrite v node off buf 0 =
      some (writeInode v node.priv (finishInode off 0 (v.blocks node.priv)),
        { node with size := size (finishInode off 0 (v.blocks node.priv)) }, 0) := by
    rw [axfsWrite_eq, writeBlocks_nothing (fun k hk => (ho.extents _ k hi hk).1) (ho.count_le _ hi)
      buf hpos (by omega), map_some]
  refine ⟨_, _, hwrite, ?_, ?_⟩
  · apply ho.sameFiles hi
    · rw [size_finishInode (by omega), Nat.add_zero, Nat.max_eq_left hoff]
    · exact count_finishInode off 0 _
    · exact extent_finishInode off 0 _
  · exact marked_writeInode v (ho.ne_bitmap _ hi) _

theorem not_writesNothing_of_size_lt (hi : S node.priv)
    (buf : ℕ → UInt8) (hoff : off < 2 ^ 64) (hend : size (v.blocks node.priv) < off) :
    ¬WritesNothing v S node off buf := by
  rintro ⟨v', node', hwrite, hsame, -⟩
  rw [axfsWrite_eq] at hwrite
  obtain ⟨s, -, hs⟩ := map_eq_some_iff.mp hwrite
  have hv : writeInode s.1 node.priv (finishInode off 0 s.2) = v' := congrArg Prod.fst hs
  have hsize := (hsame _ hi).1
  have hnew : size (v'.blocks node.priv) = max (size s.2) (off + 0) := by
    rw [← hv, ← size_finishInode (by omega) s.2]
    exact get_writeInode s.1 node.priv _ (by decide)
  omega

theorem axfsWrite_nothing_at_zero (v : Volume) (node : Vnode) (buf : ℕ → UInt8) :
    axfsWrite v node 0 buf 0 = none := by
  have hturns : turns 0 0 = 2 ^ 52 := by decide
  obtain ⟨v', di, hrun, hreach⟩ := writeBlocks_of_nothing buf v (v.blocks node.priv) maxExtents
    (Nat.le_refl _)
  rw [axfsWrite_eq, map_eq_none_iff, eq_none_iff_forall_ne_some]
  intro s hs
  have hlt := writeBlocks_inside _ _ _ _ hs maxExtents (by rw [hturns]; decide) hrun
  rw [extentIndex] at hlt
  omega

/-- **The transfers that move exactly the bytes there are.**  In a file with an extent for every
byte below its size, a read delivers `min len (size - off)` bytes, and a write of no bytes changes
no file and takes no block, exactly if a transfer of no bytes is inside the file and not at offset
0. -/
theorem transfers_exact_iff (v : Volume) (S : ℕ → Prop) (ho : Separate v S) (node : Vnode)
    (hi : S node.priv) (hback : size (v.blocks node.priv) ≤ 4096 * count (v.blocks node.priv))
    (off : ℕ) (hoff : off < 2 ^ 64) (buf : ℕ → UInt8) (len : ℕ) :
    ((axfsRead v node off len).length = min len (size (v.blocks node.priv) - off) ∧
      (len = 0 → WritesNothing v S node off buf)) ↔
    (len = 0 → 0 < off ∧ off ≤ size (v.blocks node.priv)) := by
  refine ⟨?_, ?_⟩
  · rintro ⟨-, hnothing⟩ hlen
    have hwrite := hnothing hlen
    refine ⟨Nat.pos_of_ne_zero ?_, Nat.le_of_not_lt ?_⟩
    · rintro rfl
      obtain ⟨v', node', hsome, -⟩ := hwrite
      rw [axfsWrite_nothing_at_zero] at hsome
      cases hsome
    · intro hend
      exact not_writesNothing_of_size_lt hi buf hoff hend hwrite
  · intro hcond
    obtain rfl | hlen := Nat.eq_zero_or_pos len
    · obtain ⟨hpos, hle⟩ := hcond rfl
      refine ⟨?_, fun _ => ho.writesNothing hi hback buf hpos hle⟩
      rw [length_axfsRead_nothing v node hpos, Nat.zero_min]
    · exact ⟨length_axfsRead hback hlen, fun h => absurd h (by omega)⟩

/-- The file in block 7 holds one byte, in block 8. -/
def oneByteVolume : Volume :=
  { sparseVolume with
    blocks := fun b =>
      if b = 2 then fun j => if j = 0 then 255 else if j = 1 then 1 else 0
      else if b = 7 then Inode.size.put 1 (appendExtent (newInode 7 .file none) 8)
      else if b = 8 then fun j => if j = 0 then 65 else 0
      else sparseVolume.blocks b }

theorem oneByteVolume_owned : Owned oneByteVolume (· = 7) := by
  have hcount : count (oneByteVolume.blocks 7) = 1 := by decide
  have hextent : ∀ i k, i = 7 → k < count (oneByteVolume.blocks i) →
      k = 0 ∧ extent (oneByteVolume.blocks i) k = 8 := by
    rintro i k rfl hk
    rw [hcount] at hk
    obtain rfl : k = 0 := by omega
    exact ⟨rfl, by decide⟩
  refine ⟨by decide, by decide, ?_, ?_, ?_, ?_⟩
  · rintro i rfl
    exact ⟨by decide, by decide, by decide, by decide⟩
  · rintro i rfl
    rw [hcount]
    decide
  · intro i k hi hk
    rw [(hextent i k hi hk).2]
    exact ⟨⟨by decide, by decide, by decide, by decide⟩, by decide⟩
  · intro i k i' k' hi hk hi' hk' _
    exact ⟨hi.trans hi'.symm, (hextent i k hi hk).1.trans (hextent i' k' hi' hk').1.symm⟩

theorem transfers_exact_iff_at_end :
    WritesNothing oneByteVolume (· = 7) (axfsMakeVnode oneByteVolume 7) 1 (fun _ => 66) :=
  ((transfers_exact_iff oneByteVolume (· = 7) oneByteVolume_owned.separate
    (axfsMakeVnode oneByteVolume 7) rfl (by decide) 1 (by decide) (fun _ => 66) 0).mpr
    (by decide)).2 rfl

/-- **Reading no bytes** of a file of one byte stores its whole block in the caller's buffer;
writing no bytes there takes blocks until it leaves the array of extents. -/
theorem read_nothing_overruns : Owned oneByteVolume (· = 7) ∧ size (oneByteVolume.blocks 7) = 1 ∧
      (axfsRead oneByteVolume (axfsMakeVnode oneByteVolume 7) 0 0).length = 4096 ∧
      axfsWrite oneByteVolume (axfsMakeVnode oneByteVolume 7) 0 (fun _ => 66) 0 = none :=
  ⟨oneByteVolume_owned, by decide, by decide +kernel, axfsWrite_nothing_at_zero _ _ _⟩

/-! ### The bitmap -/

/-- `afs_alloc_block` looks at the bit of block `i`: all earlier ones are set. -/
def Examined (v : Volume) (i : ℕ) : Prop :=
  i < v.totalBlocks ∧ ∀ j, j < i → v.marked j = true

/-- The search of `afs_alloc_block` gets to block `i` when it has found nothing before. -/
theorem examined_iff {v : Volume} {i : ℕ} : Examined v i ↔ i < v.totalBlocks ∧
    (List.range i).find? (fun j => !getBit (v.afsReadBlock v.freeBitmapBlock) j) = none := by
  simp [Examined, Volume.marked, Volume.afsReadBlock]

/-- Allocation and the freeing of any block of the volume stay in the 4096 bytes of the bitmap, and
allocation answers a block whose bit there is clear. -/
structure BitmapInside (v : Volume) : Prop where
  alloc : ∀ i, Examined v i → i / 8 < 4096
  free : ∀ b, b < v.totalBlocks → b / 8 < 4096
  answer : (afsAllocBlock v).2 / 8 < 4096 ∧ v.marked (afsAllocBlock v).2 = false

theorem bitmapInside_iff_of_pos (hpos : 0 < v.totalBlocks) :
    BitmapInside v ↔ v.totalBlocks ≤ 32768 ∧ ∃ i, i < v.totalBlocks ∧ v.marked i = false := by
  refine ⟨?_, ?_⟩
  · intro h
    refine ⟨?_, ?_⟩
    · have hlast := h.free (v.totalBlocks - 1) (by omega)
      omega
    · by_contra hnone
      have hfull : v.Full := by
        intro i hi
        by_contra hclear
        exact hnone ⟨i, hi, Bool.eq_false_iff.mpr hclear⟩
      have hanswer := h.answer.2
      rw [afsAllocBlock_of_full hfull] at hanswer
      exact hnone ⟨0, hpos, hanswer⟩
  · rintro ⟨htotal, i, hi, hclear⟩
    obtain ⟨n, hn, hanswer, halloc⟩ := afsAllocBlock_of_clear hi hclear
    exact
      { alloc := fun j hj => by
          have hj' := hj.1
          omega
        free := fun b hb => by omega
        answer := by
          rw [halloc]
          exact ⟨by dsimp only; omega, hanswer⟩ }

/-- **The volumes whose bitmap fits its block.**  On a volume that mkfs formatted, whatever has
become of its bitmap, allocation and freeing stay in the bitmap and allocation answers a free block
exactly if the partition has at most 32768 blocks and one of them is free. -/
theorem bitmap_inside_iff (fsize partOffset t : ℕ) (hfsize : fsize < 2 ^ 63)
    (hpart : partBlocks fsize partOffset = some t) (blocks : ℕ → Block)
    (hsuper : blocks 0 = superBlock t 5) (v : Volume) (hmount : axiomefsMountPart blocks = some v) :
    BitmapInside v ↔ t ≤ 32768 ∧ ∃ i, i < t ∧ getBit (blocks 2) i = false := by
  obtain ⟨hmin, hmax⟩ := partBlocks_spec hpart
  have ht : t < 2 ^ 64 := by omega
  rw [axiomefsMountPart_superBlock ht (by decide) hsuper] at hmount
  cases hmount
  exact bitmapInside_iff_of_pos (show 0 < t by omega)

/-- The superblocks and the bitmap of a partition of 4 MiB that mkfs has formatted with an empty
root directory: the inode is in block 5 and the entries are in block 6. -/
def freshPartition (b : ℕ) : Block :=
  if b ≤ 1 then superBlock 1024 5
  else if b = 2 then fun j => if j = 0 then 127 else 0
  else zeroBlock

theorem bitmap_inside_iff_fresh :
    ∃ v, axiomefsMountPart freshPartition = some v ∧ BitmapInside v := by
  have hmount := axiomefsMountPart_superBlock (show 1024 < 2 ^ 64 by decide)
    (show 5 < 2 ^ 64 by decide) (show freshPartition 0 = superBlock 1024 5 from rfl)
  refine ⟨_, hmount, ?_⟩
  apply (bitmap_inside_iff 4194304 0 1024 (by decide) (by decide) freshPartition rfl _ hmount).mpr
  exact ⟨by decide, 7, by decide, by decide⟩

/-- The blocks that mkfs leaves of a partition of `t` blocks, with all bits of the bitmap set. -/
def fullPartition (t : ℕ) (b : ℕ) : Block :=
  if b = 0 then superBlock t 5 else if b = 2 then fun _ => 255 else zeroBlock

theorem getBit_fullPartition (t i : ℕ) : getBit (fullPartition t 2) i = true := by
  have hbits : ∀ k < 8, (255 : UInt8).toBitVec.getLsbD k = true := by decide
  exact hbits (i % 8) (Nat.mod_lt i (by decide))

/-- **A partition of 32769 blocks**: when the first 32768 are used, allocation looks at byte 4096 of
the bitmap's buffer. -/
theorem large_partition_overruns : partBlocks 134221824 0 = some 32769 ∧
      ∃ v, axiomefsMountPart (fullPartition 32769) = some v ∧ Examined v 32768 ∧
        ¬32768 / 8 < 4096 := by
  refine ⟨by decide, _, axiomefsMountPart_superBlock (by decide) (by decide) rfl,
    ⟨by decide, ?_⟩, by decide⟩
  intro j _
  exact getBit_fullPartition 32769 j

end AxiomeOS.Axfs
