import AxiomeOS.Axfs.Volume

/-!
# axiomefs: what the driver does on a full volume

`afs_alloc_block` answers 0 when every bit of the bitmap is set, and 0 is the number of the block
that holds the superblock.  None of its callers tests for it.  So on a full volume

* `axfs_create` writes the inode of the new node over the superblock and answers 0
  (`axfsCreate_of_full`);
* a turn of `axfs_write` that has no block yet writes its data over the superblock and enters
  block 0 as an extent (`writeBlock_of_full`), and the write answers its whole length
  (`axfsWrite_length`).

`full_volume_never_refuses` collects this: no operation that needs a block is ever refused.
-/

namespace AxiomeOS.Axfs

open Bytes

/-- The bitmap has no free block. -/
def Volume.Full (v : Volume) : Prop := ∀ i, i < v.totalBlocks → v.marked i = true

instance (v : Volume) : Decidable v.Full :=
  inferInstanceAs (Decidable (∀ i, i < v.totalBlocks → v.marked i = true))

/-- A create that gets as far as its allocation. -/
def CreateNeedsBlock (v : Volume) (relpath : List UInt8) : Prop :=
  (axfsParentDir v relpath).1 ≠ 0 ∧ (axfsParentDir v relpath).2 ≠ []

/-- A write some of whose blocks the file does not have yet. -/
def WriteNeedsBlock (v : Volume) (node : Vnode) (off len : ℕ) : Prop :=
  ∃ L, off / 4096 ≤ L ∧ L ≤ lastByte off len / 4096 ∧
    (L < Inode.extentCount.get (v.blocks node.priv) →
      (Inode.physicalBlock L).get (v.blocks node.priv) = 0)

/-- The create reports failure and leaves every block as it was. -/
def CreateRefused (v : Volume) (relpath : List UInt8) (type : NodeType) (cur : Option (ℕ × ℕ)) :
    Prop :=
  (axfsCreate v relpath type cur).2 ≠ 0 ∧ (axfsCreate v relpath type cur).1.blocks = v.blocks

/-- The write reports fewer bytes than asked and leaves every block as it was. -/
def WriteRefused (v : Volume) (node : Vnode) (off : ℕ) (buf : ℕ → UInt8) (len : ℕ) : Prop :=
  ∃ v' node' r, axfsWrite v node off buf len = some (v', node', r) ∧ r < len ∧
    v'.blocks = v.blocks

theorem afsAllocBlock_of_full {v : Volume} (hfull : v.Full) : afsAllocBlock v = (v, 0) := by
  have hnone : (List.range v.totalBlocks).find?
      (fun i => !getBit (v.afsReadBlock v.freeBitmapBlock) i) = none := by
    rw [List.find?_eq_none]
    intro i hi
    have hused : getBit (v.blocks v.freeBitmapBlock) i = true := hfull i (List.mem_range.mp hi)
    simp only [Volume.afsReadBlock, hused, Bool.not_true, Bool.false_eq_true, not_false_iff]
  rw [afsAllocBlock, hnone]

/-- **Create on a full volume**: the inode goes to block 0, the directory gets an entry that
names block 0, and the answer is success. -/
theorem axfsCreate_of_full {v : Volume} (hfull : v.Full) {relpath : List UInt8}
    (hneed : CreateNeedsBlock v relpath) (type : NodeType) (cur : Option (ℕ × ℕ)) :
    axfsCreate v relpath type cur =
      (afsDirAddEntry (writeInode v 0 (newInode 0 type cur)) (axfsParentDir v relpath).1
        (axfsParentDir v relpath).2 0 type.code, 0) := by
  rw [axfsCreate, if_neg hneed.1, if_neg hneed.2, afsAllocBlock_of_full hfull]

theorem axfsWrite_length {v v' : Volume} {node node' : Vnode} {off len r : ℕ} {buf : ℕ → UInt8}
    (h : axfsWrite v node off buf len = some (v', node', r)) : r = len := by
  obtain ⟨s, -, hs⟩ := Option.map_eq_some_iff.mp h
  exact (congrArg (fun x => x.2.2) hs).symm

/-- **No operation is refused on a full volume.**  Whatever create or write needs a block, it is
not answered by a failure that leaves the blocks alone; a create runs to its end with block 0 as
the inode of the new node. -/
theorem full_volume_never_refuses (v : Volume) (hfull : v.Full) :
    (∀ relpath type cur, CreateNeedsBlock v relpath → ¬CreateRefused v relpath type cur ∧
      axfsCreate v relpath type cur =
        (afsDirAddEntry (writeInode v 0 (newInode 0 type cur)) (axfsParentDir v relpath).1
          (axfsParentDir v relpath).2 0 type.code, 0)) ∧
    (∀ node off buf len, WriteNeedsBlock v node off len → ¬WriteRefused v node off buf len) := by
  refine ⟨?_, ?_⟩
  · intro relpath type cur hneed
    have hcreate := axfsCreate_of_full hfull hneed type cur
    refine ⟨?_, hcreate⟩
    intro hrefused
    apply hrefused.1
    rw [hcreate]
  · intro node off buf len _ hrefused
    obtain ⟨v', node', r, hwrite, hshort, -⟩ := hrefused
    have hlen : r = len := axfsWrite_length hwrite
    omega

/-! ### A full volume -/

/-- Eight blocks, all marked used: the superblock, the bitmap in block 2, the root directory in
block 5 with its data in block 6, and an empty file in block 7. -/
def fullVolume : Volume where
  blocks := fun b =>
    if b = 0 then Super.magic.put 0x5346454d4f495841 zeroBlock
    else if b = 2 then fun _ => 255
    else if b = 5 then appendExtent (newInode 5 .dir none) 6
    else if b = 7 then newInode 7 .file none
    else zeroBlock
  totalBlocks := 8
  rootInodeBlock := 5
  freeBitmapBlock := 2
  transactionId := 2

/-- The path `a`. -/
def pathA : List UInt8 := [97]

theorem full_volume_never_refuses_example : fullVolume.Full ∧ CreateNeedsBlock fullVolume pathA ∧
      ¬CreateRefused fullVolume pathA .file none := by
  have hneed : CreateNeedsBlock fullVolume pathA := by
    refine ⟨?_, ?_⟩ <;> decide
  exact ⟨by decide, hneed, ((full_volume_never_refuses fullVolume (by decide)).1 _ _ _ hneed).1⟩

/-- **A full volume loses its superblock.**  Creating `a`, or writing one byte to the empty file,
is answered by success, and the volume can no longer be mounted. -/
theorem full_volume_loses_superblock :
    fullVolume.Full ∧ (axiomefsMountPart fullVolume.blocks).isSome ∧
      CreateNeedsBlock fullVolume pathA ∧
      (axfsCreate fullVolume pathA .file none).2 = 0 ∧
      (axiomefsMountPart (axfsCreate fullVolume pathA .file none).1.blocks).isNone ∧
      WriteNeedsBlock fullVolume (axfsMakeVnode fullVolume 7) 0 1 ∧
      (axfsWrite fullVolume (axfsMakeVnode fullVolume 7) 0 (fun _ => 65) 1).any
        (fun r => r.2.2 = 1 ∧ (axiomefsMountPart r.1.blocks).isNone) := by
  refine ⟨by decide, by decide, ⟨by decide, by decide⟩, by decide, by decide, ⟨0, ?_⟩, by decide⟩
  decide

end AxiomeOS.Axfs
