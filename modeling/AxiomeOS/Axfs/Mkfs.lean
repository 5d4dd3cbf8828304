import AxiomeOS.Axfs.Owned

/-!
# mkfs: the superblock

`mkfs_axiomefs` makes a volume of all the blocks its partition has, at least six (`partBlocks`), and
enters their number in the superblock (`superBlock`).  The driver takes the number from there
(`axiomefsMountPart_superBlock`).
-/

namespace AxiomeOS.Axfs

open Bytes

/-- `main`: the number of blocks of the partition at sector `partOffset` of an image of `fsize`
bytes, if it has at least six. -/
def partBlocks (fsize partOffset : ℕ) : Option ℕ :=
  let totalSectors := fsize / 512
  if totalSectors ≤ partOffset then none
  else
    let blocks := (totalSectors - partOffset) / 8
    if blocks < 6 then none else some blocks

/-- `write_fs`, the superblock, which goes to blocks 0 and 1. -/
def superBlock (totalBlocks rootInode : ℕ) : Block :=
  let s := Super.magic.put 0x5346454d4f495841 zeroBlock
  let s := Super.blockSize.put 4096 s
  let s := Super.totalBlocks.put totalBlocks s
  let s := Super.rootInode.put rootInode s
  let s := Super.freeBitmapBlock.put 2 s
  let s := Super.transactionId.put 1 s
  let s := Hdr.type.put objSuper s
  let s := Hdr.objectId.put 0 s
  let s := Hdr.transactionId.put 1 s
  afsSetChecksum s

theorem partBlocks_spec {fsize partOffset t : ℕ} (h : partBlocks fsize partOffset = some t) :
    6 ≤ t ∧ t ≤ fsize / 512 / 8 := by
  unfold partBlocks at h
  dsimp only at h
  split at h
  · cases h
  · split at h
    · cases h
    · cases h
      omega

theorem get_afsSetChecksum (b : Block) {f : Field} (h : 32 ≤ f.off) :
    f.get (afsSetChecksum b) = f.get b := by
  have hheader : Hdr.checksum.Disjoint f := .inl h
  rw [afsSetChecksum, Field.get_put_of_disjoint _ _ hheader, Field.get_put_of_disjoint _ _ hheader]

theorem superBlock_get {t r : ℕ} (ht : t < 2 ^ 64) (hr : r < 2 ^ 64) :
    Super.magic.get (superBlock t r) = 0x5346454d4f495841 ∧
      Super.totalBlocks.get (superBlock t r) = t ∧ Super.rootInode.get (superBlock t r) = r ∧
      Super.freeBitmapBlock.get (superBlock t r) = 2 ∧
      Super.transactionId.get (superBlock t r) = 1 := by
  have ht' : t < 256 ^ Super.totalBlocks.width := ht
  have hr' : r < 256 ^ Super.rootInode.width := hr
  refine ⟨?_, ?_, ?_, ?_, ?_⟩ <;>
    simp (disch := first | assumption | decide) only
      [superBlock, get_afsSetChecksum, Field.get_put_of_disjoint, Field.get_put]

/-- **Mounting what mkfs wrote**: the volume has the blocks of the partition. -/
theorem axiomefsMountPart_superBlock {blocks : ℕ → Block} {t r : ℕ} (ht : t < 2 ^ 64)
    (hr : r < 2 ^ 64) (h : blocks 0 = superBlock t r) : axiomefsMountPart blocks = some
      { blocks := blocks, totalBlocks := t, rootInodeBlock := r, freeBitmapBlock := 2,
        transactionId := 2 } := by
  obtain ⟨hmagic, htotal, hroot, hbitmap, htxn⟩ := superBlock_get ht hr
  have hnext : (1 + 1) % 2 ^ 64 = 2 := rfl
  rw [axiomefsMountPart, h, if_neg (not_not_intro hmagic), htotal, hroot, hbitmap, htxn, hnext]

end AxiomeOS.Axfs
