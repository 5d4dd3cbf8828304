import AxiomeOS.Lib.Bytes
import Mathlib.Data.Int.Notation

/-!
# axiomefs: the on-disk structures and the operations of the driver

A volume is a function from block numbers to blocks of bytes, together with what `axfs_state`
keeps in memory.  The packed C structures `axfs_super`, `axfs_inode` and `axfs_dent` are fields at
fixed offsets of a block; an inode fills its block exactly (4096 bytes), so a `struct axfs_inode`
is a block.

The operations are translated as the driver computes them:

* `afsAllocBlock` answers `0` when the bitmap has no clear bit, and its callers do not look;
* `axfsParentDir` follows the components of a path without looking at the type of the inodes it
  passes through, where `axfsLookup` stops at anything that is not a directory;
* `axfsWrite` appends a new block at the end of the extent array, whatever the offset.

`axfsWrite` answers `none` where the C code leaves its arrays (an extent index of 160 or more, or
a copy that ends outside the block buffer).  Block input and output always succeeds here.
-/

namespace AxiomeOS.Axfs

open Bytes

/-- The contents of a block; the driver looks at offsets below 4096. -/
abbrev Block := Buffer

def zeroBlock : Block := fun _ => 0

/-! ### Structures -/

/-- `struct axfs_obj_hdr`, at the start of every object. -/
def Hdr.objectId : Field := ⟨0, 8⟩
def Hdr.transactionId : Field := ⟨8, 8⟩
def Hdr.type : Field := ⟨16, 4⟩
def Hdr.checksum : Field := ⟨24, 8⟩

/-- `struct axfs_super`, after its header. -/
def Super.magic : Field := ⟨32, 8⟩
def Super.blockSize : Field := ⟨40, 8⟩
def Super.totalBlocks : Field := ⟨48, 8⟩
def Super.rootInode : Field := ⟨56, 8⟩
def Super.transactionId : Field := ⟨80, 8⟩
def Super.freeBitmapBlock : Field := ⟨88, 8⟩

/-- `struct axfs_inode`, after its header. -/
def Inode.inodeNumber : Field := ⟨32, 8⟩
def Inode.size : Field := ⟨40, 8⟩
def Inode.modified : Field := ⟨56, 8⟩
def Inode.permissions : Field := ⟨64, 8⟩
def Inode.uid : Field := ⟨72, 4⟩
def Inode.gid : Field := ⟨76, 4⟩
def Inode.inType : Field := ⟨80, 4⟩
def Inode.extentCount : Field := ⟨84, 4⟩

/-- `extents[k]`, 24 bytes each. -/
def Inode.physicalBlock (k : ℕ) : Field := ⟨88 + 24 * k, 8⟩
def Inode.blockCount (k : ℕ) : Field := ⟨96 + 24 * k, 8⟩
def Inode.referenceCount (k : ℕ) : Field := ⟨104 + 24 * k, 4⟩

/-- `struct axfs_dent`, 264 bytes, fifteen to a block. -/
def Dent.inodeId (i : ℕ) : Field := ⟨264 * i, 4⟩
def Dent.type (i : ℕ) : Field := ⟨264 * i + 4, 1⟩
def Dent.namelen (i : ℕ) : Field := ⟨264 * i + 5, 1⟩
def Dent.name (i : ℕ) : ℕ := 264 * i + 8

/-- `AXFS_OBJ_SUPER`, `AXFS_OBJ_INODE`. -/
def objSuper : ℕ := 1
def objInode : ℕ := 2

/-- The two kinds of node that `axfs_create` is asked for. -/
inductive NodeType
  | file
  | dir
  deriving DecidableEq

/-- `AXFS_INODE_FILE`, `AXFS_INODE_DIR`. -/
def NodeType.code : NodeType → ℕ
  | .file => 1
  | .dir => 2

def maxExtents : ℕ := 160
def maxName : ℕ := 255

/-! ### Checksums -/

/-- FNV-1a over the `n` bytes from `off` on. -/
def afsFnv (p : Block) (off : ℕ) (h : UInt64) : ℕ → UInt64
  | 0 => h
  | n + 1 => (afsFnv p off h n ^^^ (p (off + n)).toUInt64) * 1099511628211

def afsChecksumOf (blk : Block) : UInt64 :=
  afsFnv blk 32 (afsFnv blk 0 14695981039346656037 24) (4096 - 32)

def afsSetChecksum (blk : Block) : Block :=
  let blk := Hdr.checksum.put 0 blk
  Hdr.checksum.put (afsChecksumOf blk).toNat blk

/-! ### The volume -/

/-- `struct axfs_state`, and the blocks of the partition it is mounted from. -/
structure Volume where
  blocks : ℕ → Block
  totalBlocks : ℕ
  rootInodeBlock : ℕ
  freeBitmapBlock : ℕ
  transactionId : ℕ

def Volume.afsReadBlock (v : Volume) (block : ℕ) : Block := v.blocks block

def Volume.afsWriteBlock (v : Volume) (block : ℕ) (buf : Block) : Volume :=
  { v with blocks := fun i => if i = block then buf else v.blocks i }

/-- Block `i` is marked used in the free-space bitmap. -/
def Volume.marked (v : Volume) (i : ℕ) : Bool := getBit (v.blocks v.freeBitmapBlock) i

/-- `afs_alloc_block`: the first clear bit, or 0 when there is none. -/
def afsAllocBlock (v : Volume) : Volume × ℕ :=
  let bm := v.afsReadBlock v.freeBitmapBlock
  match (List.range v.totalBlocks).find? fun i => !getBit bm i with
  | some i => (v.afsWriteBlock v.freeBitmapBlock (setBit bm i), i)
  | none => (v, 0)

/-- The end of `afs_dir_add_entry`, `axfs_write` and `axfs_create`: stamp the inode with a new
transaction, seal it and write it to its block. -/
def writeInode (v : Volume) (block : ℕ) (di : Block) : Volume :=
  let txn := (v.transactionId + 1) % 2 ^ 64
  let nblk := afsSetChecksum (Hdr.type.put objInode (Hdr.transactionId.put txn di))
  { v.afsWriteBlock block nblk with transactionId := txn }

/-- Enter `newphys` as a further extent of one block and count it. -/
def appendExtent (di : Block) (newphys : ℕ) : Block :=
  let k := Inode.extentCount.get di
  let di := (Inode.physicalBlock k).put newphys di
  let di := (Inode.blockCount k).put 1 di
  let di := (Inode.referenceCount k).put 1 di
  Inode.extentCount.put (k + 1) di

/-! ### Directories -/

/-- Byte `j` of a C string. -/
def nameByte (name : List UInt8) (j : ℕ) : UInt8 := name.getD j 0

/-- `strncmp(a, b, n) == 0`, from index `i` on. -/
def strncmpZero (a b : ℕ → UInt8) (i : ℕ) : ℕ → Bool
  | 0 => true
  | n + 1 => if a i ≠ b i then false else if a i = 0 then true else strncmpZero a b (i + 1) n

/-- The test of every directory search: a live entry with this very name. -/
def dentMatches (name : List UInt8) (blk : Block) (i : ℕ) : Bool :=
  (Dent.inodeId i).get blk ≠ 0 && (Dent.namelen i).get blk ≠ 0
    && strncmpZero (fun j => blk (Dent.name i + j)) (nameByte name) 0 ((Dent.namelen i).get blk)
    && (Dent.namelen i).get blk = name.length

/-- The slots of a directory with `n` data blocks, in the order the loops visit them. -/
def slots (n : ℕ) : List (ℕ × ℕ) :=
  (List.range n).flatMap fun e => (List.range 15).map fun i => (e, i)

/-- The first slot of a directory that passes a test. -/
def scanDir (v : Volume) (di : Block) (p : Block → ℕ → Bool) : Option (ℕ × ℕ) :=
  (slots (Inode.extentCount.get di)).find? fun s =>
    p (v.afsReadBlock ((Inode.physicalBlock s.1).get di)) s.2

/-- The inode block named by the first entry called `name`. -/
def findEntry (v : Volume) (di : Block) (name : List UInt8) : Option ℕ :=
  (scanDir v di (dentMatches name)).map fun s =>
    (Dent.inodeId s.2).get (v.afsReadBlock ((Inode.physicalBlock s.1).get di))

/-- Fill in a directory entry; the name is copied without a terminator. -/
def putDent (nb : Block) (slot : ℕ) (name : List UInt8) (child type : ℕ) : Block :=
  let nb := (Dent.inodeId slot).put child nb
  let nb := (Dent.type slot).put type nb
  let nb := (Dent.namelen slot).put name.length nb
  blit nb (Dent.name slot) (nameByte name) ((Dent.namelen slot).get nb)

def afsDirAddEntry (v : Volume) (dirBlock : ℕ) (name : List UInt8) (child type : ℕ) : Volume :=
  let di := v.afsReadBlock dirBlock
  match scanDir v di fun blk i => (Dent.inodeId i).get blk = 0 with
  | some s =>
    let data := (Inode.physicalBlock s.1).get di
    v.afsWriteBlock data (putDent (v.afsReadBlock data) s.2 name child type)
  | none =>
    if maxExtents ≤ Inode.extentCount.get di then v
    else
      let a := afsAllocBlock v
      let v := a.1.afsWriteBlock a.2 (putDent zeroBlock 0 name child type)
      writeInode v dirBlock (appendExtent di a.2)

/-! ### Paths -/

/-- The byte `'/'`. -/
def slash : UInt8 := 47

/-- The non-empty stretches between slashes; `seg` is the one being read. -/
def segments : List UInt8 → List UInt8 → List (List UInt8)
  | seg, [] => if seg = [] then [] else [seg]
  | seg, c :: p =>
    if c = slash then (if seg = [] then segments [] p else seg :: segments [] p)
    else segments (seg ++ [c]) p

/-- The components a path walk copies out, each cut to `MAX_NAME` bytes. -/
def components (p : List UInt8) : List (List UInt8) := (segments [] p).map (·.take maxName)

/-- What `axfs_make_vnode` reads from an inode; `priv` is the inode block. -/
structure Vnode where
  priv : ℕ
  type : NodeType
  size : ℕ
  uid : ℕ
  gid : ℕ
  mode : ℕ
  deriving DecidableEq

def axfsMakeVnode (v : Volume) (inodeBlock : ℕ) : Vnode :=
  let di := v.afsReadBlock inodeBlock
  { priv := inodeBlock
    type := if Inode.inType.get di = NodeType.dir.code then .dir else .file
    size := Inode.size.get di
    uid := Inode.uid.get di
    gid := Inode.gid.get di
    mode := Inode.permissions.get di % 4096 }

/-- The loop of `axfs_lookup`, which stops at an inode that is not a directory. -/
def lookupFrom (v : Volume) : ℕ → List (List UInt8) → Option ℕ
  | cur, [] => some cur
  | cur, comp :: rest =>
    let di := v.afsReadBlock cur
    if Inode.inType.get di ≠ NodeType.dir.code then none
    else (findEntry v di comp).bind fun next => lookupFrom v next rest

def axfsLookup (v : Volume) (dir : ℕ) (relpath : List UInt8) : Option Vnode :=
  (lookupFrom v dir (components relpath)).map (axfsMakeVnode v)

/-- The loop of `axfs_parent_dir`, which looks at no type; 0 when a component is missing. -/
def parentFrom (v : Volume) : ℕ → List (List UInt8) → ℕ
  | cur, [] => cur
  | cur, comp :: rest =>
    match findEntry v (v.afsReadBlock cur) comp with
    | some next => parentFrom v next rest
    | none => 0

/-- The path before its last slash, if it has one. -/
def parentPath (relpath : List UInt8) : Option (List UInt8) :=
  if slash ∈ relpath then some ((relpath.reverse.dropWhile (· ≠ slash)).drop 1).reverse else none

/-- The path after its last slash. -/
def baseName (relpath : List UInt8) : List UInt8 := (relpath.reverse.takeWhile (· ≠ slash)).reverse

/-- The components `axfs_parent_dir` follows: those of the first `MAX_NAME` bytes of the path
before the last slash. -/
def parentComponents (relpath : List UInt8) : List (List UInt8) :=
  match parentPath relpath with
  | none => []
  | some p => components (p.take maxName)

/-- `axfs_parent_dir`: the parent's inode block, or 0, and the last component. -/
def axfsParentDir (v : Volume) (relpath : List UInt8) : ℕ × List UInt8 :=
  (parentFrom v v.rootInodeBlock (parentComponents relpath), (baseName relpath).take maxName)

/-! ### Operations -/

/-- The inode `axfs_create` fills in; `cur` is the current thread's user and group, if any. -/
def newInode (child : ℕ) (type : NodeType) (cur : Option (ℕ × ℕ)) : Block :=
  let ci := Hdr.objectId.put child zeroBlock
  let ci := Inode.inodeNumber.put child ci
  let ci := Inode.inType.put type.code ci
  let ci := Inode.size.put 0 ci
  let ci := Inode.extentCount.put 0 ci
  let ci := Inode.uid.put (cur.elim 0 Prod.fst) ci
  let ci := Inode.gid.put (cur.elim 0 Prod.snd) ci
  Inode.permissions.put (if type = .dir then 0o755 else 0o644) ci

def axfsCreate (v : Volume) (relpath : List UInt8) (type : NodeType) (cur : Option (ℕ × ℕ)) :
    Volume × ℤ :=
  let parent := axfsParentDir v relpath
  if parent.1 = 0 then (v, -1)
  else if parent.2 = [] then (v, -1)
  else
    let a := afsAllocBlock v
    let v := writeInode a.1 a.2 (newInode a.2 type cur)
    (afsDirAddEntry v parent.1 parent.2 a.2 type.code, 0)

/-- `off + len - 1` in 64 bits. -/
def lastByte (off len : ℕ) : ℕ := (off + len + (2 ^ 64 - 1)) % 2 ^ 64

/-- Where the part of a transfer that falls in block `L` starts in that block. -/
def chunkLo (off L : ℕ) : ℕ := if L = off / 4096 then off % 4096 else 0

/-- Where it ends, the last byte included. -/
def chunkHi (off len L : ℕ) : ℕ :=
  if L = lastByte off len / 4096 then lastByte off len % 4096 else 4095

def chunkLen (off len L : ℕ) : ℕ := (chunkHi off len L + 2 ^ 64 - chunkLo off L + 1) % 2 ^ 64

/-- `axfs_read`: the bytes copied to the caller's buffer. -/
def axfsRead (v : Volume) (node : Vnode) (off len : ℕ) : List UInt8 :=
  let di := v.afsReadBlock node.priv
  if Inode.size.get di ≤ off then []
  else
    let r := min len (Inode.size.get di - off)
    let stop := min (lastByte off r / 4096 + 1) (Inode.extentCount.get di)
    (List.range' (off / 4096) (stop - off / 4096)).flatMap fun L =>
      let blk := v.afsReadBlock ((Inode.physicalBlock L).get di)
      (List.range (chunkLen off r L)).map fun j => blk (chunkLo off L + j)

/-- One turn of the loop of `axfs_write`, for the logical block `L`. -/
def writeBlock (buf : ℕ → UInt8) (off len L : ℕ) (v : Volume) (di : Block) :
    Option (Volume × Block) :=
  let ec := Inode.extentCount.get di
  let lo := chunkLo off L
  let clen := chunkLen off len L
  let phys := if L < ec then (Inode.physicalBlock L).get di else 0
  let a := if phys ≠ 0 then (v, phys) else afsAllocBlock v
  let blk := if phys ≠ 0 then a.1.afsReadBlock phys else zeroBlock
  if 4096 < lo + clen ∨ maxExtents ≤ min L ec then none
  else
    let v := a.1.afsWriteBlock a.2 (blit blk lo (fun j => buf (L * 4096 + lo - off + j)) clen)
    if L < ec then some (v, (Inode.physicalBlock L).put a.2 di)
    else some (v, appendExtent di a.2)

/-- The loop, `n` blocks from `L` on. -/
def writeBlocks (buf : ℕ → UInt8) (off len : ℕ) : ℕ → ℕ → Volume → Block → Option (Volume × Block)
  | 0, _, v, di => some (v, di)
  | n + 1, L, v, di =>
    (writeBlock buf off len L v di).bind fun s => writeBlocks buf off len n (L + 1) s.1 s.2

def axfsWrite (v : Volume) (node : Vnode) (off : ℕ) (buf : ℕ → UInt8) (len : ℕ) :
    Option (Volume × Vnode × ℕ) :=
  let first := off / 4096
  let last := lastByte off len / 4096
  (writeBlocks buf off len (last + 1 - first) first v (v.afsReadBlock node.priv)).map fun s =>
    let top := (off + len) % 2 ^ 64
    let di := if Inode.size.get s.2 < top then Inode.size.put top s.2 else s.2
    let di := Inode.modified.put (Inode.modified.get di + 1) di
    (writeInode s.1 node.priv di, { node with size := Inode.size.get di }, len)

/-- `axiomefs_mount_part`, from the blocks of a partition: the superblock's fields, if its first
eight bytes after the header are `AXIOMEFS`. -/
def axiomefsMountPart (blocks : ℕ → Block) : Option Volume :=
  let s := blocks 0
  if Super.magic.get s ≠ 0x5346454d4f495841 then none
  else some
    { blocks := blocks
      totalBlocks := Super.totalBlocks.get s
      rootInodeBlock := Super.rootInode.get s
      freeBitmapBlock := Super.freeBitmapBlock.get s
      transactionId := (Super.transactionId.get s + 1) % 2 ^ 64 }

end AxiomeOS.Axfs
