import AxiomeOS.Vfs.Files

/-!
# The mount table

A model of the mount table of `vfs.c` and of the vnodes that the five file systems give out:
resolving a path (`absolutize`, `mount_find`, `vfs_lookup` and the lookups of the ramfs, FAT32,
axiomefs, procfs and devfs), releasing a vnode (`vfs_release` and the five `inode_free`), mounting
and unmounting.

A superblock is an element of the array `g_mounts`, and the pointer `sb` of a vnode an index into
it.  Unmounting moves the elements behind the gap, but not the pointers: a vnode may name the
superblock of another file system.  Vnodes and private objects (`proc_node`, `dev_node`, the states
of the volumes, the pipes of FIFOs) stand in two heaps; an allocator may give any address that is
not in use.  What stands on the disks, which threads and devices there are, is an argument of each
lookup (`World`).

The serial number of a mount (`Super.id`) and the mount that a vnode belongs to (`Vnode.fs`) are no
data of the kernel: they say which file system a vnode is one of, whatever its pointers say.

File contents, creating and removing, the arrays behind the lists of children and the answers of
`vfs_list` are left out.
-/

namespace AxiomeOS.Mounts

open Function

open Vfs (VType components maxName)

/-! ### State -/

inductive FsType
  | ramfs
  | fat32
  | axiomefs
  | proc
  | dev
deriving DecidableEq, Repr

inductive ProcKind
  | root
  | pid
  | status
  | cmdline
  | meminfo
deriving DecidableEq, Repr

structure ProcNode where
  kind : ProcKind
  pid : ℕ

/-- What the private pointer of a vnode holds: nothing or the pipe of a FIFO in a ramfs, a number on
the disk, or a `proc_node` or `dev_node`.  The `dev_node` of the root has no device. -/
inductive Priv
  | null
  | pipe (p : ℕ)
  | cluster (c : ℕ)
  | inode (b : ℕ)
  | proc (p : ℕ) (node : ProcNode)
  | dev (p : ℕ) (device : Option ℕ)

/-- The object that the pointer refers to. -/
def Priv.ptr : Priv → Option ℕ
  | .pipe p => some p
  | .proc p _ => some p
  | .dev p _ => some p
  | _ => none

structure Vnode where
  name : List Char
  type : VType
  sb : Option ℕ
  priv : Priv
  refcount : ℕ
  children : List ℕ
  parent : Option ℕ
  fs : ℕ

structure Super where
  mountpoint : List Char
  fsType : FsType
  priv : Option ℕ
  root : Option ℕ
  id : ℕ

/-- `vnodes` and `objs` are the addresses in use, `table` and `nmounts` are `g_mounts` and
`g_nmounts`, and `fds` are the descriptor tables of all threads. -/
structure State where
  vnodes : Finset ℕ
  vnode : ℕ → Vnode
  objs : Finset ℕ
  table : ℕ → Super
  nmounts : ℕ
  fds : ℕ → Fin 32 → Option ℕ
  nextId : ℕ

/-- What `kmalloc` gives in a call, for each vnode and each object that it asks for. -/
structure Mem where
  vnode : ℕ → Alloc
  obj : ℕ → Alloc

/-- The kernel outside the file systems: the threads, the current one, the devices; and what the
search of a directory finds, on the FAT32 and the axiomefs volume with the given state. -/
structure World where
  findByPid : ℕ → Bool
  current : Option ℕ
  deviceFind : List Char → Option ℕ
  fatFindInDir : Option ℕ → ℕ → List Char → Option (Bool × ℕ)
  axfsFind : Option ℕ → ℕ → List Char → Option ℕ
  axfsIsDir : Option ℕ → ℕ → Bool

def maxMounts : ℕ := 8

/-- The index of `g_ramfs_sb`. -/
def gRamfsSb : ℕ := 0

def State.modifyVnode (s : State) (n : ℕ) (f : Vnode → Vnode) : State :=
  { s with vnode := update s.vnode n (f (s.vnode n)) }

def State.newVnode (s : State) (n : ℕ) (v : Vnode) : State :=
  { s with vnodes := insert n s.vnodes, vnode := update s.vnode n v }

def State.newObj (s : State) (p : ℕ) : State := { s with objs := insert p s.objs }

def State.freeVnode (s : State) (n : ℕ) : State := { s with vnodes := s.vnodes.erase n }

def State.freeObj (s : State) : Option ℕ → State
  | none => s
  | some p => { s with objs := s.objs.erase p }

def State.setFd (s : State) (t : ℕ) (k : Fin 32) (f : Option ℕ) : State :=
  { s with fds := update s.fds t (update (s.fds t) k f) }

/-- A vnode fresh from `memset`, of the mount `i`. -/
def State.blank (s : State) (i : ℕ) (name : List Char) (type : VType) (priv : Priv) : Vnode where
  name := name.take maxName
  type := type
  sb := some i
  priv := priv
  refcount := 0
  children := []
  parent := none
  fs := (s.table i).id

/-! ### Paths -/

/-- `/System` -/
def systemPath : List Char := ['/', 'S', 'y', 's', 't', 'e', 'm']

/-- `/System/Process` -/
def processPath : List Char := systemPath ++ ['/', 'P', 'r', 'o', 'c', 'e', 's', 's']

/-- `/Devices` -/
def devicesPath : List Char := ['/', 'D', 'e', 'v', 'i', 'c', 'e', 's']

/-- `g_vfs_aliases` -/
def vfsAliases : List (List Char × List Char) :=
  [(['/', 'b', 'i', 'n'], ['/', 'B', 'i', 'n', 'a', 'r', 'i', 'e', 's']),
    (['/', 'h', 'o', 'm', 'e'], ['/', 'U', 's', 'e', 'r', 's']),
    (['/', 'd', 'e', 'v'], devicesPath),
    (['/', 't', 'm', 'p'], ['/', 'T', 'e', 'm', 'p', 'o', 'r', 'a', 'r', 'y']),
    (['/', 'e', 't', 'c'], systemPath ++
      ['/', 'C', 'o', 'n', 'f', 'i', 'g', 'u', 'r', 'a', 't', 'i', 'o', 'n']),
    (['/', 'v', 'a', 'r'], systemPath ++ ['/', 'V', 'a', 'r', 'i', 'a', 'b', 'l', 'e']),
    (['/', 'p', 'r', 'o', 'c'], processPath)]

/-- The path starts with the alias, as a whole component. -/
def aliasApplies (abs name : List Char) : Bool :=
  name.isPrefixOf abs && ((abs.drop name.length).head?.all (· = '/'))

/-- `vfs_apply_aliases` -/
def vfsApplyAliases (abs : List Char) : List Char :=
  match vfsAliases.find? fun a => aliasApplies abs a.1 with
  | none => abs
  | some (name, canon) =>
    if 319 + name.length ≤ abs.length + canon.length then abs
    else canon ++ abs.drop name.length

def absolutize (path cwd : List Char) : List Char :=
  if path.head? = some '/' then vfsApplyAliases (path.take maxName)
  else
    let dir := cwd.take maxName
    let sep := if dir ≠ [] ∧ dir.getLast? ≠ some '/' ∧ dir.length < maxName then ['/'] else []
    vfsApplyAliases ((dir ++ sep ++ path).take maxName)

/-- The mount lies on the way to the path. -/
def mountMatches (abs mountpoint : List Char) : Bool :=
  decide (abs = mountpoint) ||
    (mountpoint.isPrefixOf abs && (decide (mountpoint.getLast? = some '/') ||
      decide ((abs.drop mountpoint.length).head? = some '/') || decide (mountpoint.length = 1)))

/-- The longest mount on the way to the path, and of these the last. -/
def mountFind (s : State) (abs : List Char) : Option ℕ :=
  ((List.range s.nmounts).foldl (fun (best : Option ℕ × ℕ) i =>
    if mountMatches abs (s.table i).mountpoint ∧ best.2 ≤ (s.table i).mountpoint.length then
      (some i, (s.table i).mountpoint.length)
    else best) (none, 0)).1

/-- The rest of the path below the mount. -/
def relative (s : State) (i : ℕ) (abs : List Char) : List Char :=
  let rel := abs.drop (s.table i).mountpoint.length
  if rel.head? = some '/' then rel.tail else rel

/-! ### The lookups of the file systems -/

def ramfsFindChild (s : State) (dir : ℕ) (name : List Char) : Option ℕ :=
  (s.vnode dir).children.find? fun c => (s.vnode c).name = name

def ramfsWalk (s : State) : ℕ → List (List Char) → Option ℕ
  | cur, [] => some cur
  | cur, seg :: rest =>
    if seg = ['.'] then ramfsWalk s cur rest
    else if seg = ['.', '.'] then ramfsWalk s ((s.vnode cur).parent.getD cur) rest
    else if (s.vnode cur).type ≠ .dir then none
    else
      match ramfsFindChild s cur (seg.take maxName) with
      | none => none
      | some c => ramfsWalk s c rest

section Lookup

variable (w : World) (m : Mem) (i : ℕ)

/-- A new vnode without a private object: `axfs_make_vnode` and `fat_make_vnode`. -/
def makeVnode (s : State) (isDir : Bool) (priv : Priv) : State × Option ℕ :=
  match (m.vnode 0).pick s.vnodes with
  | none => (s, none)
  | some n => (s.newVnode n (s.blank i [] (if isDir then .dir else .file) priv), some n)

/-- A new vnode with a private object: `proc_new` and `dev_new`. -/
def newNode (s : State) (k : ℕ) (name : List Char) (type : VType) (priv : ℕ → Priv) :
    State × Option ℕ :=
  match (m.vnode k).pick s.vnodes with
  | none => (s, none)
  | some n =>
    match (m.obj k).pick s.objs with
    | none => (s, none)
    | some p => ((s.newObj p).newVnode n (s.blank i name type (priv p)), some n)

def procNew (s : State) (k : ℕ) (kind : ProcKind) (pid : ℕ) (name : List Char) : State × Option ℕ :=
  newNode m i s k name (if kind = .root ∨ kind = .pid then .dir else .file) fun p =>
    .proc p ⟨kind, pid⟩

def devNew (s : State) (device : Option ℕ) (name : List Char) : State × Option ℕ :=
  newNode m i s 0 name (if device = none then .dir else .file) fun p => .dev p device

/-- The number that a component of `/proc` spells, as an `int`. -/
def parsePid (comp : List Char) : Option ℕ :=
  if comp.all fun c => '0' ≤ c ∧ c ≤ '9' then
    some (comp.foldl (fun pid c => (pid * 10 + (c.toNat - 48)) % 2 ^ 32) 0)
  else none

/-- The loop of `proc_lookup`; `k` counts the vnodes it has made. -/
def procWalk : State → ℕ → ℕ → ProcNode → List (List Char) → State × Option ℕ
  | s, _, dir, _, [] => (s, some dir)
  | s, k, _, base, seg :: rest =>
    let comp := seg.take maxName
    let enter := fun pid =>
      match procNew m i s k .pid pid comp with
      | (s, none) => (s, none)
      | (s, some n) => procWalk s (k + 1) n ⟨.pid, pid⟩ rest
    match base.kind with
    | .root =>
      if comp = ['s', 'e', 'l', 'f'] then
        match w.current with
        | none => (s, none)
        | some pid => enter pid
      else if comp = ['m', 'e', 'm', 'i', 'n', 'f', 'o'] then procNew m i s k .meminfo 0 comp
      else
        match parsePid comp with
        | none => (s, none)
        | some pid => if w.findByPid pid then enter pid else (s, none)
    | .pid =>
      if comp = ['s', 't', 'a', 't', 'u', 's'] then procNew m i s k .status base.pid comp
      else if comp = ['c', 'm', 'd', 'l', 'i', 'n', 'e'] then procNew m i s k .cmdline base.pid comp
      else (s, none)
    | _ => (s, none)

def procLookup (s : State) (dir : ℕ) (rel : List Char) : State × Option ℕ :=
  match (s.vnode dir).type, (s.vnode dir).priv with
  | .dir, .proc _ base => procWalk w m i s 0 dir base (components rel)
  | _, _ => (s, none)

def devLookup (s : State) (dir : ℕ) (rel : List Char) : State × Option ℕ :=
  match (s.vnode dir).type, (s.vnode dir).priv, components rel with
  | .dir, .dev _ _, [] => (s, some dir)
  | .dir, .dev _ none, seg :: _ =>
    match w.deviceFind (seg.take maxName) with
    | none => (s, none)
    | some d => devNew m i s (some d) (seg.take maxName)
  | _, _, _ => (s, none)

def axfsWalk (st : Option ℕ) : ℕ → List (List Char) → Option ℕ
  | cur, [] => some cur
  | cur, seg :: rest =>
    match w.axfsFind st cur (seg.take maxName) with
    | none => none
    | some next => axfsWalk st next rest

def axfsLookup (s : State) (dir : ℕ) (rel : List Char) : State × Option ℕ :=
  match (s.vnode dir).priv with
  | .inode b =>
    match axfsWalk w (s.table i).priv b (components rel) with
    | none => (s, none)
    | some cur => makeVnode m i s (w.axfsIsDir (s.table i).priv cur) (.inode cur)
  | _ => (s, none)

/-- The loop of `fat32_lookup`.  The last component names the entry, unless a slash follows it. -/
def fatWalk (st : Option ℕ) (slash : Bool) : ℕ → List (List Char) → Option (Bool × ℕ)
  | cur, [] => w.fatFindInDir st cur ['.']
  | cur, seg :: rest =>
    match w.fatFindInDir st cur (seg.take maxName) with
    | none => none
    | some fe => if rest = [] ∧ slash = false then some fe else fatWalk st slash fe.2 rest

def fat32Lookup (s : State) (dir : ℕ) (rel : List Char) : State × Option ℕ :=
  match (s.vnode dir).priv with
  | .cluster c =>
    match fatWalk w (s.table i).priv (rel.getLast? = some '/') c (components rel) with
    | none => (s, none)
    | some fe => makeVnode m i s fe.1 (.cluster fe.2)
  | _ => (s, none)

/-- `sb->ops->lookup` -/
def fsLookup (s : State) (dir : ℕ) (rel : List Char) : State × Option ℕ :=
  match (s.table i).fsType with
  | .ramfs => (s, ramfsWalk s dir (components rel))
  | .fat32 => fat32Lookup w m i s dir rel
  | .axiomefs => axfsLookup w m i s dir rel
  | .proc => procLookup w m i s dir rel
  | .dev => devLookup w m i s dir rel

end Lookup

/-! ### Access -/

def Vnode.ref (v : Vnode) : Vnode := { v with refcount := (v.refcount + 1) % 2 ^ 32 }

def Vnode.unref (v : Vnode) : Vnode := { v with refcount := v.refcount - 1 }

/-- `vfs_lookup` in the mount that was found. -/
def lookupIn (s : State) (w : World) (m : Mem) (i : ℕ) (rel : List Char) : State × Option ℕ :=
  match (s.table i).root with
  | none => (s, none)
  | some r => if rel = [] then (s, some r) else fsLookup w m i s r rel

def vfsLookup (s : State) (w : World) (m : Mem) (path cwd : List Char) : State × Option ℕ :=
  let abs := absolutize path cwd
  match mountFind s abs with
  | none => (s, none)
  | some i =>
    match lookupIn s w m i (relative s i abs) with
    | (s, none) => (s, none)
    | (s, some n) => (s.modifyVnode n Vnode.ref, some n)

/-- The `inode_free` of the file system that the superblock of the vnode names. -/
def inodeFree (s : State) (sb n : ℕ) : State :=
  match (s.table sb).fsType with
  | .ramfs => s
  | .fat32 | .axiomefs => if (s.table sb).root = some n then s else s.freeVnode n
  | .proc | .dev => (s.freeObj (s.vnode n).priv.ptr).freeVnode n

def vfsRelease (s : State) (n : ℕ) : State :=
  let s := s.modifyVnode n Vnode.unref
  match (s.vnode n).sb with
  | none => s
  | some sb => if (s.vnode n).refcount = 0 then inodeFree s sb n else s

/-- The calls on paths and vnodes.  A lookup puts the vnode into a free place of the descriptor
table of a thread, and a release takes it out; `vfs_list` keeps its reference. -/
inductive Access
  | lookup (t : ℕ) (k : Fin 32) (path cwd : List Char) (w : World) (m : Mem)
  | list (path cwd : List Char) (w : World) (m : Mem)
  | release (t : ℕ) (k : Fin 32)

def access (s : State) : Access → State
  | .lookup t k path cwd w m =>
    if (s.fds t k).isSome then s
    else
      match vfsLookup s w m path cwd with
      | (s, none) => s
      | (s, some n) => s.setFd t k (some n)
  | .list path cwd w m => (vfsLookup s w m path cwd).1
  | .release t k =>
    match s.fds t k with
    | none => s
    | some n => vfsRelease (s.setFd t k none) n

/-! ### Mounting and unmounting -/

/-- `vfs_mount`, where there is room in the table. -/
def State.enter (s : State) (mp : List Char) (fsType : FsType) (priv root : Option ℕ) : State :=
  { s with
    table := update s.table s.nmounts ⟨mp.take maxName, fsType, priv, root, s.nextId⟩
    nmounts := s.nmounts + 1
    nextId := s.nextId + 1 }

/-- The root of the mount that is entered next. -/
def State.rootVnode (s : State) (name : List Char) (type : VType) (priv : Priv) : Vnode where
  name := name
  type := type
  sb := some s.nmounts
  priv := priv
  refcount := 0
  children := []
  parent := none
  fs := s.nextId

def vfsMountRamfs (s : State) (mp : List Char) (m : Mem) : State :=
  if mp.head? ≠ some '/' then s
  else
    match (m.vnode 0).pick s.vnodes with
    | none => s
    | some r =>
      if maxMounts ≤ s.nmounts then s
      else (s.newVnode r (s.rootVnode ['/'] .dir .null)).enter mp .ramfs none (some r)

/-- `procfs_init` and `devfs_init` -/
def mountVirtual (s : State) (mp : List Char) (fsType : FsType) (priv : ℕ → Priv) (m : Mem) :
    State :=
  match (m.vnode 0).pick s.vnodes, (m.obj 0).pick s.objs with
  | some r, some p =>
    if maxMounts ≤ s.nmounts then s
    else ((s.newObj p).newVnode r (s.rootVnode ['/'] .dir (priv p))).enter mp fsType none (some r)
  | _, _ => s

def procfsInit (s : State) (m : Mem) : State :=
  mountVirtual s processPath .proc (fun p => .proc p ⟨.root, 0⟩) m

def devfsInit (s : State) (m : Mem) : State :=
  mountVirtual s devicesPath .dev (fun p => .dev p none) m

/-- `fat32_try_mount` and `axiomefs_mount_part`, for a volume whose first block is what it should
be.  Without memory for the root the state of the volume is freed, and the entry of the table
stays. -/
def mountVolume (s : State) (mp : List Char) (fsType : FsType) (root : Vnode) (m : Mem) : State :=
  match (m.obj 0).pick s.objs with
  | none => s
  | some st =>
    if maxMounts ≤ s.nmounts then s
    else
      match (m.vnode 0).pick s.vnodes with
      | none => s.enter mp fsType (some st) none
      | some r => ((s.newObj st).newVnode r root).enter mp fsType (some st) (some r)

def fat32TryMount (s : State) (mp : List Char) (rootClus : ℕ) (m : Mem) : State :=
  mountVolume s mp .fat32 (s.rootVnode ['/'] .dir (.cluster rootClus)) m

def axiomefsMountPart (s : State) (mp : List Char) (rootInode : ℕ) (isDir : Bool) (m : Mem) :
    State :=
  mountVolume s mp .axiomefs
    (s.rootVnode [] (if isDir then .dir else .file) (.inode rootInode)) m

/-- Free the tree below a root.  The first argument bounds its depth. -/
def ramfsDestroy : ℕ → State → ℕ → State
  | 0, s, _ => s
  | depth + 1, s, n => ((s.vnode n).children.foldl (ramfsDestroy depth) s).freeVnode n

/-- The thread has a descriptor into the mount. -/
def busy (s : State) (t sb : ℕ) : Prop :=
  ∃ k : Fin 32, ∃ n ∈ s.fds t k, (s.vnode n).sb = some sb

instance (s : State) (t sb : ℕ) : Decidable (busy s t sb) := by
  unfold busy
  infer_instance

/-- What `vfs_umount` frees. -/
def destroy (s : State) (i : ℕ) : State :=
  match (s.table i).fsType, (s.table i).root with
  | .ramfs, some r => ramfsDestroy (s.vnodes.card + 1) s r
  | .fat32, some r => (s.freeObj (s.table i).priv).freeVnode r
  | .fat32, none => s.freeObj (s.table i).priv
  | _, _ => s

/-- Close the gap in the table. -/
def State.compact (s : State) (i : ℕ) : State :=
  { s with
    table := fun j => if i ≤ j ∧ j + 1 < s.nmounts then s.table (j + 1) else s.table j
    nmounts := s.nmounts - 1 }

/-- The mount that `vfs_umount` finds. -/
def umountFind (s : State) (mp : List Char) : Option ℕ :=
  (List.range s.nmounts).find? fun i => (s.table i).mountpoint = mp

/-- `vfs_umount`, by the thread `t`. -/
def vfsUmount (s : State) (t : ℕ) (mp : List Char) : State :=
  match umountFind s mp with
  | none => s
  | some i => if i = gRamfsSb ∨ busy s t i then s else (destroy s i).compact i

end AxiomeOS.Mounts
