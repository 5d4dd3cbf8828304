import AxiomeOS.Lib.Alloc
import AxiomeOS.Lib.Tally
import Mathlib.Algebra.GroupWithZero.Nat

/-!
# Descriptors, pipes and the ramfs tree

A model of the descriptor tables of all threads, of the pipes and FIFOs behind them, and of the
ramfs trees: `sys_open`, `sys_close`, `sys_dup2`, `sys_pipe`, `sys_read`, `sys_write`, `sys_pwrite`,
`sys_lseek`, `sys_unlink`, `sys_rmdir`, `sys_mkdir`, `sys_mkfifo`, and `sys_mount` and `sys_umount`
of a ramfs in `syscall.c`, the inheriting and the closing of a table in `sched.c`, and the ramfs
operations of `vfs.c`.

Vnodes, data buffers and pipes stand in heaps; for each kind the state keeps the set of what is
allocated, and an allocator may give any address that is free, also one that was freed before.
A path is given as the root of the ramfs it lies in and the rest of the path: aliases, the working
directory and the mount table are left out.  So is the lookup of the parent directory for the
permission check of `vfs_create` and `vfs_remove`, which takes a reference and gives it back.  What
the permission checks decide is an argument (`Access`), and so is what the allocators return
(`Mem`).

Of the other file systems only the vnodes of their open files are modelled: each is allocated by the
lookup and freed with its last reference, and what reading or writing it returns is an argument.

Each call is one step: an exit after a wait runs `thread_close_fds` with interrupts on, and is taken
not to be switched away from there.  `Call.other` leaves out that `stat` or `chdir` of a mount can
free its cached root (`Vfs.Roots`).
-/

namespace AxiomeOS.Vfs

open Tally Function

scoped instance fds_ne : NeZero 32 := ⟨by decide⟩

/-! ### State -/

inductive VType
  | file
  | dir
  | pipeR
  | pipeW
  | fifo
deriving DecidableEq, Repr

/-- An inode.  `foreign` says that its superblock is not that of a ramfs, `priv` is the pipe of a
FIFO or of the end of a pipe. -/
structure Vnode where
  name : List Char
  type : VType
  size : ℕ
  foreign : Bool
  priv : Option ℕ
  refcount : ℕ
  data : Option ℕ
  cap : ℕ
  children : List ℕ
  capChildren : ℕ
  parent : Option ℕ

structure Pipe where
  content : List UInt8
  cap : ℕ
  nreaders : ℤ
  nwriters : ℤ
  waitReader : Option ℕ
  shared : Bool
  dead : Bool

inductive FdKind
  | free
  | ttyIn
  | consoleOut
  | vnode
  | pipe
deriving DecidableEq, Repr

structure OpenFlags where
  wronly : Bool
  rdwr : Bool
  creat : Bool
  trunc : Bool
  append : Bool

structure File where
  used : Bool
  kind : FdKind
  node : Option ℕ
  off : ℕ
  flags : OpenFlags

/-- The files of the system.  `live`, `bufs` and `pipes` are the vnodes, data buffers and pipes
that are allocated, `threads` the threads that have not exited, `roots` the roots of the ramfs
mounts and `gRoot` that of the one mounted at boot. -/
structure Files where
  vnode : ℕ → Vnode
  live : Finset ℕ
  bytes : ℕ → ℕ → UInt8
  bufs : Finset ℕ
  pipe : ℕ → Pipe
  pipes : Finset ℕ
  threads : Finset ℕ
  fds : ℕ → Fin 32 → File
  roots : Finset ℕ
  gRoot : ℕ

/-- What the allocators give during a call: `grow` is the larger array of children of a directory,
`pipeBuf` the buffer of a pipe, or the larger one it needs. -/
structure Mem where
  vnode : Alloc
  buf : Alloc
  pipe : Alloc
  pipeBuf : Bool
  grow : Bool

/-- What the checks decide about the caller: the mode bits of the vnode, the capabilities to write,
and `vfs_gate_write_file` for the directory.  `count` is what another file system returns from a
read or a write. -/
structure Access where
  mayRead : Bool
  mayWrite : Bool
  caps : Bool
  gate : Bool
  count : ℕ

def maxName : ℕ := 255

def eperm : ℤ := 1
def enoent : ℤ := 2
def eio : ℤ := 5
def ebadf : ℤ := 9
def enomem : ℤ := 12
def eacces : ℤ := 13
def eexist : ℤ := 17
def enotdir : ℤ := 20
def eisdir : ℤ := 21
def einval : ℤ := 22
def espipe : ℤ := 29
def enotempty : ℤ := 39

def Files.modifyVnode (s : Files) (n : ℕ) (f : Vnode → Vnode) : Files :=
  { s with vnode := update s.vnode n (f (s.vnode n)) }

def Files.modifyPipe (s : Files) (p : ℕ) (f : Pipe → Pipe) : Files :=
  { s with pipe := update s.pipe p (f (s.pipe p)) }

def Files.setFd (s : Files) (t : ℕ) (i : Fin 32) (f : File) : Files :=
  { s with fds := setEntry s.fds t i f }

/-! ### Vnodes -/

def Vnode.ref (v : Vnode) : Vnode := { v with refcount := v.refcount + 1 }

def Vnode.unref (v : Vnode) : Vnode := { v with refcount := v.refcount - 1 }

/-- A vnode fresh from `kmalloc` and `memset`. -/
def Vnode.blank (name : List Char) (type : VType) : Vnode where
  name := name.take maxName
  type := type
  size := 0
  foreign := false
  priv := none
  refcount := 0
  data := none
  cap := 0
  children := []
  capChildren := 0
  parent := none

/-- One end of a pipe. -/
def Vnode.pipeEnd (type : VType) (p : ℕ) : Vnode :=
  { Vnode.blank [] type with priv := some p, refcount := 1 }

def Files.newVnode (s : Files) (n : ℕ) (v : Vnode) : Files :=
  { s with vnode := update s.vnode n v, live := insert n s.live }

def Files.freeVnode (s : Files) (n : ℕ) : Files := { s with live := s.live.erase n }

def Files.newPipe (s : Files) (p : ℕ) (x : Pipe) : Files :=
  { s with pipe := update s.pipe p x, pipes := insert p s.pipes }

def Files.freePipe (s : Files) (p : ℕ) : Files := { s with pipes := s.pipes.erase p }

def Files.freeBuf (s : Files) : Option ℕ → Files
  | none => s
  | some b => { s with bufs := s.bufs.erase b }

/-- Give up a reference.  With the last one the vnode of another file system is freed; the ramfs
keeps its vnodes. -/
def vfsRelease (s : Files) (n : ℕ) : Files :=
  let s := s.modifyVnode n Vnode.unref
  if (s.vnode n).refcount = 0 ∧ (s.vnode n).foreign = true then s.freeVnode n else s

/-! ### The ramfs tree -/

def ramfsFindChild (s : Files) (dir : ℕ) (name : List Char) : Option ℕ :=
  (s.vnode dir).children.find? fun c => (s.vnode c).name = name

/-- The components of a path between its slashes. -/
def components (path : List Char) : List (List Char) := (path.splitOn '/').filter (· ≠ [])

/-- Follow the components of a path from `cur`. -/
def ramfsWalk (s : Files) : ℕ → List (List Char) → Option ℕ
  | cur, [] => some cur
  | cur, seg :: rest =>
    if seg = ['.'] then ramfsWalk s cur rest
    else if seg = ['.', '.'] then ramfsWalk s ((s.vnode cur).parent.getD cur) rest
    else if (s.vnode cur).type ≠ .dir then none
    else
      match ramfsFindChild s cur (seg.take maxName) with
      | none => none
      | some c => ramfsWalk s c rest

/-- Resolve a path and take a reference to what it names. -/
def vfsLookup (s : Files) (root : ℕ) (rel : List Char) : Files × Option ℕ :=
  if root ∈ s.roots then
    match ramfsWalk s root (components rel) with
    | none => (s, none)
    | some n => (s.modifyVnode n Vnode.ref, some n)
  else (s, none)

/-- What stands behind the last slash of a path. -/
def basename (rel : List Char) : List Char := (rel.reverse.takeWhile (· ≠ '/')).reverse

/-- What stands before it. -/
def dirname (rel : List Char) : List Char :=
  ((rel.reverse.dropWhile (· ≠ '/')).tail.reverse).take maxName

/-- Hang `child` into the directory.  If there is no memory for a larger array of children the
new vnode is left unlinked. -/
def ramfsAddChild (s : Files) (parent child : ℕ) (m : Mem) : Files :=
  let v := s.vnode parent
  if v.capChildren ≤ v.children.length ∧ m.grow = false then s
  else
    let cap :=
      if v.capChildren ≤ v.children.length then
        if v.capChildren = 0 then 4 else v.capChildren * 2
      else v.capChildren
    (s.modifyVnode child fun c => { c with parent := some parent }).modifyVnode parent
      fun d => { d with children := d.children ++ [child], capChildren := cap }

def fifoPipe : Pipe where
  content := []
  cap := 256
  nreaders := 0
  nwriters := 0
  waitReader := none
  shared := true
  dead := false

/-- A vnode of the given type under the path, if there is none. -/
def ramfsCreate (s : Files) (root : ℕ) (rel : List Char) (type : VType) (m : Mem) :
    Files × Bool :=
  match ramfsWalk s root (components (dirname rel)) with
  | none => (s, false)
  | some parent =>
    if (s.vnode parent).type ≠ .dir then (s, false)
    else if (ramfsFindChild s parent (basename rel)).isSome then (s, false)
    else
      match m.vnode.pick s.live with
      | none => (s, false)
      | some n =>
        if type = .fifo then
          match m.pipe.pick s.pipes with
          | none => (s, false)
          | some p =>
            if m.pipeBuf then
              let v := { Vnode.blank (basename rel) type with priv := some p }
              (ramfsAddChild ((s.newVnode n v).newPipe p fifoPipe) parent n m, true)
            else (s, false)
        else (ramfsAddChild (s.newVnode n (Vnode.blank (basename rel) type)) parent n m, true)

/-- Take the pipe of a FIFO away from its vnode: it is freed, or, while it is still open, left to
the last descriptor. -/
def dropFifo (s : Files) (n : ℕ) : Files :=
  match (s.vnode n).type, (s.vnode n).priv with
  | .fifo, some p =>
    let s :=
      if (s.pipe p).nreaders = 0 ∧ (s.pipe p).nwriters = 0 then s.freePipe p
      else s.modifyPipe p fun x => { x with dead := true }
    s.modifyVnode n fun v => { v with priv := none }
  | _, _ => s

/-- The vnode that `ramfs_remove` would remove, and its directory. -/
def removeTarget (s : Files) (root : ℕ) (rel : List Char) : Option (ℕ × ℕ) :=
  match ramfsWalk s root (components (dirname rel)) with
  | none => none
  | some parent =>
    match ramfsFindChild s parent (basename rel) with
    | none => none
    | some n =>
      if n = s.gRoot then none
      else if (s.vnode n).type = .dir ∧ (s.vnode n).children ≠ [] then none
      else some (parent, n)

/-- Remove a file or an empty directory. -/
def ramfsRemove (s : Files) (root : ℕ) (rel : List Char) : Files × Bool :=
  match removeTarget s root rel with
  | none => (s, false)
  | some (parent, n) =>
    let s := s.modifyVnode parent fun d => { d with children := d.children.erase n }
    let s := dropFifo s n
    ((s.freeBuf (s.vnode n).data).freeVnode n, true)

/-- Free the tree below a root.  The first argument bounds its depth. -/
def ramfsDestroy : ℕ → Files → ℕ → Files
  | 0, s, _ => s
  | depth + 1, s, n =>
    let s := (s.vnode n).children.foldl (ramfsDestroy depth) s
    (s.freeBuf (s.vnode n).data).freeVnode n

def vfsCreate (s : Files) (root : ℕ) (rel : List Char) (type : VType) (a : Access) (m : Mem) :
    Files × Bool :=
  if a.gate = true ∧ root ∈ s.roots then ramfsCreate s root rel type m else (s, false)

def vfsRemove (s : Files) (root : ℕ) (rel : List Char) (a : Access) : Files × Bool :=
  if a.gate = true ∧ root ∈ s.roots then ramfsRemove s root rel else (s, false)

def vfsMountRamfs (s : Files) (m : Mem) : Files :=
  match m.vnode.pick s.live with
  | none => s
  | some n => { s.newVnode n (Vnode.blank ['/'] .dir) with roots := insert n s.roots }

/-- Unmount a ramfs.  The check that the caller has no descriptor into it is left to the caller of
this function: it compares superblocks, which the model does not have. -/
def vfsUmount (s : Files) (root : ℕ) : Files :=
  if root ∈ s.roots ∧ root ≠ s.gRoot then
    let s := ramfsDestroy (s.live.card + 1) s root
    { s with roots := s.roots.erase root }
  else s

/-! ### File contents -/

/-- Double the capacity until it is enough. -/
def growCap (need : ℕ) : ℕ → ℕ → ℕ
  | 0, cap => cap
  | fuel + 1, cap => if cap < need then growCap need fuel (cap * 2) else cap

/-- Make room for `need` bytes. -/
def ramfsEnsureCap (s : Files) (n need : ℕ) (m : Mem) : Option Files :=
  let v := s.vnode n
  if need ≤ v.cap then some s
  else
    match m.buf.pick s.bufs with
    | none => none
    | some b =>
      let old := fun j => if j < v.size then (v.data.map fun d => s.bytes d j).getD 0 else 0
      let s₁ := { s with bufs := insert b s.bufs, bytes := update s.bytes b old }
      some ((s₁.freeBuf v.data).modifyVnode n fun v =>
        { v with data := some b, cap := growCap need need (if v.cap = 0 then 64 else v.cap) })

def ramfsWrite (s : Files) (n off : ℕ) (bytes : List UInt8) (m : Mem) : Files × ℕ :=
  if (s.vnode n).type ≠ .file then (s, 0)
  else
    match ramfsEnsureCap s n (off + bytes.length) m with
    | none => (s, 0)
    | some s =>
      let write := fun (old : ℕ → UInt8) j =>
        if off ≤ j ∧ j < off + bytes.length then bytes.getD (j - off) 0 else old j
      let s₁ :=
        match (s.vnode n).data with
        | none => s
        | some b => { s with bytes := update s.bytes b (write (s.bytes b)) }
      (s₁.modifyVnode n fun v => { v with size := max v.size (off + bytes.length) }, bytes.length)

def ramfsRead (s : Files) (n off len : ℕ) : List UInt8 :=
  let v := s.vnode n
  if v.type ≠ .file then []
  else
    (List.range (min len (v.size - off))).map fun j =>
      (v.data.map fun d => s.bytes d (off + j)).getD 0

/-- `O_TRUNC`. -/
def truncate (s : Files) (n : ℕ) : Files :=
  (s.freeBuf (s.vnode n).data).modifyVnode n fun v => { v with data := none, size := 0, cap := 0 }

/-! ### Descriptors -/

/-- The entry for one of the three standard descriptors. -/
def File.std (kind : FdKind) (f : File) : File :=
  { f with used := true, kind := kind, node := none, off := 0 }

/-- An entry that has been closed. -/
def File.closed (f : File) : File := { f with used := false, kind := .free, node := none, off := 0 }

/-- Called at the beginning of the system calls on files: if one of the descriptors 0, 1 and 2 is
not in use, all three are set up. -/
def vfsEnsureProc (s : Files) (t : ℕ) : Files :=
  if (s.fds t 0).used && (s.fds t 1).used && (s.fds t 2).used then s
  else
    let s := s.setFd t 0 ((s.fds t 0).std .ttyIn)
    let s := s.setFd t 1 ((s.fds t 1).std .consoleOut)
    s.setFd t 2 ((s.fds t 2).std .consoleOut)

def fdAlloc (s : Files) (t : ℕ) : Option (Fin 32) :=
  (List.finRange 32).find? fun i => !(s.fds t i).used

/-- The number of a descriptor of a table. -/
def toFd (fd : ℤ) : Option (Fin 32) :=
  if h : 0 ≤ fd ∧ fd < 32 then some ⟨fd.toNat, by omega⟩ else none

/-- The number of a descriptor in use. -/
def usedFd (s : Files) (t : ℕ) (fd : ℤ) : Option (Fin 32) :=
  (toFd fd).filter fun i => (s.fds t i).used

/-- Add to the count of readers or writers of the pipe behind an end.  `sys_close` and `sys_dup2`
take every end that is not a reading one for a writing one; there are no others. -/
def addCount (s : Files) (n : ℕ) (d : ℤ) : Files :=
  match (s.vnode n).type, (s.vnode n).priv with
  | .pipeR, some p => s.modifyPipe p fun x => { x with nreaders := x.nreaders + d }
  | .pipeW, some p => s.modifyPipe p fun x => { x with nwriters := x.nwriters + d }
  | _, _ => s

/-- Count the descriptor that a table has got a copy of. -/
def threadRefFd (s : Files) (f : File) : Files :=
  if f.used then
    match f.kind, f.node with
    | .vnode, some n => s.modifyVnode n Vnode.ref
    | .pipe, some n => (addCount s n 1).modifyVnode n Vnode.ref
    | _, _ => s
  else s

/-- Copy a descriptor into an entry of a table. -/
def copyFd (s : Files) (f : File) (t : ℕ) (i : Fin 32) : Files := threadRefFd (s.setFd t i f) f

/-- Wake the reader that waits for the pipe. -/
def Pipe.wake (p : Pipe) : Pipe := { p with waitReader := none }

/-- Whether nothing is left that could use the pipe: a pipe without a FIFO goes with its last
descriptor, that of a FIFO only when the FIFO has been removed. -/
def Pipe.unused (p : Pipe) : Bool := p.nreaders = 0 && p.nwriters = 0 && (!p.shared || p.dead)

/-- Give up one reference to the end of a pipe.  A reader that waits is woken, but not that of a
FIFO. -/
def dropEnd (s : Files) (n : ℕ) : Files :=
  let priv := (s.vnode n).priv
  let s := (addCount s n (-1)).modifyVnode n Vnode.unref
  let s := if (s.vnode n).refcount = 0 then s.freeVnode n else s
  match priv with
  | none => s
  | some p =>
    if (s.pipe p).unused then s.freePipe p
    else if (s.pipe p).shared then s
    else s.modifyPipe p Pipe.wake

/-- Close an entry of a table. -/
def closeEntry (s : Files) (t : ℕ) (i : Fin 32) : Files :=
  let f := s.fds t i
  let s :=
    match f.kind, f.node with
    | .pipe, some n => dropEnd s n
    | .vnode, some n => vfsRelease s n
    | _, _ => s
  s.setFd t i f.closed

def sysClose (s : Files) (t : ℕ) (fd : ℤ) : Files × ℤ :=
  let s := vfsEnsureProc s t
  match usedFd s t fd with
  | none => (s, -1)
  | some i => (closeEntry s t i, 0)

def sysDup2 (s : Files) (t : ℕ) (oldfd newfd : ℤ) : Files × ℤ :=
  let s := vfsEnsureProc s t
  match usedFd s t oldfd, toFd newfd with
  | some i, some j =>
    if i = j then (s, newfd)
    else
      let s := if (s.fds t j).used then (sysClose s t newfd).1 else s
      (copyFd s (s.fds t i) t j, newfd)
  | _, _ => (s, -1)

def newPipe : Pipe where
  content := []
  cap := 256
  nreaders := 1
  nwriters := 1
  waitReader := none
  shared := false
  dead := false

/-- The entry for an end of a pipe. -/
def File.pipeEnd (n : ℕ) (f : File) : File :=
  { f with used := true, kind := .pipe, node := some n, off := 0 }

/-- A pipe with both its ends in the caller's table.  When something is missing, what has been
allocated is given back. -/
def sysPipe (s : Files) (t : ℕ) (m : Mem) : Files × ℤ :=
  let s := vfsEnsureProc s t
  match m.pipe.pick s.pipes, m.vnode.pick s.live with
  | some p, some r =>
    match m.vnode.pick (insert r s.live), fdAlloc s t with
    | some w, some i =>
      match fdAlloc (s.setFd t i { s.fds t i with used := true }) t with
      | some j =>
        if m.pipeBuf then
          let s := s.newPipe p newPipe
          let s := (s.newVnode r (Vnode.pipeEnd .pipeR p)).newVnode w (Vnode.pipeEnd .pipeW p)
          let s := s.setFd t i ((s.fds t i).pipeEnd r)
          (s.setFd t j ((s.fds t j).pipeEnd w), 0)
        else (s, -1)
      | none => (s, -1)
    | _, _ => (s, -1)
  | _, _ => (s, -1)

/-! ### Opening and removing -/

/-- Put an opened file into the caller's table. -/
def installFile (s : Files) (t n : ℕ) (flags : OpenFlags) : Files × ℤ :=
  match fdAlloc s t with
  | none => (vfsRelease s n, -enomem)
  | some i =>
    (s.setFd t i
      { used := true, kind := .vnode, node := some n
        off := if flags.append then (s.vnode n).size else 0, flags := flags }, i)

/-- Open one end of a FIFO. -/
def openFifo (s : Files) (t n : ℕ) (flags : OpenFlags) (m : Mem) : Files × ℤ :=
  match (s.vnode n).priv with
  | none => (vfsRelease s n, -ebadf)
  | some p =>
    match m.vnode.pick s.live with
    | none => (vfsRelease s n, -enomem)
    | some e =>
      match fdAlloc s t with
      | none => (vfsRelease s n, -enomem)
      | some i =>
        let type := if flags.wronly then VType.pipeW else .pipeR
        let s := s.newVnode e (Vnode.pipeEnd type p)
        let s := vfsRelease (addCount s e 1) n
        (s.setFd t i { used := true, kind := .pipe, node := some e, off := 0, flags := flags }, i)

/-- Open a file of another file system, once the lookup and the checks have succeeded. -/
def openForeign (s : Files) (t : ℕ) (name : List Char) (size : ℕ) (flags : OpenFlags) (m : Mem) :
    Files × ℤ :=
  let s := vfsEnsureProc s t
  match m.vnode.pick s.live with
  | none => (s, -enoent)
  | some n =>
    let v := { Vnode.blank name .file with
      foreign := true, refcount := 1, size := if flags.trunc then 0 else size }
    installFile (s.newVnode n v) t n flags

def sysOpen (s : Files) (t root : ℕ) (rel : List Char) (flags : OpenFlags) (a : Access) (m : Mem) :
    Files × ℤ :=
  match vfsLookup (vfsEnsureProc s t) root rel with
  | (s, some n) =>
    if (s.vnode n).type = .fifo then openFifo s t n flags m
    else if (s.vnode n).type = .dir then (vfsRelease s n, -eisdir)
    else if !flags.wronly && !a.mayRead then (vfsRelease s n, -eacces)
    else if (flags.wronly || flags.rdwr) && !a.mayWrite then (vfsRelease s n, -eacces)
    else installFile (if flags.trunc then truncate s n else s) t n flags
  | (s, none) =>
    if flags.creat then
      match vfsCreate s root rel .file a m with
      | (s, false) => (s, -eacces)
      | (s, true) =>
        match vfsLookup s root rel with
        | (s, none) => (s, -eio)
        | (s, some n) => installFile s t n flags
    else (s, -enoent)

def sysMknod (type : VType) (s : Files) (t root : ℕ) (rel : List Char) (a : Access) (m : Mem) :
    Files × ℤ :=
  match vfsLookup (vfsEnsureProc s t) root rel with
  | (s, some n) => (vfsRelease s n, -eexist)
  | (s, none) =>
    match vfsCreate s root rel type a m with
    | (s, true) => (s, 0)
    | (s, false) => (s, -eacces)

def sysMkdir : Files → ℕ → ℕ → List Char → Access → Mem → Files × ℤ := sysMknod .dir

def sysMkfifo : Files → ℕ → ℕ → List Char → Access → Mem → Files × ℤ := sysMknod .fifo

def sysUnlink (s : Files) (t root : ℕ) (rel : List Char) (a : Access) : Files × ℤ :=
  match vfsLookup (vfsEnsureProc s t) root rel with
  | (s, none) => (s, -enoent)
  | (s, some n) =>
    let s := vfsRelease s n
    if (s.vnode n).type = .dir then (s, -eisdir)
    else
      match vfsRemove s root rel a with
      | (s, true) => (s, 0)
      | (s, false) => (s, -eacces)

/-- `vfs_list` takes a reference to the directory and does not give it back. -/
def sysRmdir (s : Files) (t root : ℕ) (rel : List Char) (a : Access) : Files × ℤ :=
  match vfsLookup (vfsEnsureProc s t) root rel with
  | (s, none) => (s, -enoent)
  | (s, some n) =>
    if (s.vnode n).type ≠ .dir then (vfsRelease s n, -enotdir)
    else
      let s := vfsRelease (s.modifyVnode n Vnode.ref) n
      if (s.vnode n).children.any fun c =>
          (s.vnode c).name ≠ ['.'] && (s.vnode c).name ≠ ['.', '.'] then (s, -enotempty)
      else
        match vfsRemove s root rel a with
        | (s, true) => (s, 0)
        | (s, false) => (s, -eacces)

/-! ### Reading and writing -/

/-- What a read returns: an error, the bytes, how many of them came from another file system, or
nothing yet. -/
inductive ReadResult
  | error (e : ℤ)
  | bytes (b : List UInt8)
  | foreign (count : ℕ)
  | blocked

/-- A read from the terminal is left out: it does not touch the table.  A read that has to wait
goes on from where it stopped when it is made again. -/
def sysRead (s : Files) (t : ℕ) (fd : ℤ) (len : ℕ) (a : Access) : Files × ReadResult :=
  let s := vfsEnsureProc s t
  match usedFd s t fd with
  | none => (s, .error (-1))
  | some i =>
    let f := s.fds t i
    match f.kind, f.node with
    | .pipe, some n =>
      match (s.vnode n).type, (s.vnode n).priv with
      | .pipeR, some p =>
        if (s.pipe p).content = [] then
          if (s.pipe p).nwriters = 0 then (s, .bytes [])
          else (s.modifyPipe p fun x => { x with waitReader := some t }, .blocked)
        else
          (s.modifyPipe p fun x => { x with content := x.content.drop len },
            .bytes ((s.pipe p).content.take len))
      | _, _ => (s, .error (-1))
    | .vnode, some n =>
      if a.mayRead = false then (s, .error (-eacces))
      else if (s.vnode n).foreign then
        (s.setFd t i { f with off := f.off + a.count }, .foreign a.count)
      else
        let b := ramfsRead s n f.off len
        (s.setFd t i { f with off := f.off + b.length }, .bytes b)
    | .ttyIn, _ => (s, .blocked)
    | _, _ => (s, .error (-1))

/-- Write into a vnode; a negative result is an error. -/
def vfsWrite (s : Files) (n off : ℕ) (bytes : List UInt8) (a : Access) (m : Mem) : Files × ℤ :=
  if a.caps = false then (s, -eperm)
  else if (s.vnode n).type = .file ∧ a.mayWrite = false then (s, -eacces)
  else if (s.vnode n).foreign then (s, a.count)
  else
    let (s, w) := ramfsWrite s n off bytes m
    (s, w)

/-- Append to a pipe, whose buffer is made larger if the bytes do not fit. -/
def sysWritePipe (s : Files) (n : ℕ) (bytes : List UInt8) (m : Mem) : Files × ℤ :=
  match (s.vnode n).type, (s.vnode n).priv with
  | .pipeW, some p =>
    let need := (s.pipe p).content.length + bytes.length
    if (s.pipe p).cap < need ∧ m.pipeBuf = false then (s, 0)
    else
      let cap := if (s.pipe p).cap = 0 then 256 else (s.pipe p).cap
      (s.modifyPipe p fun x =>
        { x with
          content := x.content ++ bytes
          cap := if x.cap < need then growCap need need cap else x.cap
          waitReader := none }, bytes.length)
  | _, _ => (s, -1)

def sysWrite (s : Files) (t : ℕ) (fd : ℤ) (bytes : List UInt8) (a : Access) (m : Mem) : Files × ℤ :=
  let s := vfsEnsureProc s t
  match usedFd s t fd with
  | none => (s, -1)
  | some i =>
    let f := s.fds t i
    match f.kind, f.node with
    | .consoleOut, _ => (s, bytes.length)
    | .pipe, some n => sysWritePipe s n bytes m
    | .vnode, some n =>
      let off := if f.flags.append then (s.vnode n).size else f.off
      let (s, w) := vfsWrite s n off bytes a m
      (s.setFd t i { f with off := off + w.toNat }, w)
    | _, _ => (s, -1)

def sysPwrite (s : Files) (t : ℕ) (fd : ℤ) (bytes : List UInt8) (off : ℕ) (a : Access) (m : Mem) :
    Files × ℤ :=
  let s := vfsEnsureProc s t
  match usedFd s t fd with
  | none => (s, -ebadf)
  | some i =>
    match (s.fds t i).kind, (s.fds t i).node with
    | .vnode, some n => vfsWrite s n off bytes a m
    | _, _ => (s, -espipe)

inductive Whence
  | set
  | cur
  | fromEnd

def sysLseek (s : Files) (t : ℕ) (fd offset : ℤ) (whence : Whence) : Files × ℤ :=
  let s := vfsEnsureProc s t
  match usedFd s t fd with
  | none => (s, -ebadf)
  | some i =>
    let f := s.fds t i
    match f.kind, f.node with
    | .vnode, some n =>
      let base : ℤ :=
        match whence with
        | .set => 0
        | .cur => f.off
        | .fromEnd => (s.vnode n).size
      if base + offset < 0 then (s, -einval)
      else (s.setFd t i { f with off := (base + offset).toNat }, base + offset)
    | _, _ => (s, -espipe)

/-! ### Threads -/

/-- A new thread with an empty table. -/
def threadInitVfs (s : Files) (t : ℕ) : Files :=
  { s with
    threads := insert t s.threads
    fds := update s.fds t fun i => (s.fds t i).closed }

def threadInheritVfs (s : Files) (t parent : ℕ) : Files :=
  (List.finRange 32).foldl (fun s i => copyFd s (s.fds parent i) t i) s

/-- The descriptors of a thread that `parent` starts by `fork` or `spawn`. -/
def startThread (s : Files) (parent : ℕ) (m : Alloc) : Files :=
  match m.pick s.threads with
  | none => s
  | some t => threadInheritVfs (threadInitVfs s t) t parent

/-- The descriptors of a kernel thread. -/
def startKernelThread (s : Files) (m : Alloc) : Files :=
  match m.pick s.threads with
  | none => s
  | some t => threadInitVfs s t

def threadCloseFds (s : Files) (t : ℕ) : Files :=
  (List.finRange 32).foldl (fun s i => if (s.fds t i).used then closeEntry s t i else s) s

def threadExit (s : Files) (t : ℕ) : Files :=
  let s := threadCloseFds s t
  { s with threads := s.threads.erase t }

/-! ### Runs -/

/-- What a thread can call.  `other` is any call that does not touch a table or a pipe beyond
`vfs_ensure_proc`. -/
inductive Call
  | pipe (m : Mem)
  | dup2 (oldfd newfd : ℤ)
  | close (fd : ℤ)
  | read (fd : ℤ) (len : ℕ) (a : Access)
  | write (fd : ℤ) (bytes : List UInt8) (a : Access) (m : Mem)
  | pwrite (fd : ℤ) (bytes : List UInt8) (off : ℕ) (a : Access) (m : Mem)
  | lseek (fd offset : ℤ) (whence : Whence)
  | openFile (root : ℕ) (rel : List Char) (flags : OpenFlags) (a : Access) (m : Mem)
  | openForeign (name : List Char) (size : ℕ) (flags : OpenFlags) (m : Mem)
  | mkdir (root : ℕ) (rel : List Char) (a : Access) (m : Mem)
  | mkfifo (root : ℕ) (rel : List Char) (a : Access) (m : Mem)
  | unlink (root : ℕ) (rel : List Char) (a : Access)
  | rmdir (root : ℕ) (rel : List Char) (a : Access)
  | mount (m : Mem)
  | umount (root : ℕ)
  | fork (m : Alloc)
  | spawn (m : Alloc)
  | kernelThread (m : Alloc)
  | exit
  | other

/-- One call by the thread `t`. -/
def call (s : Files) (t : ℕ) : Call → Files
  | .pipe m => (sysPipe s t m).1
  | .dup2 oldfd newfd => (sysDup2 s t oldfd newfd).1
  | .close fd => (sysClose s t fd).1
  | .read fd len a => (sysRead s t fd len a).1
  | .write fd bytes a m => (sysWrite s t fd bytes a m).1
  | .pwrite fd bytes off a m => (sysPwrite s t fd bytes off a m).1
  | .lseek fd offset whence => (sysLseek s t fd offset whence).1
  | .openFile root rel flags a m => (sysOpen s t root rel flags a m).1
  | .openForeign name size flags m => (openForeign s t name size flags m).1
  | .mkdir root rel a m => (sysMkdir s t root rel a m).1
  | .mkfifo root rel a m => (sysMkfifo s t root rel a m).1
  | .unlink root rel a => (sysUnlink s t root rel a).1
  | .rmdir root rel a => (sysRmdir s t root rel a).1
  | .mount m => vfsMountRamfs (vfsEnsureProc s t) m
  | .umount root => vfsUmount (vfsEnsureProc s t) root
  | .fork m => startThread s t m
  | .spawn m => startThread s t m
  | .kernelThread m => startKernelThread s m
  | .exit => threadExit s t
  | .other => vfsEnsureProc s t

/-- One step: a thread that has not exited makes a call. -/
def step (s : Files) (c : ℕ × Call) (s' : Files) : Prop := c.1 ∈ s.threads ∧ s' = call s c.1 c.2

/-! ### Boot -/

/-- The root directory alone, and one thread with an empty table. -/
def bareRoot (root t : ℕ) : Files where
  vnode := fun _ => Vnode.blank ['/'] .dir
  live := {root}
  bytes := fun _ _ => 0
  bufs := ∅
  pipe := fun _ => fifoPipe
  pipes := ∅
  threads := {t}
  fds := fun _ _ => ⟨false, .free, none, 0, ⟨false, false, false, false, false⟩⟩
  roots := {root}
  gRoot := root

/-- One entry of the built-in initrd: a directory, or a file with its contents.  The reference that
the lookup takes to write a file is not given back. -/
def addInitrd (m : Mem) (s : Files) (e : List Char × Option (List UInt8)) : Files :=
  match e.2 with
  | none => (ramfsCreate s s.gRoot e.1 .dir m).1
  | some bytes =>
    match ramfsCreate s s.gRoot e.1 .file m with
    | (s, false) => s
    | (s, true) =>
      match vfsLookup s s.gRoot e.1 with
      | (s, none) => s
      | (s, some n) => (ramfsWrite s n 0 bytes m).1

def ascii (text : String) : List UInt8 := text.toList.map fun c => UInt8.ofNat c.toNat

def initrd : List (List Char × Option (List UInt8)) :=
  [ ("readme.txt".toList, some (ascii
      "axiomeOS in-memory filesystem (ramfs).\nTry: ls, cat readme.txt, mkdir tmp, echo hi > tmp/a.txt\n")),
    ("welcome.txt".toList, some (ascii "Welcome to axiomeOS Phase 10 (VFS).\n")),
    ("docs".toList, none),
    ("docs/notes.txt".toList, some (ascii
      "Phase 10 brings a minimal Unix-like VFS over a ramfs.\n")) ]

/-- `vfs_init`, with the first thread's table; `ms i` is the memory there is for the entry `i` of
the initrd. -/
def vfsInit (root t : ℕ) (ms : ℕ → Mem) : Files :=
  initrd.zipIdx.foldl (fun s e => addInitrd (ms e.2) s e.1) (bareRoot root t)

end AxiomeOS.Vfs
