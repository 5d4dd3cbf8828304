import AxiomeOS.Axfs.Create
import AxiomeOS.Axfs.Limits
import AxiomeOS.Security.Perms
import AxiomeOS.Vfs.Mounts

/-!
# Creating below a regular file

`vfs_create` resolves the path, asks the permission gate about the parent, and hands the rest of the
path below the mount point to the file system.  `axfs_create` takes whatever inode
`axfs_parent_dir` leads to for a directory: if that is a regular file, the new entry is written
into the bytes of the file.

`create_below_file_iff` says when the call fails, and leaves the file alone: exactly if the gate
refuses, or `axfs_parent_dir` finds nothing.  For a path `f/x` the latter needs a path of more than
255 bytes (`BelowFile.needs`).
-/

namespace AxiomeOS.Axfs

open Security
open Mounts (FsType absolutize mountFind relative aliasApplies)

variable {v : Volume}

/-! ### The gate -/

/-- `/tmp` and `/Temporary`. -/
def tmpPath : List Char := ['/', 't', 'm', 'p']
def temporaryPath : List Char := ['/', 'T', 'e', 'm', 'p', 'o', 'r', 'a', 'r', 'y']

def vfsPathIsUnderTmp (abs : List Char) : Bool :=
  aliasApplies abs tmpPath || aliasApplies abs temporaryPath

/-- `vfs_parent_path`: the path before its last slash, or the root. -/
def vfsParentPath (abs : List Char) : List Char :=
  let parent := ((abs.reverse.dropWhile (· ≠ '/')).drop 1).reverse
  if parent = [] then ['/'] else parent

/-- `vfs_gate_write_file`: the current thread may create or remove in the directory. -/
def vfsGateWriteFile (cur : Option Cred) (abs : List Char) (dir : Option Attr) : Bool :=
  match cur with
  | none => true
  | some t =>
    if t.role = .system then true
    else if t.role = .guest ∧ vfsPathIsUnderTmp abs = false then false
    else if mayUseWrite t = false then false
    else dir.all fun d => vfsCheckPerms cur d vfsMayWrite

/-! ### Volumes in the mount table -/

/-- The mount table, the volume of each axiomefs mount, and the attributes of what the lookups of
the other mounts find. -/
structure Mounted extends Mounts.State where
  volume : ℕ → Volume
  other : ℕ → List Char → Option Attr

def Mounted.setVolume (s : Mounted) (i : ℕ) (v : Volume) : Mounted :=
  { s with volume := Function.update s.volume i v }

/-- The bytes of a C string. -/
def bytes (path : List Char) : List UInt8 := path.map fun c => UInt8.ofNat c.toNat

def Vnode.attr (n : Vnode) : Attr := ⟨n.uid, n.gid, n.mode⟩

/-- `vfs_lookup`, as far as the gate reads what it finds. -/
def vfsLookup (s : Mounted) (path cwd : List Char) : Option Attr :=
  let abs := absolutize path cwd
  match mountFind s.toState abs with
  | none => none
  | some i =>
    let rel := relative s.toState i abs
    if (s.table i).fsType = .axiomefs then
      (axfsLookup (s.volume i) (s.volume i).rootInodeBlock (bytes rel)).map Vnode.attr
    else s.other i rel

/-- What the gate of `vfs_create` decides. -/
def createGate (s : Mounted) (cur : Option Cred) (path cwd : List Char) : Bool :=
  let abs := absolutize path cwd
  vfsGateWriteFile cur abs (vfsLookup s (vfsParentPath abs) ['/'])

/-- `vfs_create` where the path is on an axiomefs mount; `none` on the other file systems. -/
def vfsCreate (s : Mounted) (cur : Option Cred) (path cwd : List Char) (type : NodeType) :
    Option (Mounted × ℤ) :=
  let abs := absolutize path cwd
  if createGate s cur path cwd = false then some (s, -1)
  else
    match mountFind s.toState abs with
    | none => some (s, -1)
    | some i =>
      if (s.table i).fsType = .axiomefs then
        let r := axfsCreate (s.volume i) (bytes (relative s.toState i abs)) type
          (cur.map fun t => (t.uid.toNat, t.gid.toNat))
        some (s.setVolume i r.1, r.2)
      else none

/-! ### Paths below a file -/

/-- The file has the size, the extents and the bytes it had. -/
def FileKept (v v' : Volume) (f : ℕ) : Prop :=
  size (v'.blocks f) = size (v.blocks f) ∧ count (v'.blocks f) = count (v.blocks f) ∧
    (∀ k, k < count (v.blocks f) → extent (v'.blocks f) k = extent (v.blocks f) k) ∧
    ∀ p, fileByte v' f p = fileByte v f p

theorem FileKept.refl (v : Volume) (f : ℕ) : FileKept v v f :=
  ⟨rfl, rfl, fun _ _ => rfl, fun _ => rfl⟩

/-- The path names an entry below the regular file `f`, which its first components `pre` name. -/
structure BelowFile (v : Volume) (rel : List UInt8) (pre : List (List UInt8)) (f : ℕ) : Prop where
  path : ∃ rest, rest ≠ [] ∧ components rel = pre ++ rest
  base : baseName rel ≠ []
  named : pre ≠ []
  found : lookupFrom v v.rootInodeBlock pre = some f
  regular : ¬isDir (v.blocks f)

/-- The call answers a failure, and the file `f` of mount `i` is as it was. -/
def CreateFails (s : Mounted) (cur : Option Cred) (path cwd : List Char) (type : NodeType)
    (i f : ℕ) : Prop :=
  ∃ s' r, vfsCreate s cur path cwd type = some (s', r) ∧ r ≠ 0 ∧
    FileKept (s.volume i) (s'.volume i) f

theorem axfsCreate_of_not_needs {rel : List UInt8} (h : ¬CreateNeedsBlock v rel)
    (type : NodeType) (cur : Option (ℕ × ℕ)) : axfsCreate v rel type cur = (v, -1) := by
  unfold axfsCreate
  by_cases hparent : (axfsParentDir v rel).1 = 0
  · rw [if_pos hparent]
  · by_cases hbase : (axfsParentDir v rel).2 = []
    · rw [if_neg hparent, if_pos hbase]
    · exact absurd ⟨hparent, hbase⟩ h

theorem axfsCreate_of_needs {rel : List UInt8} (h : CreateNeedsBlock v rel)
    (type : NodeType) (cur : Option (ℕ × ℕ)) : (axfsCreate v rel type cur).2 = 0 := by
  unfold axfsCreate
  rw [if_neg h.1, if_neg h.2]

theorem findEntry_ne_zero {di : Block} {name : List UInt8} {n : ℕ}
    (h : findEntry v di name = some n) : n ≠ 0 := by
  rw [findEntry_eq, Option.map_eq_some_iff] at h
  obtain ⟨s, hs, rfl⟩ := h
  have hmatch := List.find?_some hs
  rw [slotMatches, dentMatches, Bool.and_eq_true, Bool.and_eq_true, Bool.and_eq_true,
    decide_eq_true_eq] at hmatch
  exact hmatch.1.1.1

theorem lookupFrom_ne_zero {n : ℕ} : ∀ (comps : List (List UInt8)) (i : ℕ),
    comps ≠ [] → lookupFrom v i comps = some n → n ≠ 0 := by
  intro comps
  induction comps with
  | nil => exact fun i h => absurd rfl h
  | cons c comps ih =>
    intro i _ h
    rw [lookupFrom] at h
    split at h
    · cases h
    · obtain ⟨next, hnext, hrest⟩ := Option.bind_eq_some_iff.mp h
      by_cases hlast : comps = []
      · subst hlast
        cases hrest
        exact findEntry_ne_zero hnext
      · exact ih next hlast hrest

/-- If the components that `axfs_parent_dir` follows are those of the file, it finds the file. -/
theorem BelowFile.needs {rel : List UInt8} {pre : List (List UInt8)} {f : ℕ}
    (h : BelowFile v rel pre f) :
    CreateNeedsBlock v rel ↔ (parentComponents rel = pre ∨ (axfsParentDir v rel).1 ≠ 0) := by
  have hbase : (axfsParentDir v rel).2 ≠ [] := by
    intro hnil
    obtain hmax | hnone := List.take_eq_nil_iff.mp hnil
    · cases hmax
    · exact h.base hnone
  refine ⟨fun hneed => .inr hneed.1, ?_⟩
  rintro (hpre | hparent)
  · refine ⟨?_, hbase⟩
    show parentFrom v v.rootInodeBlock (parentComponents rel) ≠ 0
    rw [hpre, parentFrom_of_lookupFrom pre _ h.found]
    exact lookupFrom_ne_zero pre _ h.named h.found
  · exact ⟨hparent, hbase⟩

/-- **Creating below a regular file** fails, and leaves the file as it was, exactly if the
permission gate refuses, or the parent that `axfs_parent_dir` looks for is not the file itself and
is not found. -/
theorem create_below_file_iff (s : Mounted) (cur : Option Cred) (path cwd : List Char)
    (type : NodeType) (i : ℕ) (hmount : mountFind s.toState (absolutize path cwd) = some i)
    (hfs : (s.table i).fsType = .axiomefs) (rel : List UInt8)
    (hrel : rel = bytes (relative s.toState i (absolutize path cwd)))
    (pre : List (List UInt8)) (f : ℕ) (hbelow : BelowFile (s.volume i) rel pre f) :
    CreateFails s cur path cwd type i f ↔
      createGate s cur path cwd = false ∨
      (parentComponents rel ≠ pre ∧ (axfsParentDir (s.volume i) rel).1 = 0) := by
  have hlost : ¬CreateNeedsBlock (s.volume i) rel ↔
      (parentComponents rel ≠ pre ∧ (axfsParentDir (s.volume i) rel).1 = 0) := by
    rw [hbelow.needs, not_or, not_not]
  rw [← hlost]
  have hcall : createGate s cur path cwd = true → vfsCreate s cur path cwd type =
      some (s.setVolume i
        (axfsCreate (s.volume i) rel type (cur.map fun t => (t.uid.toNat, t.gid.toNat))).1,
        (axfsCreate (s.volume i) rel type (cur.map fun t => (t.uid.toNat, t.gid.toNat))).2) := by
    intro hgate
    rw [vfsCreate, if_neg (by rw [hgate]; decide), hmount, hrel]
    exact if_pos hfs
  refine ⟨?_, ?_⟩
  · rintro ⟨s', r, hcreate, hr, -⟩
    by_contra hnot
    rw [not_or, not_not, Bool.not_eq_false] at hnot
    rw [hcall hnot.1] at hcreate
    apply hr
    rw [← axfsCreate_of_needs hnot.2 type (cur.map fun t => (t.uid.toNat, t.gid.toNat))]
    exact (congrArg Prod.snd (Option.some.inj hcreate)).symm
  · intro hcond
    cases hgate : createGate s cur path cwd with
    | false =>
      refine ⟨s, -1, ?_, by decide, .refl _ _⟩
      rw [vfsCreate, if_pos hgate]
    | true =>
      have hneeds := hcond.resolve_left (by rw [hgate]; decide)
      refine ⟨_, _, hcall hgate, ?_, ?_⟩
      · rw [axfsCreate_of_not_needs hneeds]
        show (-1 : ℤ) ≠ 0
        decide
      · show FileKept _ (Function.update s.volume i _ i) f
        rw [Function.update_self, axfsCreate_of_not_needs hneeds]
        exact .refl _ _

/-! ### An entry written into a file -/

/-- The root directory in block 5 has a file `a`, in block 7, of four zero bytes. -/
def zerosVolume : Volume :=
  { sparseVolume with
    blocks := fun b =>
      if b = 2 then fun j => if j = 0 then 255 else if j = 1 then 1 else 0
      else if b = 6 then putDent zeroBlock 0 [97] 7 NodeType.file.code
      else if b = 7 then Inode.size.put 4 (appendExtent (newInode 7 .file none) 8)
      else sparseVolume.blocks b }

/-- The volume, mounted at `/`. -/
def zerosMounted : Mounted where
  vnodes := ∅
  vnode := fun _ => ⟨[], .dir, none, .null, 0, [], none, 0⟩
  objs := ∅
  table := fun _ => ⟨['/'], .axiomefs, none, none, 0⟩
  nmounts := 1
  fds := fun _ _ => none
  nextId := 1
  volume := fun _ => zerosVolume
  other := fun _ _ => none

/-- The path `/a/x`. -/
def belowPath : List Char := ['/', 'a', '/', 'x']

theorem belowFile_zeros : BelowFile zerosVolume [97, 47, 120] [[97]] 7 where
  path := ⟨[[120]], by decide, by decide⟩
  base := by decide
  named := by decide
  found := by decide
  regular := by decide

/-- A guest may not create outside `/tmp`. -/
theorem create_below_file_iff_guest :
    CreateFails zerosMounted (some { threadInitCred with role := .guest }) belowPath ['/'] .file
      0 7 :=
  (create_below_file_iff zerosMounted (some { threadInitCred with role := .guest }) belowPath
    ['/'] .file 0 (by decide) rfl [97, 47, 120] (by decide) [[97]] 7 belowFile_zeros).mpr
    (.inl (by decide))

/-- **Creating `/a/x` writes into the file `/a`**: its owner is answered success, and the first byte
of the file is the inode number of the new node. -/
theorem create_overwrites_file : BelowFile zerosVolume [97, 47, 120] [[97]] 7 ∧
      fileByte zerosVolume 7 0 = some 0 ∧
      (vfsCreate zerosMounted (some threadInitCred) belowPath ['/'] .file).any
        (fun r => r.2 = 0 ∧ fileByte (r.1.volume 0) 7 0 = some 9) :=
  ⟨belowFile_zeros, by decide, by decide⟩

end AxiomeOS.Axfs
