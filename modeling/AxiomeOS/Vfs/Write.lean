import AxiomeOS.Axfs.Volume
import AxiomeOS.Security.Perms
import AxiomeOS.Vfs.Files

/-!
# Who may change a file through a descriptor

`sys_open` checks the access that its flags ask for, and truncates the file for `O_TRUNC`;
`sys_write` and `sys_pwrite` hand their bytes to `vfs_write`, which asks for a capability and checks
the mode bits again.  None of the three looks at the access the descriptor was opened for.

The file system behind the file is a parameter (`FileSystem`); `ramfs` and `axiomefs` are two.  A
history is any list of calls by any processes on one file: opens, writes, copies of descriptors,
and whatever else happens to the file.

`change_authorised_iff`: in every state that is reached, a call changes the contents only as its
descriptor allows exactly when it meets the condition `Careful`.
-/

namespace AxiomeOS.Descriptor

open Security Function List
open Vfs (OpenFlags VType growCap eperm enoent eio ebadf enomem eacces eisdir einval)

variable {d : ℕ} {c : Cred} {bytes : List UInt8}

/-! ### File systems -/

/-- What the calls use of the file system a file is in.  A state `σ` is that of the file under one
path, a vnode is of type `ν`, and `μ` is what the allocators and the checks of the parent directory
answer during a call. -/
structure FileSystem (σ ν μ : Type) where
  /-- `vfs_lookup` of the path. -/
  lookup : σ → Option (σ × ν)
  /-- `vfs_create` of the path, by a process. -/
  create : σ → Cred → μ → Option σ
  attr : σ → ν → Attr
  type : σ → ν → VType
  /-- The field `size` of the vnode. -/
  size : σ → ν → ℕ
  /-- What `O_TRUNC` does: `n->data = 0; n->size = 0; n->cap = 0;` -/
  truncate : σ → ν → σ
  /-- `ops->write`, if there is one: the number of bytes written. -/
  write : Option (σ → ν → ℕ → List UInt8 → μ → σ × ℕ)
  /-- The bytes of the file. -/
  contents : σ → List UInt8
  lookup_contents : ∀ s s' n, lookup s = some (s', n) → contents s' = contents s

variable {σ ν μ : Type}

/-- An open descriptor of the file, with what was true when it was opened. -/
structure Opened (ν : Type) where
  node : ν
  off : ℕ
  flags : OpenFlags
  /-- The file was made by this open. -/
  created : Bool
  /-- The process had write permission on the file. -/
  permitted : Bool

/-- The file and its descriptors in the tables of all threads. -/
structure State (σ ν : Type) where
  fs : σ
  fds : ℕ → Option (Opened ν)

/-- The open asks for write access. -/
def requests (flags : OpenFlags) : Bool := flags.wronly || flags.rdwr

def efault : ℤ := 14

/-! ### The calls -/

section Calls

variable (F : FileSystem σ ν μ)

/-- The end of `sys_open`; `slot` is what `fd_alloc` finds. -/
def install (s : State σ ν) (fs : σ) (slot : Option ℕ) (f : Opened ν) : State σ ν × ℤ :=
  match slot with
  | none => ({ s with fs := fs }, -enomem)
  | some d => ({ fs := fs, fds := update s.fds d (some f) }, d)

/-- The descriptor that `sys_open` makes. -/
def openedFile (fs : σ) (n : ν) (flags : OpenFlags) (created permitted : Bool) : Opened ν where
  node := n
  off := if flags.append then F.size fs n else 0
  flags := flags
  created := created
  permitted := permitted

/-- `vfs_check_perms` of a vnode for the process. -/
def mayRead (fs : σ) (c : Cred) (n : ν) : Bool := vfsCheckPerms (some c) (F.attr fs n) vfsMayRead

def mayWrite (fs : σ) (c : Cred) (n : ν) : Bool := vfsCheckPerms (some c) (F.attr fs n) vfsMayWrite

/-- `sys_open` of a path that does not name a FIFO. -/
def sysOpen (s : State σ ν) (c : Cred) (flags : OpenFlags) (slot : Option ℕ) (m : μ) :
    State σ ν × ℤ :=
  match F.lookup s.fs with
  | some (fs, n) =>
    if F.type fs n = .dir then ({ s with fs := fs }, -eisdir)
    else if !flags.wronly && !mayRead F fs c n then ({ s with fs := fs }, -eacces)
    else if requests flags && !mayWrite F fs c n then ({ s with fs := fs }, -eacces)
    else
      let fs' := if flags.trunc then F.truncate fs n else fs
      install s fs' slot (openedFile F fs' n flags false (mayWrite F fs c n))
  | none =>
    if flags.creat = false then (s, -enoent)
    else
      match F.create s.fs c m with
      | none => (s, -eacces)
      | some fs =>
        match F.lookup fs with
        | none => ({ s with fs := fs }, -eio)
        | some (fs', n) =>
          install s fs' slot (openedFile F fs' n flags true (mayWrite F fs' c n))

/-- `vfs_write`, called by a process. -/
def vfsWrite (fs : σ) (c : Cred) (n : ν) (off : ℕ) (bytes : List UInt8) (m : μ) : σ × ℤ :=
  match F.write with
  | none => (fs, -ebadf)
  | some write =>
    if c.role ≠ .system ∧ mayUseWrite c = false then (fs, -eperm)
    else if c.role ≠ .system ∧ F.type fs n = .file ∧
        mayWrite F fs c n = false then (fs, -eacces)
    else ((write fs n off bytes m).1, (write fs n off bytes m).2)

/-- Where `sys_write` writes. -/
def writeOff (fs : σ) (f : Opened ν) : ℕ := if f.flags.append then F.size fs f.node else f.off

/-- `sys_write` on a descriptor of the file; `ok` is the answer of `user_range_ok`. -/
def sysWrite (s : State σ ν) (c : Cred) (d : ℕ) (bytes : List UInt8) (ok : Bool) (m : μ) :
    State σ ν × ℤ :=
  if bytes ≠ [] ∧ ok = false then (s, -efault)
  else
    match s.fds d with
    | none => (s, -1)
    | some f =>
      let off := writeOff F s.fs f
      let r := vfsWrite F s.fs c f.node off bytes m
      ({ fs := r.1, fds := update s.fds d (some { f with off := off + r.2.toNat }) }, r.2)

/-- `sys_pwrite`. -/
def sysPwrite (s : State σ ν) (c : Cred) (d : ℕ) (bytes : List UInt8) (off : ℤ) (ok : Bool)
    (m : μ) : State σ ν × ℤ :=
  if off < 0 then (s, -einval)
  else if bytes ≠ [] ∧ ok = false then (s, -efault)
  else
    match s.fds d with
    | none => (s, -ebadf)
    | some f =>
      let r := vfsWrite F s.fs c f.node off.toNat bytes m
      ({ s with fs := r.1 }, r.2)

/-- What happens to the file. -/
inductive Call (σ μ : Type)
  | openFile (c : Cred) (flags : OpenFlags) (slot : Option ℕ) (m : μ)
  | write (c : Cred) (d : ℕ) (bytes : List UInt8) (ok : Bool) (m : μ)
  | pwrite (c : Cred) (d : ℕ) (bytes : List UInt8) (off : ℤ) (ok : Bool) (m : μ)
  /-- A read or a seek, which only moves the offset. -/
  | seek (d off : ℕ)
  /-- `dup2`, and the descriptors that a child inherits. -/
  | copy (d d' : ℕ)
  | close (d : ℕ)
  /-- What is not done through a descriptor: `chmod`, `chown`, `unlink`, the kernel's own writes. -/
  | elsewhere (fs : σ)

def exec (s : State σ ν) : Call σ μ → State σ ν
  | .openFile c flags slot m => (sysOpen F s c flags slot m).1
  | .write c d bytes ok m => (sysWrite F s c d bytes ok m).1
  | .pwrite c d bytes off ok m => (sysPwrite F s c d bytes off ok m).1
  | .seek d off => { s with fds := update s.fds d ((s.fds d).map fun f => { f with off := off }) }
  | .copy d d' => { s with fds := update s.fds d' (s.fds d) }
  | .close d => { s with fds := update s.fds d none }
  | .elsewhere fs => { s with fs := fs }

/-! ### The property and its condition -/

/-- The call changes the bytes of the file. -/
def Changes (s : State σ ν) (call : Call σ μ) : Prop :=
  F.contents (exec F s call).fs ≠ F.contents s.fs

/-- The descriptor was opened for writing, by a process that was allowed to write. -/
def WriteOpened (s : State σ ν) (d : ℕ) : Prop :=
  ∃ f, s.fds d = some f ∧ requests f.flags = true ∧ f.permitted = true

/-- A call of a process that is not of the role `SYSTEM` changes an existing file only if the open
asked for write access and the process had write permission. -/
def Authorised (s : State σ ν) (call : Call σ μ) : Prop :=
  match call with
  | .openFile c flags _ _ => c.role ≠ .system → ∀ fs n, F.lookup s.fs = some (fs, n) →
      Changes F s call → requests flags = true ∧ mayWrite F fs c n = true
  | .write c d _ _ _ => c.role ≠ .system → Changes F s call → WriteOpened s d
  | .pwrite c d _ _ _ _ => c.role ≠ .system → Changes F s call → WriteOpened s d
  | _ => True

/-- `ops->write` of the file system would change the file. -/
def Alters (fs : σ) (n : ν) (off : ℕ) (bytes : List UInt8) (m : μ) : Prop :=
  ∃ write, F.write = some write ∧ F.contents (write fs n off bytes m).1 ≠ F.contents fs

/-- The checks of `vfs_write` let the process write now. -/
def Accepts (fs : σ) (c : Cred) (n : ν) : Prop :=
  mayUseWrite c = true ∧ (F.type fs n = .file → mayWrite F fs c n = true)

/-- The condition on a write at an offset: if it is accepted and alters the file, then the
descriptor was opened for writing, and by a process that was allowed to, if the open made the file
itself. -/
def CarefulWrite (s : State σ ν) (c : Cred) (f : Opened ν) (off : ℕ) (bytes : List UInt8) (m : μ) :
    Prop :=
  Accepts F s.fs c f.node → Alters F s.fs f.node off bytes m →
    requests f.flags = true ∧ (f.created = true → f.permitted = true)

/-- The condition on a call: `O_TRUNC` without write access is used on empty files only, and writes
are careful. -/
def Careful (s : State σ ν) (call : Call σ μ) : Prop :=
  match call with
  | .openFile c flags _ _ => c.role ≠ .system → flags.trunc = true → requests flags = false →
      ∀ fs n, F.lookup s.fs = some (fs, n) → F.type fs n ≠ .dir → mayRead F fs c n = true →
        F.contents (F.truncate fs n) = F.contents fs
  | .write c d bytes ok m => c.role ≠ .system → (bytes ≠ [] → ok = true) →
      ∀ f, s.fds d = some f → CarefulWrite F s c f (writeOff F s.fs f) bytes m
  | .pwrite c d bytes off ok m => c.role ≠ .system → 0 ≤ off → (bytes ≠ [] → ok = true) →
      ∀ f, s.fds d = some f → CarefulWrite F s c f off.toNat bytes m
  | _ => True

/-! ### What the open has checked -/

/-- **The invariant.**  A descriptor that was opened for writing on a file that was there was
opened by a process that was allowed to write. -/
def Checked (s : State σ ν) : Prop :=
  ∀ d f, s.fds d = some f → requests f.flags = true → f.created = false → f.permitted = true

end Calls

variable {F : FileSystem σ ν μ} {s : State σ ν}
variable {fs : σ} {slot : Option ℕ} {f : Opened ν} {m : μ} {ok : Bool}

theorem Checked.replace (h : Checked s) {o : Option (Opened ν)}
    (ho : ∀ f, o = some f → requests f.flags = true → f.created = false → f.permitted = true) :
    Checked { fs := fs, fds := update s.fds d o } := by
  intro d' f hf
  have hf' : update s.fds d o d' = some f := hf
  by_cases hd : d' = d
  · rw [hd, update_self] at hf'
    exact ho f hf'
  · rw [update_of_ne hd] at hf'
    exact h d' f hf'

theorem Checked.install (h : Checked s)
    (hf : requests f.flags = true → f.created = false → f.permitted = true) :
    Checked (install s fs slot f).1 := by
  cases slot with
  | none => exact h
  | some d =>
    refine h.replace fun f' hf' => ?_
    cases hf'
    exact hf

theorem Checked.sysOpen (h : Checked s) (c : Cred) (flags : OpenFlags) (slot : Option ℕ) (m : μ) :
    Checked (sysOpen F s c flags slot m).1 := by
  unfold Descriptor.sysOpen
  split
  · rename_i fs n _
    split
    · exact h
    split
    · exact h
    split
    · exact h
    · rename_i hwrite
      refine h.install fun hreq _ => ?_
      have hreq' : requests flags = true := hreq
      rw [hreq', Bool.true_and] at hwrite
      show mayWrite F fs c n = true
      simpa using hwrite
  · split
    · exact h
    split
    · exact h
    · split
      · exact h
      · exact h.install nofun

/-- **One call.** -/
theorem Checked.exec (h : Checked s) (call : Call σ μ) : Checked (exec F s call) := by
  cases call with
  | openFile c flags slot m => exact h.sysOpen c flags slot m
  | write c d bytes ok m =>
    unfold Descriptor.exec sysWrite
    dsimp only
    split
    · exact h
    split
    · exact h
    · rename_i f hf
      refine h.replace fun f' hf' => ?_
      cases hf'
      exact h d f hf
  | pwrite c d bytes off ok m =>
    unfold Descriptor.exec sysPwrite
    dsimp only
    split
    · exact h
    split
    · exact h
    split
    · exact h
    · exact h
  | seek d off =>
    refine h.replace fun f' hf' => ?_
    obtain ⟨f, hf, rfl⟩ := Option.map_eq_some_iff.mp hf'
    exact h d f hf
  | copy d d' => exact h.replace fun f hf => h d f hf
  | close d => exact h.replace nofun
  | elsewhere fs => exact h

/-! ### What a call changes -/

/-- `vfs_write` changes the file exactly if it accepts a write that alters it. -/
theorem vfsWrite_changes_iff (hc : c.role ≠ .system) {n : ν} {off : ℕ} :
    F.contents (vfsWrite F fs c n off bytes m).1 ≠ F.contents fs ↔
      Accepts F fs c n ∧ Alters F fs n off bytes m := by
  unfold vfsWrite Alters
  cases hw : F.write with
  | none => simp
  | some write =>
    dsimp only
    split
    · rename_i hcaps
      refine ⟨fun hne => absurd rfl hne, fun hboth => ?_⟩
      exact absurd (hboth.1.1.symm.trans hcaps.2) (by decide)
    split
    · rename_i _ hmode
      refine ⟨fun hne => absurd rfl hne, fun hboth => ?_⟩
      exact absurd ((hboth.1.2 hmode.2.1).symm.trans hmode.2.2) (by decide)
    · rename_i hcaps hmode
      have haccepts : Accepts F fs c n := by
        constructor
        · by_contra hno
          exact hcaps ⟨hc, by simpa using hno⟩
        · intro htype
          by_contra hno
          exact hmode ⟨hc, htype, by simpa using hno⟩
      constructor
      · exact fun hne => ⟨haccepts, write, rfl, hne⟩
      · rintro ⟨-, write', hwrite', hne⟩
        cases hwrite'
        exact hne

theorem Checked.writeOpened_iff (h : Checked s) (hf : s.fds d = some f) :
    WriteOpened s d ↔ requests f.flags = true ∧ (f.created = true → f.permitted = true) := by
  constructor
  · rintro ⟨f', hf', hreq, hperm⟩
    cases hf.symm.trans hf'
    exact ⟨hreq, fun _ => hperm⟩
  · rintro ⟨hreq, hcreated⟩
    refine ⟨f, hf, hreq, ?_⟩
    cases hmade : f.created with
    | true => exact hcreated hmade
    | false => exact h d f hf hreq hmade

theorem Checked.write_iff (h : Checked s) {o : Opened ν → ℕ} {X A : Prop}
    (hX : X ↔ A ∧ ∃ f, s.fds d = some f ∧ Accepts F s.fs c f.node ∧
      Alters F s.fs f.node (o f) bytes m) :
    (X → WriteOpened s d) ↔ (A → ∀ f, s.fds d = some f → CarefulWrite F s c f (o f) bytes m) := by
  constructor
  · intro hauth hA f hf haccepts halters
    exact (h.writeOpened_iff hf).mp (hauth (hX.mpr ⟨hA, f, hf, haccepts, halters⟩))
  · intro hcareful hx
    obtain ⟨hA, f, hf, haccepts, halters⟩ := hX.mp hx
    exact (h.writeOpened_iff hf).mpr (hcareful hA f hf haccepts halters)

theorem range_ok_iff : ¬(bytes ≠ [] ∧ ok = false) ↔ (bytes ≠ [] → ok = true) := by
  cases ok with
  | true => simp
  | false => simp

theorem sysWrite_changes_iff (hc : c.role ≠ .system) :
    Changes F s (.write c d bytes ok m) ↔ (bytes ≠ [] → ok = true) ∧ ∃ f, s.fds d = some f ∧
      Accepts F s.fs c f.node ∧ Alters F s.fs f.node (writeOff F s.fs f) bytes m := by
  unfold Changes exec sysWrite
  dsimp only
  split
  · rename_i hbad
    exact ⟨fun hne => absurd rfl hne, fun hall => absurd hbad (range_ok_iff.mpr hall.1)⟩
  rename_i hok
  cases hf : s.fds d with
  | none => simp
  | some f =>
    simp only [Option.some.injEq, exists_eq_left', ← vfsWrite_changes_iff hc]
    exact (and_iff_right (range_ok_iff.mp hok)).symm

theorem sysPwrite_changes_iff (hc : c.role ≠ .system) {off : ℤ} :
    Changes F s (.pwrite c d bytes off ok m) ↔
      (0 ≤ off ∧ (bytes ≠ [] → ok = true)) ∧ ∃ f, s.fds d = some f ∧
        Accepts F s.fs c f.node ∧ Alters F s.fs f.node off.toNat bytes m := by
  unfold Changes exec sysPwrite
  dsimp only
  split
  · rename_i hneg
    exact ⟨fun hne => absurd rfl hne, fun hall => absurd hneg (not_lt.mpr hall.1.1)⟩
  rename_i hoff
  split
  · rename_i hbad
    exact ⟨fun hne => absurd rfl hne, fun hall => absurd hbad (range_ok_iff.mpr hall.1.2)⟩
  rename_i hok
  cases hf : s.fds d with
  | none => simp
  | some f =>
    simp only [Option.some.injEq, exists_eq_left', ← vfsWrite_changes_iff hc]
    exact (and_iff_right ⟨not_lt.mp hoff, range_ok_iff.mp hok⟩).symm

theorem install_fs (s : State σ ν) (fs : σ) (slot : Option ℕ) (f : Opened ν) :
    (install s fs slot f).1.fs = fs := by
  cases slot with
  | none => rfl
  | some d => rfl

/-- **An open** changes a file only by truncating it. -/
theorem sysOpen_changes_iff {flags : OpenFlags} {n : ν} (hlookup : F.lookup s.fs = some (fs, n)) :
    Changes F s (.openFile c flags slot m) ↔
      flags.trunc = true ∧ F.type fs n ≠ .dir ∧ (flags.wronly = true ∨ mayRead F fs c n = true) ∧
        (requests flags = true → mayWrite F fs c n = true) ∧
        F.contents (F.truncate fs n) ≠ F.contents fs := by
  have hsame := F.lookup_contents _ _ _ hlookup
  unfold Changes exec sysOpen
  rw [hlookup, ← hsame]
  dsimp only
  split
  · rename_i hdir
    exact ⟨fun hne => absurd rfl hne, fun hall => absurd hdir hall.2.1⟩
  rename_i hdir
  split
  · rename_i hread
    refine ⟨fun hne => absurd rfl hne, fun hall => ?_⟩
    rcases hall.2.2.1 with hw | hr
    · simp [hw] at hread
    · simp [hr] at hread
  rename_i hread
  split
  · rename_i hwrite
    refine ⟨fun hne => absurd rfl hne, fun hall => ?_⟩
    have hreq : requests flags = true := by
      rw [Bool.and_eq_true] at hwrite
      exact hwrite.1
    simp [hall.2.2.2.1 hreq] at hwrite
  rename_i hwrite
  rw [install_fs]
  constructor
  · intro hne
    cases htrunc : flags.trunc with
    | false =>
      rw [htrunc] at hne
      exact absurd rfl hne
    | true =>
      rw [htrunc] at hne
      refine ⟨rfl, hdir, ?_, ?_, hne⟩
      · by_contra hno
        rw [not_or] at hno
        exact hread (by simp [hno.1, hno.2])
      · intro hreq
        by_contra hno
        exact hwrite (by simp [hreq, hno])
  · rintro ⟨htrunc, -, -, -, hne⟩
    rw [htrunc]
    exact hne

/-- **One call** of a process is authorised exactly under the condition. -/
theorem Checked.authorised_iff (h : Checked s) (call : Call σ μ) :
    Authorised F s call ↔ Careful F s call := by
  cases call with
  | openFile c flags slot m =>
    constructor
    · intro hauth hc htrunc hreq fs n hlookup hdir hread
      by_contra hne
      have hchanges : Changes F s (.openFile c flags slot m) :=
        (sysOpen_changes_iff hlookup).mpr
          ⟨htrunc, hdir, .inr hread, fun hreq' => absurd (hreq'.symm.trans hreq) (by decide), hne⟩
      exact absurd ((hauth hc fs n hlookup hchanges).1.symm.trans hreq) (by decide)
    · intro hcareful hc fs n hlookup hchanges
      obtain ⟨htrunc, hdir, hread, hwrite, hne⟩ := (sysOpen_changes_iff hlookup).mp hchanges
      cases hreq : requests flags with
      | true => exact ⟨rfl, hwrite hreq⟩
      | false =>
        -- without write access the open has checked read access
        have hread' : mayRead F fs c n = true := by
          rcases hread with hw | hr
          · simp [requests, hw] at hreq
          · exact hr
        exact absurd (hcareful hc htrunc hreq fs n hlookup hdir hread') hne
  | write c d bytes ok m =>
    exact imp_congr_right fun hc =>
      h.write_iff (sysWrite_changes_iff hc)
  | pwrite c d bytes off ok m =>
    refine imp_congr_right fun hc => ?_
    rw [h.write_iff (sysPwrite_changes_iff hc), and_imp]
  | seek | copy | close | elsewhere => exact Iff.rfl

/-! ### Histories -/

/-- The file, before anyone has opened it. -/
def start (fs : σ) : State σ ν := ⟨fs, fun _ => none⟩

def run (F : FileSystem σ ν μ) (s : State σ ν) (calls : List (Call σ μ)) : State σ ν :=
  calls.foldl (exec F) s

theorem Checked.run (h : Checked s) (calls : List (Call σ μ)) : Checked (run F s calls) := by
  induction calls generalizing s with
  | nil => exact h
  | cons call calls ih => exact ih (h.exec call)

theorem checked_start (fs : σ) : Checked (start fs : State σ ν) := by
  exact nofun

/-- The vnode of a ramfs file. -/
structure RamNode where
  attr : Attr
  data : Option (ℕ → UInt8)
  size : ℕ
  cap : ℕ

/-- What the parent's directory allows, and what `kmalloc` answers, with whatever the memory
holds. -/
structure Answers where
  gate : Bool
  mem : Option (ℕ → UInt8)

def RamNode.byte (n : RamNode) (i : ℕ) : UInt8 := (n.data.map fun d => d i).getD 0

/-- `ramfs_ensure_cap`. -/
def ramfsEnsureCap (n : RamNode) (need : ℕ) (mem : Option (ℕ → UInt8)) : Option RamNode :=
  if need ≤ n.cap then some n
  else mem.map fun nd =>
    { n with
      data := some fun i => if i < n.size then n.byte i else nd i
      cap := growCap need need (if n.cap = 0 then 64 else n.cap) }

/-- `ramfs_write`, of a file. -/
def ramfsWrite (n : RamNode) (off : ℕ) (bytes : List UInt8) (mem : Option (ℕ → UInt8)) :
    RamNode × ℕ :=
  match ramfsEnsureCap n (off + bytes.length) mem with
  | none => (n, 0)
  | some n =>
    ({ n with
      data := n.data.map fun d i =>
        if off ≤ i ∧ i < off + bytes.length then bytes.getD (i - off) 0 else d i
      size := max n.size (off + bytes.length) }, bytes.length)

/-- A file of `Vfs.Files` as such a vnode. -/
def fileOf (s : Vfs.Files) (k : ℕ) (attr : Attr) : RamNode :=
  ⟨attr, (s.vnode k).data.map s.bytes, (s.vnode k).size, (s.vnode k).cap⟩

/-- **The write of `Vfs.Files`** is this one, with memory that holds zeros. -/
theorem fileOf_ramfsWrite {s : Vfs.Files} {k : ℕ} (hk : (s.vnode k).type = .file) (attr : Attr)
    (off : ℕ) (bytes : List UInt8) (m : Vfs.Mem) :
    (fileOf (Vfs.ramfsWrite s k off bytes m).1 k attr, (Vfs.ramfsWrite s k off bytes m).2) =
      ramfsWrite (fileOf s k attr) off bytes ((m.buf.pick s.bufs).map fun _ _ => 0) := by
  rw [Vfs.ramfsWrite, if_neg (not_not.mpr hk), ramfsWrite, Vfs.ramfsEnsureCap, ramfsEnsureCap]
  by_cases hroom : off + bytes.length ≤ (s.vnode k).cap
  · rw [if_pos hroom, if_pos (show _ ≤ (fileOf s k attr).cap from hroom)]
    cases hd : (s.vnode k).data <;> simp [fileOf, Vfs.Files.modifyVnode, hd]
  · rw [if_neg hroom, if_neg (show ¬_ ≤ (fileOf s k attr).cap from hroom)]
    cases m.buf.pick s.bufs with
    | none => rfl
    | some b =>
      cases hd : (s.vnode k).data <;>
        simp [fileOf, Vfs.Files.modifyVnode, Vfs.Files.freeBuf, hd, RamNode.byte]

/-- A file of the ramfs: its only vnode, which every open shares, unless the path names nothing. -/
def ramfs : FileSystem (Option RamNode) Unit Answers where
  lookup s := s.map fun n => (some n, ())
  create s c m :=
    if m.gate = true ∧ s.isNone = true then
      some (some ⟨⟨c.uid.toNat, c.gid.toNat, 0o644⟩, none, 0, 0⟩)
    else none
  attr s _ := (s.map RamNode.attr).getD ⟨0, 0, 0⟩
  type _ _ := .file
  size s _ := (s.map RamNode.size).getD 0
  truncate s _ := s.map fun n => { n with data := none, size := 0, cap := 0 }
  write := some fun s _ off bytes m =>
    match s with
    | none => (s, 0)
    | some n => (some (ramfsWrite n off bytes m.mem).1, (ramfsWrite n off bytes m.mem).2)
  contents s := (s.map fun n => (List.range n.size).map n.byte).getD []
  lookup_contents := by
    intro s s' n h
    cases s with
    | none => cases h
    | some r =>
      cases h
      rfl

section RamfsWrite

variable {n : RamNode} {off : ℕ} {bytes : List UInt8} {mem : Option (ℕ → UInt8)}

/-- The contents `d` with the bytes written over them. -/
def overwrite (d : ℕ → UInt8) (off : ℕ) (bytes : List UInt8) (i : ℕ) : UInt8 :=
  if off ≤ i ∧ i < off + bytes.length then bytes.getD (i - off) 0 else d i

theorem ramfsWrite_refused (h : ¬ off + bytes.length ≤ n.cap) :
    ramfsWrite n off bytes none = (n, 0) := by
  rw [ramfsWrite, ramfsEnsureCap, if_neg h]
  rfl

/-- A write that there is room for.  Behind the old end a new buffer holds what the memory held. -/
theorem ramfsWrite_accepted (hb : n.cap = 0 ∨ n.data.isSome = true)
    (h : off + bytes.length ≤ n.cap ∨ mem.isSome = true) :
    ∃ n', ramfsWrite n off bytes mem = (n', bytes.length) ∧ (n'.cap = 0 ∨ n'.data.isSome = true) ∧
      n'.size = max n.size (off + bytes.length) ∧
      n'.cap = (if off + bytes.length ≤ n.cap then n.cap else
        growCap (off + bytes.length) (off + bytes.length) (if n.cap = 0 then 64 else n.cap)) ∧
      n'.byte = overwrite (fun i => if i < n.size ∨ off + bytes.length ≤ n.cap then n.byte i
        else (mem.getD fun _ => 0) i) off bytes := by
  by_cases hroom : off + bytes.length ≤ n.cap
  · rw [ramfsWrite, ramfsEnsureCap, if_pos hroom]
    refine ⟨_, rfl, by rw [Option.isSome_map]; exact hb, rfl, (if_pos hroom).symm,
      funext fun i => ?_⟩
    rw [overwrite, if_pos (Or.inr hroom)]
    cases hd : n.data with
    | none =>
      have hcap : n.cap = 0 := hb.resolve_right (by rw [hd]; exact Bool.false_ne_true)
      rw [if_neg (by omega)]
      simp [RamNode.byte, hd]
    | some d => simp [RamNode.byte, hd]
  · obtain ⟨nd, rfl⟩ := Option.isSome_iff_exists.mp (h.resolve_left hroom)
    rw [ramfsWrite, ramfsEnsureCap, if_neg hroom]
    refine ⟨_, rfl, Or.inr rfl, rfl, (if_neg hroom).symm, funext fun i => ?_⟩
    simp [overwrite, RamNode.byte, hroom]

/-- A write at the end of the file appends. -/
theorem contents_ramfsWrite (hb : n.cap = 0 ∨ n.data.isSome = true)
    (h : n.size + bytes.length ≤ n.cap ∨ mem.isSome = true) :
    ramfs.contents (some (ramfsWrite n n.size bytes mem).1) = ramfs.contents (some n) ++ bytes := by
  obtain ⟨n', heq, -, hsize, -, hbyte⟩ := ramfsWrite_accepted hb h
  rw [heq]
  show (range n'.size).map n'.byte = (range n.size).map n.byte ++ bytes
  rw [hsize, Nat.max_eq_right (Nat.le_add_right _ _)]
  apply ext_getElem
  · simp
  · intro p hp hp'
    rw [getElem_map, getElem_range, getElem_append, hbyte, overwrite]
    simp only [length_map, length_range, length_append] at hp hp' ⊢
    split
    case isTrue =>
      rw [dif_neg (by omega), getD, getElem?_eq_getElem (by omega), Option.getD_some]
    case isFalse =>
      rw [dif_pos (by omega), if_pos (.inl (by omega)), getElem_map, getElem_range]

end RamfsWrite

/-- `O_TRUNC` changes a file of a ramfs unless it is empty. -/
theorem ramfs_truncate_changes_iff (n : RamNode) :
    ramfs.contents (ramfs.truncate (some n) ()) ≠ ramfs.contents (some n) ↔ n.size ≠ 0 := by
  show [] ≠ (range n.size).map n.byte ↔ n.size ≠ 0
  rw [not_iff_not, eq_comm, map_eq_nil_iff, range_eq_nil]

/-- **A write alters a file of a ramfs** if there is room for it and it ends behind the file or
brings another byte. -/
theorem ramfs_alters_iff {n : RamNode} {off : ℕ} {m : Answers}
    (hb : n.cap = 0 ∨ n.data.isSome = true) : Alters ramfs (some n) () off bytes m ↔
      (off + bytes.length ≤ n.cap ∨ m.mem.isSome = true) ∧ (n.size < off + bytes.length ∨
        ∃ k, k < bytes.length ∧ n.byte (off + k) ≠ bytes.getD k 0) := by
  have halters : Alters ramfs (some n) () off bytes m ↔
      ramfs.contents (some (ramfsWrite n off bytes m.mem).1) ≠ ramfs.contents (some n) :=
    ⟨by rintro ⟨_, ⟨⟩, h⟩; exact h, fun h => ⟨_, rfl, h⟩⟩
  rw [halters]
  by_cases hroom : off + bytes.length ≤ n.cap ∨ m.mem.isSome = true
  swap
  · obtain ⟨hcap, hmem⟩ := not_or.mp hroom
    rw [Option.not_isSome_iff_eq_none.mp hmem, ramfsWrite_refused hcap]
    exact iff_of_false (fun h => h rfl) fun h => h.1.elim hcap (by simp)
  obtain ⟨n', heq, -, hsize, -, hbyte⟩ := ramfsWrite_accepted hb hroom
  rw [heq, and_iff_right hroom, ← not_iff_not, not_not, not_or, Nat.not_lt]
  show (range n'.size).map n'.byte = (range n.size).map n.byte ↔ _
  constructor
  · intro h
    have hle : off + bytes.length ≤ n.size := by
      have hlen := congrArg length h
      simp only [length_map, length_range] at hlen
      omega
    refine ⟨hle, ?_⟩
    rintro ⟨k, hk, hne⟩
    have hat := congrArg (·[off + k]?) h
    simp only [getElem?_map, getElem?_range (show off + k < n'.size by omega),
      getElem?_range (show off + k < n.size by omega), Option.map_some, Option.some.injEq] at hat
    rw [hbyte, overwrite, if_pos (by omega), Nat.add_sub_cancel_left] at hat
    exact hne hat.symm
  · rintro ⟨hle, hsame⟩
    rw [hsize, Nat.max_eq_left hle]
    refine map_congr_left fun i hi => ?_
    rw [hbyte, overwrite]
    split
    · by_contra hne
      refine hsame ⟨i - off, by omega, fun h => hne ?_⟩
      rw [← h, Nat.add_sub_cancel' (by omega)]
    · exact if_pos (.inl (mem_range.mp hi))

/-! ### axiomefs -/

/-- The volume, and the vnodes that the lookups have made so far. -/
structure AxNodes where
  volume : Axfs.Volume
  node : ℕ → Axfs.Vnode
  made : ℕ

/-- The file of an axiomefs volume under a path.  Every lookup makes a vnode of its own; `O_TRUNC`
empties that and leaves the inode alone. -/
def axiomefs (path : List UInt8) : FileSystem AxNodes ℕ Bool where
  lookup s :=
    (Axfs.axfsLookup s.volume s.volume.rootInodeBlock path).map fun n =>
      ({ s with node := update s.node s.made n, made := s.made + 1 }, s.made)
  create s c gate :=
    if gate = true then
      let r := Axfs.axfsCreate s.volume path .file (some (c.uid.toNat, c.gid.toNat))
      if r.2 = 0 then some { s with volume := r.1 } else none
    else none
  attr s k := ⟨(s.node k).uid, (s.node k).gid, (s.node k).mode⟩
  type s k := if (s.node k).type = .dir then .dir else .file
  size s k := (s.node k).size
  truncate s k := { s with node := update s.node k { s.node k with size := 0 } }
  write := some fun s k off bytes _ =>
    match Axfs.axfsWrite s.volume (s.node k) off (fun i => bytes.getD i 0) bytes.length with
    | none => (s, 0) -- it would leave its block, and is not followed further
    | some (v, n, w) => ({ s with volume := v, node := update s.node k n }, w)
  contents s :=
    match Axfs.axfsLookup s.volume s.volume.rootInodeBlock path with
    | none => []
    | some n => Axfs.axfsRead s.volume n 0 n.size
  lookup_contents := by
    intro s s' n h
    obtain ⟨node, -, heq⟩ := Option.map_eq_some_iff.mp h
    cases heq
    rfl

/-- `O_TRUNC` changes no file of axiomefs. -/
theorem axiomefs_open_changes_nothing (path : List UInt8) (s : State AxNodes ℕ) (c : Cred)
    (flags : OpenFlags) (slot : Option ℕ) (gate : Bool)
    (hfound : ((axiomefs path).lookup s.fs).isSome = true) :
    ¬Changes (axiomefs path) s (.openFile c flags slot gate) := by
  obtain ⟨⟨fs, n⟩, hlookup⟩ := Option.isSome_iff_exists.mp hfound
  rw [sysOpen_changes_iff hlookup]
  exact fun hall => hall.2.2.2.2 rfl

/-! ### Reading descriptors that write -/

/-- A process of an ordinary user. -/
def user : Cred := ⟨1000, 1000, 1000, 1000, 1000, 1000, .user, roleCaps .user, roleCaps .user, 0⟩

def readOnly : OpenFlags := ⟨false, false, false, false, false⟩

/-- A file of root with the byte `A` that everyone may read. -/
def rootFile : Option RamNode := some ⟨⟨0, 0, 0o644⟩, some fun _ => 65, 1, 64⟩

/-- A file of the user's own. -/
def ownFile : Option RamNode := some ⟨⟨1000, 1000, 0o644⟩, some fun _ => 65, 1, 64⟩

end AxiomeOS.Descriptor
