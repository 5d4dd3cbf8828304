import AxiomeOS.Security.Credentials

/-!
# The permission checks of the file system layer

`vfs_check_perms` compares the mode bits of a vnode with what the current thread asks for, in the
class the thread belongs to: owner, group or others.  A kernel thread that runs without a current
thread and the role `SYSTEM` pass every check.  `vfs_write` asks for a capability first
(`mayUseWrite`).
-/

namespace AxiomeOS.Security

open Bits

/-- What `vfs_check_perms` reads of a vnode: `v_uid`, `v_gid` and `v_mode`. -/
structure Attr where
  uid : ℕ
  gid : ℕ
  mode : ℕ
  deriving DecidableEq

/-- `VFS_MAY_READ`, `VFS_MAY_WRITE` and `VFS_MAY_EXEC`, any of them together. -/
structure Mask where
  read : Bool
  write : Bool
  exec : Bool

def vfsMayRead : Mask := ⟨true, false, false⟩
def vfsMayWrite : Mask := ⟨false, true, false⟩

/-- The three bits of one class, `shift` bits up, allow what is asked for. -/
def classAllows (mode shift : ℕ) (mask : Mask) : Bool :=
  (!mask.read || mode.testBit (shift + 2)) && (!mask.write || mode.testBit (shift + 1)) &&
    (!mask.exec || mode.testBit shift)

/-- `vfs_check_perms`, for the current thread if there is one: the access is allowed. -/
def vfsCheckPerms (cur : Option Cred) (n : Attr) (mask : Mask) : Bool :=
  match cur with
  | none => true
  | some t =>
    if t.role = .system then true
    else if t.euid.toNat = n.uid then classAllows n.mode 6 mask
    else if t.egid.toNat = n.gid then classAllows n.mode 3 mask
    else classAllows n.mode 0 mask

/-- The thread has one of the capabilities to write files. -/
def mayUseWrite (t : Cred) : Bool := flagSet t.capsEff (capFileWriteAny ||| capFileWriteSelf)

end AxiomeOS.Security
