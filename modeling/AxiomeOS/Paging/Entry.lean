import AxiomeOS.Lib.Bits

/-!
# Page-table entries and virtual addresses

The entry layout of `kernel/arch/x86_64/mmu.h` and the flag translation `to_x86_flags` of
`mmu.c`.  An entry is a 64-bit word; `frameOf` is the frame number in its address field
(`entry & X86_PTE_ADDR_MASK`, shifted down), and `pteEntry g flags` is the word `page | flags`
that the code stores for the frame `g`.

`X86_PTE_ADDR_MASK` keeps bits 12 to 51.  Bit 12 is also `X86_PTE_PAT_LARGE`, so on a large-page
entry with that bit set the mask does not recover the address: `frameOf` is odd there.

Virtual addresses are natural numbers below `2 ^ 64`; only bits 12 to 47 take part in a walk.
-/

namespace AxiomeOS.Paging

open Bits BitVec

/-! ### Entry bits -/

def x86PtePresent : U64 := 1#64 <<< 0
def x86PteWrite : U64 := 1#64 <<< 1
def x86PteUser : U64 := 1#64 <<< 2
def x86PtePwt : U64 := 1#64 <<< 3
def x86PtePcd : U64 := 1#64 <<< 4
/-- Bit 7 is `PS` in directory entries and `PAT` in leaf entries. -/
def x86PteHuge : U64 := 1#64 <<< 7
def x86PtePat : U64 := 1#64 <<< 7
def x86PteGlobal : U64 := 1#64 <<< 8
def x86PtePatLarge : U64 := 1#64 <<< 12
def x86PteNx : U64 := 1#64 <<< 63

/-- `X86_PTE_ADDR_MASK`. -/
def x86PteAddrMask : U64 := ((1#64 <<< 52) - 1) &&& ~~~0xFFF#64 &&& ~~~x86PteNx

/-- `entry & 0x1FF`: the nine low flag bits. -/
def lowFlags (e : U64) : U64 := e &&& 0x1FF#64

def isPresent (e : U64) : Bool := flagSet e x86PtePresent
def isWrite (e : U64) : Bool := flagSet e x86PteWrite
def isUser (e : U64) : Bool := flagSet e x86PteUser
def isHuge (e : U64) : Bool := flagSet e x86PteHuge
def isNx (e : U64) : Bool := flagSet e x86PteNx

theorem isPresent_eq (e : U64) : isPresent e = e.getLsbD 0 := flagSet_shift e 0 (by decide)
theorem isWrite_eq (e : U64) : isWrite e = e.getLsbD 1 := flagSet_shift e 1 (by decide)
theorem isUser_eq (e : U64) : isUser e = e.getLsbD 2 := flagSet_shift e 2 (by decide)
theorem isHuge_eq (e : U64) : isHuge e = e.getLsbD 7 := flagSet_shift e 7 (by decide)
theorem isNx_eq (e : U64) : isNx e = e.getLsbD 63 := flagSet_shift e 63 (by decide)

/-- The frame number in the address field of an entry. -/
def frameOf (e : U64) : ℕ := (e &&& x86PteAddrMask).toNat / 4096

theorem frameOf_eq (e : U64) : frameOf e = e.toNat / 4096 % 2 ^ 40 := by
  have hmask : x86PteAddrMask = BitVec.ofNat 64 (2 ^ 40 - 1) <<< 12 := by decide
  rw [frameOf, hmask, toNat_and_field e 12 40 (by decide),
    show (4096 : ℕ) = 2 ^ 12 by decide, Nat.mul_div_cancel _ (by decide)]

theorem frameOf_lt (e : U64) : frameOf e < 2 ^ 40 := by
  rw [frameOf_eq]
  exact Nat.mod_lt _ (by decide)

/-- `page | flags`, for the page in frame `g`. -/
def pteEntry (g : ℕ) (flags : U64) : U64 := BitVec.ofNat 64 (g * 4096) ||| flags

theorem getLsbD_pteEntry_low (g : ℕ) (flags : U64) (k : ℕ) (hk : k < 12) :
    (pteEntry g flags).getLsbD k = flags.getLsbD k := by
  rw [pteEntry, getLsbD_or, show (4096 : ℕ) = 2 ^ 12 by decide,
    getLsbD_ofNat_mul_low g 12 k hk, Bool.false_or]

theorem frameOf_pteEntry (g : ℕ) (hg : g < 2 ^ 40) (flags : U64)
    (hflags : flags &&& x86PteAddrMask = 0#64) : frameOf (pteEntry g flags) = g := by
  have hand : pteEntry g flags &&& x86PteAddrMask
      = BitVec.ofNat 64 (g * 4096) &&& x86PteAddrMask := by
    rw [pteEntry, BitVec.and_or_distrib_right, hflags, BitVec.or_zero]
  have hframe : frameOf (pteEntry g flags) = frameOf (BitVec.ofNat 64 (g * 4096)) := by
    rw [frameOf, frameOf, hand]
  rw [hframe, frameOf_eq, toNat_ofNat]
  omega

theorem isPresent_pteEntry (g : ℕ) (flags : U64) :
    isPresent (pteEntry g flags) = isPresent flags := by
  rw [isPresent_eq, isPresent_eq, getLsbD_pteEntry_low g flags 0 (by decide)]

theorem isHuge_pteEntry (g : ℕ) (flags : U64) : isHuge (pteEntry g flags) = isHuge flags := by
  rw [isHuge_eq, isHuge_eq, getLsbD_pteEntry_low g flags 7 (by decide)]

theorem isUser_pteEntry (g : ℕ) (flags : U64) : isUser (pteEntry g flags) = isUser flags := by
  rw [isUser_eq, isUser_eq, getLsbD_pteEntry_low g flags 2 (by decide)]

theorem isWrite_pteEntry (g : ℕ) (flags : U64) : isWrite (pteEntry g flags) = isWrite flags := by
  rw [isWrite_eq, isWrite_eq, getLsbD_pteEntry_low g flags 1 (by decide)]

theorem isNx_pteEntry (g : ℕ) (hg : g < 2 ^ 40) (flags : U64) :
    isNx (pteEntry g flags) = isNx flags := by
  rw [isNx_eq, isNx_eq, pteEntry, getLsbD_or,
    getLsbD_ofNat_high (g * 4096) 52 (by omega) 63 (by decide), Bool.false_or]

/-- The flags of a table entry that `walk_page` creates. -/
def tableFlags : U64 := x86PtePresent ||| x86PteWrite ||| x86PteUser

/-- `old & 0x1FF & ~X86_PTE_HUGE`: the flags an upper-level entry keeps. -/
def dirFlags (old : U64) : U64 := lowFlags old &&& ~~~x86PteHuge

section

variable (e : U64) (k : ℕ)

theorem lowFlags_and_addrMask : lowFlags e &&& x86PteAddrMask = 0#64 := by
  rw [lowFlags, BitVec.and_assoc, show 0x1FF#64 &&& x86PteAddrMask = 0#64 by decide,
    BitVec.and_zero]

theorem dirFlags_and_addrMask : dirFlags e &&& x86PteAddrMask = 0#64 := by
  rw [dirFlags, BitVec.and_assoc, BitVec.and_comm (~~~x86PteHuge), ← BitVec.and_assoc,
    lowFlags_and_addrMask, BitVec.zero_and]

theorem getLsbD_lowFlags (hk : k < 9) : (lowFlags e).getLsbD k = e.getLsbD k := by
  have hmask : (0x1FF#64).getLsbD k = true := by
    rw [show 0x1FF#64 = BitVec.ofNat 64 (2 ^ 9 - 1) by decide, BitVec.getLsbD_ofNat,
      Nat.testBit_two_pow_sub_one]
    simp [hk, show k < 64 by omega]
  rw [lowFlags, getLsbD_and, hmask, Bool.and_true]

theorem isNx_lowFlags : isNx (lowFlags e) = false := by
  rw [isNx_eq, lowFlags, getLsbD_and, show (0x1FF#64).getLsbD 63 = false by decide,
    Bool.and_false]

theorem isNx_dirFlags : isNx (dirFlags e) = false := by
  rw [isNx_eq, dirFlags, getLsbD_and, ← isNx_eq, isNx_lowFlags, Bool.false_and]

theorem getLsbD_dirFlags (hk : k < 9) (hbit : (~~~x86PteHuge).getLsbD k = true) :
    (dirFlags e).getLsbD k = e.getLsbD k := by
  rw [dirFlags, getLsbD_and, getLsbD_lowFlags e k hk, hbit, Bool.and_true]

theorem isPresent_dirFlags : isPresent (dirFlags e) = isPresent e := by
  rw [isPresent_eq, isPresent_eq, getLsbD_dirFlags e 0 (by decide) (by decide)]

theorem rights_dirFlags : isWrite (dirFlags e) = isWrite e ∧ isUser (dirFlags e) = isUser e := by
  simp (disch := decide) only [isWrite_eq, isUser_eq, getLsbD_dirFlags, and_true]

theorem rights_lowFlags : isPresent (lowFlags e) = isPresent e ∧
    isWrite (lowFlags e) = isWrite e ∧ isUser (lowFlags e) = isUser e := by
  simp (disch := decide) only [isPresent_eq, isWrite_eq, isUser_eq, getLsbD_lowFlags, and_true]

theorem isHuge_dirFlags : isHuge (dirFlags e) = false := by
  rw [isHuge_eq, dirFlags, getLsbD_and]
  simp [x86PteHuge]

end

/-! ### Portable page flags (`vmm.h`) and their translation -/

abbrev MmuFlags := BitVec 32

def mmuWrite : MmuFlags := 1#32 <<< 0
def mmuUser : MmuFlags := 1#32 <<< 1
def mmuNx : MmuFlags := 1#32 <<< 2
def mmuHuge : MmuFlags := 1#32 <<< 3
def mmuGlobal : MmuFlags := 1#32 <<< 4
def mmuUncached : MmuFlags := 1#32 <<< 5
def mmuWc : MmuFlags := 1#32 <<< 6

/-- The two PAT variables of `mmu.c`. -/
structure PatState where
  available : Bool
  initialized : Bool
  deriving DecidableEq, Repr

/-- `to_x86_flags`. -/
def toX86Flags (pat : PatState) (flags : MmuFlags) : U64 :=
  let x := x86PtePresent
  let x := if flagSet flags mmuWrite then x ||| x86PteWrite else x
  let x := if flagSet flags mmuUser then x ||| x86PteUser else x
  let x := if flagSet flags mmuHuge then x ||| x86PteHuge else x
  let x := if flagSet flags mmuGlobal then x ||| x86PteGlobal else x
  let x :=
    if flagSet flags mmuWc then
      if pat.available || !pat.initialized then
        if flagSet flags mmuHuge then x ||| x86PtePatLarge else x ||| x86PtePat
      else x ||| (x86PtePwt ||| x86PtePcd)
    else x
  let x := if flagSet flags mmuUncached then x ||| (x86PtePwt ||| x86PtePcd) else x
  if flagSet flags mmuNx then x ||| x86PteNx else x

/-! ### Virtual addresses -/

def idx4 (virt : ℕ) : ℕ := virt / 2 ^ 39 % 512
def idx3 (virt : ℕ) : ℕ := virt / 2 ^ 30 % 512
def idx2 (virt : ℕ) : ℕ := virt / 2 ^ 21 % 512
def idx1 (virt : ℕ) : ℕ := virt / 2 ^ 12 % 512

theorem idx4_lt (virt : ℕ) : idx4 virt < 512 := Nat.mod_lt _ (by decide)
theorem idx3_lt (virt : ℕ) : idx3 virt < 512 := Nat.mod_lt _ (by decide)
theorem idx2_lt (virt : ℕ) : idx2 virt < 512 := Nat.mod_lt _ (by decide)
theorem idx1_lt (virt : ℕ) : idx1 virt < 512 := Nat.mod_lt _ (by decide)

/-- The 36-bit page number that a walk uses. -/
def pageOf (virt : ℕ) : ℕ := virt / 4096 % 2 ^ 36

end AxiomeOS.Paging
