import AxiomeOS.Paging.Walk

/-!
# The processor's page walk

What the page tables mean to the processor, independently of the code that edits them.  A walk
visits one entry a level, from the top, and stops at an entry that is not present or that maps a
large page; `walkEntries` is the list of entries it visits.  The access rights of a page are
combined over the whole list: writable and user-accessible need the bit at **every** level, and
no-execute holds when **some** level sets it.  Bit 7 of a top-level entry is reserved, so a walk
that finds it set faults.
-/

namespace AxiomeOS.Paging

open Bits

variable {m : Machine}

/-- The entries visited from the table in frame `f` on, given one index a level. -/
def pathFrom (m : Machine) : List ℕ → ℕ → List U64
  | [], _ => []
  | i :: is, f =>
    let e := m.mem f i
    e :: if isPresent e && !isHuge e then pathFrom m is (frameOf e) else []

theorem pathFrom_go {f i : ℕ} (hp : isPresent (m.mem f i) = true)
    (hh : isHuge (m.mem f i) = false) (is : List ℕ) :
    pathFrom m (i :: is) f = m.mem f i :: pathFrom m is (frameOf (m.mem f i)) := by
  simp [pathFrom, hp, hh]

theorem pathFrom_last (m : Machine) (f i : ℕ) : pathFrom m [i] f = [m.mem f i] := by
  simp [pathFrom]

variable {f i : ℕ} {is : List ℕ} {e : U64}

/-- A walk that goes on after an entry follows it. -/
theorem pathFrom_next {e' : U64} {es : List U64} (h : pathFrom m (i :: is) f = e :: e' :: es) :
    m.mem f i = e ∧ isPresent e = true ∧ isHuge e = false ∧
      pathFrom m is (frameOf e) = e' :: es := by
  obtain ⟨rfl, hes⟩ := List.cons.inj h
  split at hes
  next hgo =>
    rw [Bool.and_eq_true, Bool.not_eq_true'] at hgo
    exact ⟨rfl, hgo.1, hgo.2, hes⟩
  next => cases hes

/-- A walk that stops above the last level at a present entry has reached a large page. -/
theorem pathFrom_end {i' : ℕ} (h : pathFrom m (i :: i' :: is) f = [e]) (hp : isPresent e = true) :
    m.mem f i = e ∧ isHuge e = true := by
  obtain ⟨rfl, hnil⟩ := List.cons.inj h
  rw [hp] at hnil
  cases hh : isHuge (m.mem f i) with
  | true => exact ⟨rfl, rfl⟩
  | false => rw [hh] at hnil; cases hnil

/-- The four table indices of an address, from the top. -/
def tableIndices (virt : ℕ) : List ℕ := [idx4 virt, idx3 virt, idx2 virt, idx1 virt]

/-- The entries that a walk of `virt` visits. -/
def walkEntries (m : Machine) (root virt : ℕ) : List U64 := pathFrom m (tableIndices virt) root

theorem walkEntries_ne_nil (m : Machine) (root virt : ℕ) : walkEntries m root virt ≠ [] := by
  simp [walkEntries, tableIndices, pathFrom]

/-- The entry at which the walk stops. -/
def leafEntry (m : Machine) (root virt : ℕ) : U64 := (walkEntries m root virt).getLastD 0#64

/-- The entries above it. -/
def upperEntries (m : Machine) (root virt : ℕ) : List U64 := (walkEntries m root virt).dropLast

theorem upperEntries_append_leaf (m : Machine) (root virt : ℕ) :
    upperEntries m root virt ++ [leafEntry m root virt] = walkEntries m root virt := by
  have hne := walkEntries_ne_nil m root virt
  rw [upperEntries, leafEntry, List.getLastD_eq_getLast?, List.getLast?_eq_some_getLast hne]
  exact List.dropLast_concat_getLast hne

theorem pathFrom_getLastD (m : Machine) (i : ℕ) (is : List ℕ) (f : ℕ) (d : U64) :
    (pathFrom m (i :: is) f).getLastD d =
      if isPresent (m.mem f i) && !isHuge (m.mem f i) then
        (pathFrom m is (frameOf (m.mem f i))).getLastD (m.mem f i)
      else m.mem f i := by
  simp only [pathFrom, List.getLastD_cons]
  split <;> rfl

/-- The reserved bit of the top-level entry is set. -/
def topReserved (m : Machine) (root virt : ℕ) : Bool := isHuge (m.mem root (idx4 virt))

/-- A page as the processor sees it. -/
structure HwPage where
  frame : ℕ
  write : Bool
  user : Bool
  nx : Bool
  deriving DecidableEq, Repr

/-- The frame in which `virt` lies, by the size of the page the walk ends in. -/
def pathFrame (virt : ℕ) : List U64 → ℕ
  | [_, e3] => frameOf e3 / 2 ^ 18 * 2 ^ 18 + virt / 4096 % 2 ^ 18
  | [_, _, e2] => frameOf e2 / 512 * 512 + idx1 virt
  | [_, _, _, e1] => frameOf e1
  | _ => 0

/-- **The page walk.**  `none` when the walk faults. -/
def hwWalk (m : Machine) (root virt : ℕ) : Option HwPage :=
  let path := walkEntries m root virt
  if path.all isPresent && !topReserved m root virt then
    some
      { frame := pathFrame virt path
        write := path.all isWrite
        user := path.all isUser
        nx := path.any isNx }
  else none

theorem hwWalk_eq_some {root virt : ℕ} {pg : HwPage} : hwWalk m root virt = some pg ↔
      (walkEntries m root virt).all isPresent = true ∧ topReserved m root virt = false ∧
        pg = ⟨pathFrame virt (walkEntries m root virt), (walkEntries m root virt).all isWrite,
          (walkEntries m root virt).all isUser, (walkEntries m root virt).any isNx⟩ := by
  simp only [hwWalk]
  split
  · rename_i h
    rw [Bool.and_eq_true, Bool.not_eq_true'] at h
    rw [Option.some.injEq, eq_comm]
    exact ⟨fun heq => ⟨h.1, h.2, heq⟩, fun heq => heq.2.2⟩
  · rename_i h
    rw [Bool.and_eq_true, Bool.not_eq_true'] at h
    exact ⟨nofun, fun heq => absurd ⟨heq.1, heq.2.1⟩ h⟩

theorem hwWalk_eq_none {root virt : ℕ} : hwWalk m root virt = none ↔
      ¬ ((walkEntries m root virt).all isPresent = true ∧ topReserved m root virt = false) := by
  rw [Option.eq_none_iff_forall_ne_some]
  constructor
  · intro h hmapped
    exact h _ (hwWalk_eq_some.mpr ⟨hmapped.1, hmapped.2, rfl⟩)
  · intro h pg heq
    obtain ⟨hp, hr, -⟩ := hwWalk_eq_some.mp heq
    exact h ⟨hp, hr⟩

/-- The frame that a walk through all the given indices ends in. -/
def endFrame (m : Machine) : List ℕ → ℕ → ℕ
  | [], f => f
  | i :: is, f => endFrame m is (frameOf (m.mem f i))

theorem pathFrom_length_endFrame (m : Machine) (is : List ℕ) :
    ∀ f d, is ≠ [] → (pathFrom m is f).length = is.length →
      frameOf ((pathFrom m is f).getLastD d) = endFrame m is f := by
  induction is with
  | nil => intro f d hne _; exact absurd rfl hne
  | cons i is ih =>
    intro f d _ hlen
    rw [pathFrom_getLastD, endFrame]
    simp only [pathFrom, List.length_cons, Nat.succ.injEq] at hlen
    cases is with
    | nil => simp [pathFrom, endFrame]
    | cons j is =>
      split at hlen
      · rename_i hgo
        rw [if_pos hgo]
        exact ih _ _ (by simp) (by omega)
      · simp at hlen

theorem pathFrame_of_length {root virt : ℕ} (h : (walkEntries m root virt).length = 4) :
    pathFrame virt (walkEntries m root virt) = endFrame m (tableIndices virt) root := by
  rw [← pathFrom_length_endFrame m (tableIndices virt) root 0#64 (by simp [tableIndices]) h]
  change (walkEntries m root virt).length = 4 at h
  change pathFrame virt (walkEntries m root virt) = frameOf ((walkEntries m root virt).getLastD _)
  match hpath : walkEntries m root virt, h with
  | [_, _, _, _], _ => rfl

theorem tableIndices_lt (virt : ℕ) : ∀ i ∈ tableIndices virt, i < 512 := by
  simp [tableIndices, idx4_lt, idx3_lt, idx2_lt, idx1_lt]

/-- The entry lets user code read, and write when that is asked for. -/
def allows (write : Bool) (e : U64) : Bool := isPresent e && isUser e && (!write || isWrite e)

/-- User code may access `virt`: the address is in the canonical lower half, and every level of
the walk allows it. -/
def hwGrants (m : Machine) (root virt : ℕ) (write : Bool) : Bool :=
  decide (virt < 2 ^ 47) && !topReserved m root virt && (walkEntries m root virt).all (allows write)

theorem hwGrants_iff (m : Machine) (root virt : ℕ) (write : Bool) :
    hwGrants m root virt write = true ↔
      virt < 2 ^ 47 ∧ topReserved m root virt = false ∧
        (upperEntries m root virt).all (allows write) = true ∧
        allows write (leafEntry m root virt) = true := by
  rw [hwGrants, ← upperEntries_append_leaf]
  simp [and_assoc]

theorem tableIndices_congr {a b : ℕ} (h : a / 4096 = b / 4096) :
    tableIndices a = tableIndices b := by
  have hdiv : ∀ k, a / (4096 * k) = b / (4096 * k) := fun k => by
    rw [← Nat.div_div_eq_div_mul, ← Nat.div_div_eq_div_mul, h]
  simp only [tableIndices, idx4, idx3, idx2, idx1]
  rw [show (2 : ℕ) ^ 39 = 4096 * 2 ^ 27 by decide, show (2 : ℕ) ^ 30 = 4096 * 2 ^ 18 by decide,
    show (2 : ℕ) ^ 21 = 4096 * 2 ^ 9 by decide, show (2 : ℕ) ^ 12 = 4096 * 1 by decide,
    hdiv, hdiv, hdiv, hdiv]

/-- Sixteen frames, the first eight in use. -/
def halfUsed : Frames.Pmm := ⟨16, fun f => decide (f < 8), 8, 0, by decide⟩

/-- A machine with one page mapped at `virt`: tables in frames 1 to 4 and the page in frame 5.
`top` and `leaf` are the flags of the first and of the last entry of its walk. -/
def onePage (virt : ℕ) (top leaf : U64) : Machine where
  mem f i :=
    if f = 1 ∧ i = idx4 virt then pteEntry 2 top
    else if f = 2 ∧ i = idx3 virt then pteEntry 3 tableFlags
    else if f = 3 ∧ i = idx2 virt then pteEntry 4 tableFlags
    else if f = 4 ∧ i = idx1 virt then pteEntry 5 leaf
    else 0#64
  pmm := halfUsed
  kernelRoot := 1
  pat := ⟨true, true⟩

end AxiomeOS.Paging
