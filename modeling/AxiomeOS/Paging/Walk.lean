import AxiomeOS.Paging.Entry
import AxiomeOS.Pmm

/-!
# Walking and changing page tables

The page-table operations of `kernel/arch/x86_64/mmu.c`.  Physical memory is a function from a
frame number and a word index to a 64-bit word; page tables live in it like everything else, and
physical addresses of page tables double as kernel virtual addresses, so a table is named by its
frame number.  A root handle is the frame of a top-level table, 0 being the null pointer, which
stands for the kernel root.

`walk_page` repeats one step three times: split a large-page entry (from the second level on),
create a missing table, follow the entry.  That step is `descend`.  All C functions that return
`0` or `-1` answer a `Bool` here, `true` for `0`.  The TLB is not modelled: every path that must
flush it does.

`descend_cases` says once what a step can do to the machine: nothing, spend an allocation that
failed, or *link* a fresh table into one entry.
-/

namespace AxiomeOS.Paging

open Bits Frames

/-- The memory, the frame allocator and the static variables of the MMU code. -/
structure Machine where
  mem : ℕ → ℕ → U64
  pmm : Pmm
  kernelRoot : ℕ
  pat : PatState

/-- Store one word. -/
def Machine.setWord (m : Machine) (f i : ℕ) (w : U64) : Machine :=
  { m with mem := fun f' i' => if f' = f ∧ i' = i then w else m.mem f' i' }

/-- Fill a whole frame. -/
def Machine.setFrame (m : Machine) (g : ℕ) (c : ℕ → U64) : Machine :=
  { m with mem := fun f' i' => if f' = g then c i' else m.mem f' i' }

/-- `if (!root) root = kernel_root`. -/
def Machine.root (m : Machine) (root : ℕ) : ℕ := if root = 0 then m.kernelRoot else root

/-! ### The operations -/

/-- The flags `split_huge` gives the small pages: those of the large page without `PS` and
`GLOBAL`, with the large-page PAT bit moved to its small-page place, and `NX` kept. -/
def splitFlags (old : U64) : U64 :=
  let flags := lowFlags old
  let flags := flags &&& ~~~x86PteHuge
  let flags := flags &&& ~~~x86PteGlobal
  let flags := if flagSet old x86PtePatLarge then flags ||| x86PtePat else flags
  if flagSet old x86PteNx then flags ||| x86PteNx else flags

/-- `split_huge`, on the entry `i` of the table in frame `f`. -/
def splitHuge (m : Machine) (f i : ℕ) : Machine × Bool :=
  let old := m.mem f i
  if !isPresent old then (m, false)
  else if !isHuge old then (m, true)
  else
    let (p, page) := pmmAllocFrame m.pmm
    let m := { m with pmm := p }
    if page = 0 then (m, false)
    else
      let m := m.setFrame page fun k => pteEntry (frameOf old + k) (splitFlags old)
      (m.setWord f i (pteEntry page (dirFlags old)), true)

/-- The part of `walk_page` that creates a missing table below entry `i` of frame `f`. -/
def ensureTable (m : Machine) (f i : ℕ) (alloc : Bool) : Machine × Bool :=
  if isPresent (m.mem f i) then (m, true)
  else if !alloc then (m, false)
  else
    let (p, page) := pmmAllocFrame m.pmm
    let m := { m with pmm := p }
    if page = 0 then (m, false)
    else
      let m := m.setFrame page fun _ => 0#64
      (m.setWord f i (pteEntry page tableFlags), true)

/-- One level of `walk_page`: split (when this level checks for large pages), create, follow. -/
def descend (m : Machine) (f i : ℕ) (checkHuge alloc : Bool) : Machine × Option ℕ :=
  let (m, ok) := if checkHuge && isHuge (m.mem f i) then splitHuge m f i else (m, true)
  if !ok then (m, none)
  else
    let (m, ok) := ensureTable m f i alloc
    if ok then (m, some (frameOf (m.mem f i))) else (m, none)

/-- `walk_page`: the place of the leaf entry of `virt`, as a table frame and an index. -/
def walkPage (m : Machine) (root virt : ℕ) (alloc : Bool) : Machine × Option (ℕ × ℕ) :=
  match descend m (m.root root) (idx4 virt) false alloc with
  | (m, none) => (m, none)
  | (m, some pdp) =>
    match descend m pdp (idx3 virt) true alloc with
    | (m, none) => (m, none)
    | (m, some pd) =>
      match descend m pd (idx2 virt) true alloc with
      | (m, none) => (m, none)
      | (m, some pt) => (m, some (pt, idx1 virt))

/-- The word that `mmu_map` stores: `(phys & X86_PTE_ADDR_MASK) | to_x86_flags(flags)`. -/
def mapEntry (pat : PatState) (phys : ℕ) (flags : MmuFlags) : U64 :=
  (BitVec.ofNat 64 phys &&& x86PteAddrMask) ||| toX86Flags pat flags

/-- `mmu_map`. -/
def mmuMap (m : Machine) (root virt phys : ℕ) (flags : MmuFlags) : Machine × Bool :=
  match walkPage m root virt true with
  | (m, none) => (m, false)
  | (m, some (t, i)) =>
    if isPresent (m.mem t i) then (m, false)
    else (m.setWord t i (mapEntry m.pat phys flags), true)

/-- `mmu_unmap`. -/
def mmuUnmap (m : Machine) (root virt : ℕ) : Machine × Bool :=
  match walkPage m root virt false with
  | (m, none) => (m, false)
  | (m, some (t, i)) =>
    if isPresent (m.mem t i) then (m.setWord t i 0#64, true) else (m, false)

/-- `mmu_virt_to_phys`. -/
def mmuVirtToPhys (m : Machine) (root virt : ℕ) : Machine × ℕ :=
  match walkPage m root virt false with
  | (m, none) => (m, 0)
  | (m, some (t, i)) =>
    if isPresent (m.mem t i) then (m, frameOf (m.mem t i) * 4096 + virt % 4096) else (m, 0)

/-- `mmu_protect`. -/
def mmuProtect (m : Machine) (root virt : ℕ) (flags : MmuFlags) : Machine × Bool :=
  match walkPage m root virt false with
  | (m, none) => (m, false)
  | (m, some (t, i)) =>
    if isPresent (m.mem t i) then
      (m.setWord t i (pteEntry (frameOf (m.mem t i)) (toX86Flags m.pat flags)), true)
    else (m, false)

/-! ### What one step can do -/

/-- The machine after a fresh table `g` with contents `c` was allocated (leaving the allocator
in state `p`) and linked into entry `i` of frame `f` by the word `e`. -/
def Machine.link (m : Machine) (p : Pmm) (g : ℕ) (c : ℕ → U64) (f i : ℕ) (e : U64) : Machine :=
  (({ m with pmm := p } : Machine).setFrame g c).setWord f i e

/-- The allocator handed out `g`: it was free, it is used now, and no other bit moved. -/
structure Allocated (p p' : Pmm) (g : ℕ) : Prop where
  ne_zero : g ≠ 0
  lt : g < p.totalFrames
  free : p.used g = false
  used : p'.used = Function.update p.used g true
  total : p'.totalFrames = p.totalFrames

variable {p : Pmm} {m : Machine} {f i : ℕ}

theorem Allocated.lt_field {p' : Pmm} {g : ℕ} (h : Allocated p p' g) : g < 2 ^ 40 :=
  Nat.lt_of_lt_of_le h.lt p.bounded

/-- An allocation that was answered with the null pointer marks at most frame 0. -/
structure Spent (p p' : Pmm) : Prop where
  used : ∀ f, p.used f = true → p'.used f = true
  free : ∀ f, f ≠ 0 → p'.used f = p.used f
  total : p'.totalFrames = p.totalFrames

theorem Spent.rfl' (p : Pmm) : Spent p p := ⟨fun _ h => h, fun _ _ => rfl, rfl⟩

theorem pmmAllocFrame_spent (h : (pmmAllocFrame p).2 = 0) : Spent p (pmmAllocFrame p).1 := by
  rcases pmmAllocFrame_cases p with heq | ⟨-, -, hused, htotal⟩
  · rw [heq]
    exact .rfl' p
  · rw [h] at hused
    refine ⟨fun f hf => ?_, fun f hf => ?_, htotal⟩
    · rw [hused]
      by_cases hf0 : f = 0
      · subst hf0; simp
      · rw [Function.update_of_ne hf0]; exact hf
    · rw [hused, Function.update_of_ne hf]

theorem pmmAllocFrame_allocated (h : (pmmAllocFrame p).2 ≠ 0) :
    Allocated p (pmmAllocFrame p).1 (pmmAllocFrame p).2 := by
  rcases pmmAllocFrame_cases p with heq | ⟨hlt, hfree, hused, htotal⟩
  · rw [heq] at h
    exact absurd rfl h
  · exact ⟨h, hlt, hfree, hused, htotal⟩

/-- What a link puts into the machine: a zeroed table below an entry that was not present, or the
512 small pages of a large-page entry. -/
inductive LinkKind (old : U64) (g : ℕ) : (ℕ → U64) → U64 → Prop
  | table (h : isPresent old = false) :
      LinkKind old g (fun _ => 0#64) (pteEntry g tableFlags)
  | split (hp : isPresent old = true) (hh : isHuge old = true) :
      LinkKind old g (fun k => pteEntry (frameOf old + k) (splitFlags old))
        (pteEntry g (dirFlags old))

/-- Splitting a large-page entry fails with the memory untouched, or links the small pages. -/
theorem splitHuge_cases (m : Machine) (f i : ℕ) (hh : isHuge (m.mem f i) = true) :
    (∃ p, Spent m.pmm p ∧ splitHuge m f i = ({ m with pmm := p }, false)) ∨
      (isPresent (m.mem f i) = true ∧ ∃ p g c e, Allocated m.pmm p g ∧
        LinkKind (m.mem f i) g c e ∧ isPresent e = true ∧ frameOf e = g ∧
        splitHuge m f i = (m.link p g c f i e, true)) := by
  cases hp : isPresent (m.mem f i) with
  | false => exact .inl ⟨m.pmm, .rfl' _, by simp [splitHuge, hp]⟩
  | true =>
    by_cases hz : (pmmAllocFrame m.pmm).2 = 0
    · exact .inl ⟨(pmmAllocFrame m.pmm).1, pmmAllocFrame_spent hz, by simp [splitHuge, hp, hh, hz]⟩
    · have halloc := pmmAllocFrame_allocated hz
      refine .inr ⟨rfl, (pmmAllocFrame m.pmm).1, (pmmAllocFrame m.pmm).2, _, _, halloc,
        .split hp hh, ?_, ?_, by simp [splitHuge, hp, hh, hz, Machine.link]⟩
      · rw [isPresent_pteEntry, isPresent_dirFlags, hp]
      · exact frameOf_pteEntry _ halloc.lt_field _ (dirFlags_and_addrMask _)

/-- Creating a table does nothing below a present entry; else it fails with the memory
untouched, or links a zeroed table. -/
theorem ensureTable_cases (m : Machine) (f i : ℕ) (alloc : Bool) :
    (isPresent (m.mem f i) = true ∧ ensureTable m f i alloc = (m, true)) ∨
      (isPresent (m.mem f i) = false ∧
        ((∃ p, Spent m.pmm p ∧ ensureTable m f i alloc = ({ m with pmm := p }, false)) ∨
          (alloc = true ∧ ∃ p g c e, Allocated m.pmm p g ∧ LinkKind (m.mem f i) g c e ∧
            frameOf e = g ∧ ensureTable m f i alloc = (m.link p g c f i e, true)))) := by
  cases hp : isPresent (m.mem f i) with
  | true => exact .inl ⟨rfl, by simp [ensureTable, hp]⟩
  | false =>
    refine .inr ⟨rfl, ?_⟩
    cases alloc with
    | false => exact .inl ⟨m.pmm, .rfl' _, by simp [ensureTable, hp]⟩
    | true =>
      by_cases hz : (pmmAllocFrame m.pmm).2 = 0
      · exact .inl ⟨(pmmAllocFrame m.pmm).1, pmmAllocFrame_spent hz, by simp [ensureTable, hp, hz]⟩
      · have halloc := pmmAllocFrame_allocated hz
        refine .inr ⟨rfl, (pmmAllocFrame m.pmm).1, (pmmAllocFrame m.pmm).2, _, _, halloc,
          .table hp, ?_, by simp [ensureTable, hp, hz, Machine.link]⟩
        exact frameOf_pteEntry _ halloc.lt_field _ (by decide)

theorem link_mem_slot (m : Machine) (p : Pmm) (g : ℕ) (c : ℕ → U64) (f i : ℕ) (e : U64) :
    (m.link p g c f i e).mem f i = e := by
  simp [Machine.link, Machine.setWord]

/-- **One step of a walk, inverted.**  The step fails with the memory untouched; or it follows an
entry that is present (and not a large page, where that is checked); or it links a fresh table
into the entry and follows it. -/
theorem descend_cases (m : Machine) (f i : ℕ) (checkHuge alloc : Bool) :
    (∃ p, Spent m.pmm p ∧ descend m f i checkHuge alloc = ({ m with pmm := p }, none)) ∨
      (isPresent (m.mem f i) = true ∧ (checkHuge = true → isHuge (m.mem f i) = false) ∧
        descend m f i checkHuge alloc = (m, some (frameOf (m.mem f i)))) ∨
      ∃ p g c e, Allocated m.pmm p g ∧ LinkKind (m.mem f i) g c e ∧
        (isPresent (m.mem f i) = true → checkHuge = true) ∧
        (isPresent (m.mem f i) = false → alloc = true) ∧
        descend m f i checkHuge alloc = (m.link p g c f i e, some g) := by
  by_cases hsplit : (checkHuge && isHuge (m.mem f i)) = true
  · obtain ⟨hcheck, hh⟩ := Bool.and_eq_true_iff.mp hsplit
    rcases splitHuge_cases m f i hh with ⟨p, hp, heq⟩ | ⟨hpres, p, g, c, e, ha, hk, hep, hef, heq⟩
    · exact .inl ⟨p, hp, by simp [descend, hcheck, hh, heq]⟩
    · refine .inr (.inr ⟨p, g, c, e, ha, hk, fun _ => hcheck, by simp [hpres], ?_⟩)
      simp [descend, hcheck, hh, heq, ensureTable, link_mem_slot, hep, hef]
  · have hstart : (if checkHuge && isHuge (m.mem f i) then splitHuge m f i else (m, true))
        = (m, true) := if_neg hsplit
    have hnh : checkHuge = true → isHuge (m.mem f i) = false := by
      intro hc
      simpa [hc] using hsplit
    rcases ensureTable_cases m f i alloc with ⟨hp, heq⟩ | ⟨hp, hrest⟩
    · exact .inr (.inl ⟨hp, hnh, by simp only [descend, hstart, heq]; rfl⟩)
    · rcases hrest with ⟨p, hs, heq⟩ | ⟨halloc, p, g, c, e, ha, hk, hef, heq⟩
      · exact .inl ⟨p, hs, by simp only [descend, hstart, heq]; rfl⟩
      · refine .inr (.inr ⟨p, g, c, e, ha, hk, by simp [hp], fun _ => halloc, ?_⟩)
        simp only [descend, hstart, heq, link_mem_slot, hef]
        rfl

theorem descend_follow (hp : isPresent (m.mem f i) = true)
    {checkHuge : Bool} (hh : checkHuge = true → isHuge (m.mem f i) = false) (alloc : Bool) :
    descend m f i checkHuge alloc = (m, some (frameOf (m.mem f i))) := by
  cases checkHuge with
  | false => simp [descend, ensureTable, hp]
  | true => simp [descend, ensureTable, hp, hh rfl]

theorem descend_split (hp : isPresent (m.mem f i) = true)
    (hh : isHuge (m.mem f i) = true) (hfree : (pmmAllocFrame m.pmm).2 ≠ 0) (alloc : Bool) :
    ∃ p g c e, Allocated m.pmm p g ∧ LinkKind (m.mem f i) g c e ∧
      descend m f i true alloc = (m.link p g c f i e, some g) := by
  have ha := pmmAllocFrame_allocated hfree
  refine ⟨_, _, _, _, ha, .split hp hh, ?_⟩
  have hf := frameOf_pteEntry _ ha.lt_field _ (dirFlags_and_addrMask (m.mem f i))
  simp [descend, splitHuge, hp, hh, hfree, ensureTable, Machine.link, Machine.setWord, hf,
    isPresent_pteEntry, isPresent_dirFlags]

end AxiomeOS.Paging
