import AxiomeOS.Lib.Runs
import AxiomeOS.Paging.Ranges
import Mathlib.Data.Fintype.Card
import Mathlib.Data.Int.Notation

/-!
# Shared memory

`sys_shm_create` takes frames in a row for an object of any size; `sys_shm_attach` maps them into
the address space of the caller, at an address that depends on the id only: the objects have slots
of 2 MiB each.

The calls work below the top-level entries 2 to 255, which are a process's own (`userEntry`); of the
others a process may share whatever tables it likes (`Private`).  The frames of the machine are
fewer than 2 ^ 34, which is 64 TiB, so that no object reaches beyond those entries.

`mmu_map` refuses a page that is mapped.  So two objects that a process has attached never overlap,
and each page is that of its own object (`OwnRanges`).  But an object that is larger than its slot
reaches into the next one, and the pages that were mapped when an attach gives up stay mapped:
`shm_attach_iff` says exactly when an attach keeps what it promises.
-/

namespace AxiomeOS.Shm

open Bits Frames Paging Runs Function List

variable {s : State} {root : ℕ} {m : Machine}

def shmBase : ℕ := 0x50000000000
def shmSlot : ℕ := 0x200000

/-- `struct shm_obj`, of a slot in use. -/
structure ShmObj where
  id : ℕ
  phys : ℕ
  pages : ℕ
  deriving DecidableEq

/-- The machine, `g_shm`, `g_shm_next_id`, and the objects that the process has attached. -/
structure State where
  m : Machine
  shm : Fin 16 → Option ShmObj
  nextId : ℕ
  attached : List ShmObj

/-! ### The calls -/

def sysShmCreate (s : State) (bytes : ℕ) : State × ℤ :=
  if bytes = 0 then (s, -1)
  else
    let pages := (bytes + 4095) % 2 ^ 64 / 4096
    match (List.finRange 16).find? fun i => (s.shm i).isNone with
    | none => (s, -1)
    | some i =>
      let r := pmmAllocFrames s.m.pmm pages
      let s := { s with m := { s.m with pmm := r.1 } }
      if r.2 = 0 then (s, -1)
      else
        ({ s with
          shm := update s.shm i (some ⟨s.nextId + 1, r.2 * 4096, pages⟩)
          nextId := s.nextId + 1 }, s.nextId + 1)

/-- The object with the id. -/
def findObj (s : State) (id : ℤ) : Option ShmObj :=
  (List.finRange 16).findSome? fun i => (s.shm i).filter fun o => decide ((o.id : ℤ) = id)

/-- `SHM_BASE + (uint64_t)(id - 1) * SHM_SLOT`. -/
def ShmObj.va (o : ShmObj) : ℕ := shmBase + (o.id - 1) * shmSlot

def shmFlags : MmuFlags := mmuUser ||| mmuWrite

/-- `sys_shm_attach` of the process whose tables are at `root`; `none` for -1. -/
def sysShmAttach (root : ℕ) (s : State) (id : ℤ) : State × Option ℕ :=
  match findObj s id with
  | none => (s, none)
  | some o =>
    match mapPages root shmFlags o.pages s.m o.va o.phys with
    | (m, false) => ({ s with m := m }, none)
    | (m, true) => ({ s with m := m, attached := s.attached ++ [o] }, some o.va)

/-! ### Histories -/

/-- The top-level entries of a process that `mmu_new_user_root` does not take from the kernel. -/
def userEntry (i : ℕ) : Bool := decide (2 ≤ i ∧ i < 256)

/-- A change of the machine that leaves the process's own part of the address space alone: what
other processes do, and what is mapped below the shared entries. -/
structure SameSpace (m m' : Machine) (root : ℕ) : Prop where
  priv : Private userEntry m' (m.root root)
  walks : ∀ v, userEntry (idx4 v) = true →
    walkEntries m' (m.root root) v = walkEntries m (m.root root) v
  kernelRoot : m'.kernelRoot = m.kernelRoot
  total : m'.pmm.totalFrames = m.pmm.totalFrames

inductive Event
  | create (bytes : ℕ)
  | attach (id : ℤ)
  /-- Another page is mapped into the process's own part: `mmap` of a device. -/
  | mapPage (virt phys : ℕ) (flags : MmuFlags)
  | elsewhere (m : Machine)

def Step (root : ℕ) (s : State) : Event → State → Prop
  | .create bytes, s' => s' = (sysShmCreate s bytes).1
  | .attach id, s' => s' = (sysShmAttach root s id).1
  | .mapPage virt phys flags, s' =>
    userEntry (idx4 virt) = true ∧ s' = { s with m := (mmuMap s.m root virt phys flags).1 }
  | .elsewhere m, s' => SameSpace s.m m root ∧ s' = { s with m := m }

/-- A process that has attached nothing, before the first object is made. -/
def start (m : Machine) : State := ⟨m, fun _ => none, 0, []⟩

/-! ### What an attach promises -/

/-- Each page of an attached object maps the object's own frame, and the objects are apart. -/
structure OwnRanges (root : ℕ) (s : State) : Prop where
  own : ∀ o ∈ s.attached, ∀ k < o.pages, ∃ pg,
    hwWalk s.m (s.m.root root) (o.va + 4096 * k) = some pg ∧ pg.frame = o.phys / 4096 + k
  apart : ∀ o ∈ s.attached, ∀ o' ∈ s.attached, o ≠ o' →
    o.va + 4096 * o.pages ≤ o'.va ∨ o'.va + 4096 * o'.pages ≤ o.va

/-- Page-table memory is available for the attach. -/
def TableMemory (root : ℕ) (s : State) (o : ShmObj) : Prop :=
  tableMemory root shmFlags o.pages s.m o.va o.phys = true

/-- What the attach of an object promises: the attached objects are apart and have their own frames;
it succeeds if the process has not attached the object and there is memory for the tables; and if
it fails the address space is as it was. -/
structure AttachOk (root : ℕ) (s : State) (id : ℤ) : Prop where
  ranges : OwnRanges root (sysShmAttach root s id).1
  succeeds : ∀ o, findObj s id = some o → o ∉ s.attached → TableMemory root s o →
    (sysShmAttach root s id).2 = some o.va
  unchanged : (sysShmAttach root s id).2 = none → ∀ v,
    hwWalk (sysShmAttach root s id).1.m (s.m.root root) v = hwWalk s.m (s.m.root root) v

/-- The condition: there is no such object; or no page of its range is mapped and there is memory
for all the tables; or the process has attached it already; or not even the tables of the first page
can be had. -/
def AttachFits (root : ℕ) (s : State) (id : ℤ) : Prop :=
  ∀ o, findObj s id = some o →
    ((∀ k < o.pages, hwWalk s.m (s.m.root root) (o.va + 4096 * k) = none) ∧
      TableMemory root s o) ∨
    o ∈ s.attached ∨ (walkPage s.m root o.va true).2 = none

/-! ### The invariant -/

/-- An object that was made, with ids up to `last` given out. -/
structure Made (last : ℕ) (o : ShmObj) : Prop where
  pages : 0 < o.pages
  aligned : o.phys % 4096 = 0
  fits : o.phys + 4096 * o.pages ≤ 2 ^ 46
  id : 0 < o.id ∧ o.id ≤ last

structure Inv (root : ℕ) (s : State) : Prop where
  priv : Private userEntry s.m (s.m.root root)
  total : s.m.pmm.totalFrames ≤ 2 ^ 34
  ids : s.nextId + (Finset.univ.filter fun i => s.shm i = none).card = 16
  object : ∀ i o, s.shm i = some o → Made s.nextId o
  listed : ∀ o ∈ s.attached, ∃ i, s.shm i = some o
  ranges : OwnRanges root s

theorem ShmObj.va_aligned (o : ShmObj) : o.va % 4096 = 0 := by
  unfold ShmObj.va shmBase shmSlot
  omega

/-- The pages of an object lie in the process's own part. -/
theorem Inv.ownRange (h : Inv root s) {o : ShmObj} (ho : Made s.nextId o) :
    OwnRange userEntry o.va o.pages := by
  intro k hk
  have hids := h.ids
  have hid := ho.id
  have hfits := ho.fits
  have hnum : o.id - 1 < 16 := by omega
  unfold userEntry idx4 ShmObj.va shmBase shmSlot
  rw [decide_eq_true_eq]
  omega

theorem findObj_listed {id : ℤ} {o : ShmObj} (h : findObj s id = some o) :
    ∃ i, s.shm i = some o := by
  obtain ⟨i, -, hi⟩ := exists_of_findSome?_eq_some h
  exact ⟨i, (Option.filter_eq_some_iff.mp hi).1⟩

theorem Inv.change (h : Inv root s)
    (hroot : m.root root = s.m.root root) (hpriv : Private userEntry m (s.m.root root))
    (htotal : m.pmm.totalFrames = s.m.pmm.totalFrames)
    (hkept : ∀ o ∈ s.attached, ∀ k < o.pages, ∀ pg,
      hwWalk s.m (s.m.root root) (o.va + 4096 * k) = some pg →
        hwWalk m (s.m.root root) (o.va + 4096 * k) = some pg) :
    Inv root { s with m := m } := by
  refine ⟨by dsimp only; rw [hroot]; exact hpriv, Nat.le_trans (Nat.le_of_eq htotal) h.total, h.ids,
    h.object, h.listed, ?_, h.ranges.apart⟩
  intro o ho k hk
  obtain ⟨pg, hpg, hframe⟩ := h.ranges.own o ho k hk
  rw [hroot]
  exact ⟨pg, hkept o ho k hk pg hpg, hframe⟩

theorem Inv.elsewhere (h : Inv root s)
    (hsame : SameSpace s.m m root) : Inv root { s with m := m } := by
  refine h.change (root_eq root hsame.kernelRoot) hsame.priv hsame.total fun o ho k hk pg hpg => ?_
  obtain ⟨i, hi⟩ := h.listed o ho
  have hown := h.ownRange (h.object i o hi) k hk
  obtain ⟨pos, hT⟩ := h.priv.plain.tree
  obtain ⟨pos', hT'⟩ := hsame.priv.plain.tree
  have hwalk := hsame.walks _ hown
  rw [← (h.priv.hwWalk_only hown).2, ← (hsame.priv.hwWalk_only hown).2] at hwalk
  rw [← (h.priv.hwWalk_only hown).1, hT.hwWalk_eq] at hpg
  rw [← (hsame.priv.hwWalk_only hown).1, hT'.hwWalk_eq, hwalk]
  exact hpg

/-- Taking frames leaves every address space alone. -/
theorem sameSpace_alloc (hP : Private userEntry m (m.root root)) (count : ℕ) :
    SameSpace m { m with pmm := (pmmAllocFrames m.pmm count).1 } root := by
  have hused : ∀ f, m.pmm.used f = true → (pmmAllocFrames m.pmm count).1.used f = true := by
    intro f hf
    rcases pmmAllocFrames_cases m.pmm count with heq | ⟨-, -, hmark, -⟩
    · rw [heq]
      exact hf
    · rw [hmark, setRun_apply, hf, ite_self]
  have hslots : ∀ v, slotsFrom { m with pmm := (pmmAllocFrames m.pmm count).1 } (tableIndices v)
      (m.root root) = slotsFrom m (tableIndices v) (m.root root) :=
    fun v => (walk_of_slots _ _ fun _ _ => rfl).2
  refine ⟨⟨⟨?_, fun v => ?_⟩, ?_⟩, fun v _ => ?_, rfl, ?_⟩
  · obtain ⟨pos, hT⟩ := hP.plain.tree
    exact ⟨pos, { hT with used := fun hf => hused _ (hT.used hf) }⟩
  · have hpath := hP.plain.paths v
    rw [walkEntries, ← pathFrom_setPmm _ (pmmAllocFrames m.pmm count).1] at hpath
    exact hpath
  · obtain ⟨pos, hT, hapart⟩ := hP.apart
    refine ⟨pos, { hT with used := fun hf => hused _ (hT.used hf) }, fun v hv s hs => ?_⟩
    rw [hslots] at hs
    exact (hapart v hv s hs).imp_right fun hs => ⟨hused _ hs.1, hs.2⟩
  · rw [walkEntries, walkEntries, pathFrom_setPmm]
  · rcases pmmAllocFrames_cases m.pmm count with heq | ⟨-, -, -, htotal⟩
    · rw [heq]
    · exact htotal

/-- A slot that is taken is one free slot less. -/
theorem card_free_update {shm : Fin 16 → Option ShmObj} {i : Fin 16} (hi : shm i = none)
    (o : ShmObj) :
    (Finset.univ.filter fun j => update shm i (some o) j = none).card + 1 =
      (Finset.univ.filter fun j => shm j = none).card := by
  have herase : (Finset.univ.filter fun j => update shm i (some o) j = none) =
      (Finset.univ.filter fun j => shm j = none).erase i := by
    ext j
    by_cases hj : j = i
    · simp [hj]
    · simp [hj]
  rw [herase, Finset.card_erase_add_one]
  simp [hi]

theorem Inv.create (h : Inv root s) (bytes : ℕ) : Inv root (sysShmCreate s bytes).1 := by
  unfold sysShmCreate
  split
  · exact h
  dsimp only
  generalize (bytes + 4095) % 2 ^ 64 / 4096 = pages
  split
  · exact h
  · rename_i i hi
    have hsame := h.elsewhere (sameSpace_alloc h.priv pages)
    have hnone : s.shm i = none := by
      have := find?_some hi
      simpa using this
    split
    · exact hsame
    · rename_i hframe
      refine ⟨hsame.priv, hsame.total, ?_, ?_, ?_, hsame.ranges.own, hsame.ranges.apart⟩
      · have hcard := card_free_update hnone
          ⟨s.nextId + 1, (pmmAllocFrames s.m.pmm pages).2 * 4096, pages⟩
        have hids := h.ids
        dsimp only
        omega
      · intro j o hj
        have hj' : update s.shm i _ j = some o := hj
        by_cases hji : j = i
        · rw [hji, update_self] at hj'
          cases hj'
          rcases pmmAllocFrames_cases s.m.pmm pages with heq | ⟨hfit, -, -, -⟩
          · rw [heq] at hframe
            exact absurd rfl hframe
          · have hbound := h.total
            refine ⟨?_, by dsimp only; omega, by dsimp only; omega, Nat.succ_pos _, Nat.le_refl _⟩
            -- no frames are answered with the null pointer
            dsimp only
            by_contra hzero
            rw [Nat.eq_zero_of_not_pos hzero] at hframe
            exact hframe rfl
        · rw [update_of_ne hji] at hj'
          obtain ⟨hpages, haligned, hfits, hpos, hle⟩ := h.object j o hj'
          exact ⟨hpages, haligned, hfits, hpos, Nat.le_succ_of_le hle⟩
      · intro o ho
        obtain ⟨j, hj⟩ := h.listed o ho
        refine ⟨j, ?_⟩
        show update s.shm i _ j = some o
        rw [update_of_ne]
        · exact hj
        · rintro rfl
          rw [hnone] at hj
          cases hj

theorem shared_page {a b n n' : ℕ} (ha : a % 4096 = 0) (hb : b % 4096 = 0) (hn : 0 < n)
    (hn' : 0 < n') (h : ¬(a + 4096 * n ≤ b ∨ b + 4096 * n' ≤ a)) :
    ∃ k < n, ∃ k' < n', a + 4096 * k = b + 4096 * k' := by
  by_cases hab : a ≤ b
  · exact ⟨(b - a) / 4096, by omega, 0, hn', by omega⟩
  · exact ⟨0, hn, (a - b) / 4096, by omega, by omega⟩

theorem frameOf_shm (pat : PatState) {phys k n : ℕ} (halign : phys % 4096 = 0)
    (hend : phys + 4096 * n ≤ 2 ^ 52) (hk : k < n) :
    frameOf (mapEntry pat (phys + 4096 * k) shmFlags) = phys / 4096 + k := by
  have hflags : setsPatLarge pat shmFlags = false := by
    rw [setsPatLarge, show flagSet shmFlags mmuHuge = false by decide, Bool.false_and,
      Bool.false_and]
  rw [(frameOf_mapEntry_iff pat (phys + 4096 * k) shmFlags).mpr
    ⟨by omega, fun h => absurd (hflags.symm.trans h) (by decide)⟩]
  omega

/-- An attach that succeeds. -/
theorem Inv.attached (h : Inv root s) {o : ShmObj} (ho : ∃ i, s.shm i = some o)
    (hR : RangeMapping userEntry s.m m root o.va o.phys shmFlags o.pages true) :
    Inv root { s with m := m, attached := s.attached ++ [o] } := by
  have hroot := root_eq root hR.kernelRoot
  have hold := h.change hroot hR.priv hR.total fun _ _ _ _ => hR.kept _
  obtain ⟨i, hi⟩ := ho
  obtain ⟨hpos, halign, hend, -⟩ := h.object i o hi
  -- the pages of the others were mapped before, those of the object were not
  have hnew : ∀ o' ∈ s.attached,
      o.va + 4096 * o.pages ≤ o'.va ∨ o'.va + 4096 * o'.pages ≤ o.va := by
    intro o' ho'
    by_contra hno
    obtain ⟨i', hi'⟩ := h.listed o' ho'
    obtain ⟨k, hk, k', hk', heq⟩ := shared_page o.va_aligned o'.va_aligned hpos
      (h.object i' o' hi').pages hno
    obtain ⟨pg, hpg, -⟩ := h.ranges.own o' ho' k' hk'
    rw [← heq, hR.free rfl k hk] at hpg
    cases hpg
  refine ⟨hold.priv, hold.total, h.ids, hold.object, ?_, ?_, ?_⟩
  · intro o' ho'
    rcases mem_append.mp ho' with ho' | ho'
    · exact h.listed o' ho'
    · rw [mem_singleton.mp ho']
      exact ⟨i, hi⟩
  · intro o' ho' k hk
    rcases mem_append.mp ho' with ho' | ho'
    · exact hold.ranges.own o' ho' k hk
    · rw [mem_singleton.mp ho'] at hk ⊢
      obtain ⟨pg, hpg, hframe⟩ := hR.mapped rfl k hk
      rw [hroot]
      exact ⟨pg, hpg, hframe.trans (frameOf_shm s.m.pat halign (by omega) hk)⟩
  · intro o1 h1 o2 h2 hne
    rcases mem_append.mp h1 with h1 | h1 <;> rcases mem_append.mp h2 with h2 | h2
    · exact h.ranges.apart o1 h1 o2 h2 hne
    · rw [mem_singleton.mp h2]
      exact (hnew o1 h1).symm
    · rw [mem_singleton.mp h1]
      exact hnew o2 h2
    · exact absurd ((mem_singleton.mp h1).trans (mem_singleton.mp h2).symm) hne

theorem Inv.attach (h : Inv root s) (id : ℤ) : Inv root (sysShmAttach root s id).1 := by
  unfold sysShmAttach
  cases hfind : findObj s id with
  | none => exact h
  | some o =>
    obtain ⟨i, hi⟩ := findObj_listed hfind
    have hR := h.priv.mapPages shmFlags (h.ownRange (h.object i o hi)) o.phys
    dsimp only
    generalize mapPages root shmFlags o.pages s.m o.va o.phys = r at hR ⊢
    obtain ⟨m, ok⟩ := r
    cases ok with
    | false => exact h.change (root_eq root hR.kernelRoot) hR.priv hR.total fun _ _ _ _ => hR.kept _
    | true => exact h.attached ⟨i, hi⟩ hR

/-- **One step.** -/
theorem Inv.step {s' : State} {e : Event} (h : Inv root s) (hstep : Step root s e s') :
    Inv root s' := by
  cases e with
  | create bytes =>
    cases hstep
    exact h.create bytes
  | attach id =>
    cases hstep
    exact h.attach id
  | mapPage virt phys flags =>
    obtain ⟨hv, rfl⟩ := hstep
    have hM := h.priv.mmuMap hv phys flags
    exact h.change (root_eq root hM.kernelRoot) hM.priv hM.total fun _ _ _ _ _ => hM.keeps
  | elsewhere m =>
    obtain ⟨hsame, rfl⟩ := hstep
    exact h.elsewhere hsame

theorem inv_start (hP : Private userEntry m (m.root root)) (hm : m.pmm.totalFrames ≤ 2 ^ 34) :
    Inv root (start m) where
  priv := hP
  total := hm
  ids := by simp [start]
  object := by
    exact nofun
  listed := by
    exact nofun
  ranges := ⟨(nofun), (nofun)⟩

theorem inv_of_run (hP : Private userEntry m (m.root root)) (hm : m.pmm.totalFrames ≤ 2 ^ 34)
    {es : List Event} (hrun : Run (Step root) (start m) es s) : Inv root s :=
  Run.invariant (Inv root) (fun _ _ _ h hstep => h.step hstep) hrun (inv_start hP hm)

/-! ### The attach -/

theorem sysShmAttach_of_found (root : ℕ) {id : ℤ} {o : ShmObj} (hfind : findObj s id = some o) :
    ((sysShmAttach root s id).2 =
        if (mapPages root shmFlags o.pages s.m o.va o.phys).2 then some o.va else none) ∧
      (sysShmAttach root s id).1.m = (mapPages root shmFlags o.pages s.m o.va o.phys).1 := by
  unfold sysShmAttach
  rw [hfind]
  dsimp only
  split <;> simp [*]

/-- **One attach** keeps its promise exactly under the condition. -/
theorem Inv.attachOk_iff (h : Inv root s) (id : ℤ) : AttachOk root s id ↔ AttachFits root s id := by
  have hranges := (h.attach id).ranges
  cases hfind : findObj s id with
  | none =>
    have hnothing : sysShmAttach root s id = (s, none) := by
      unfold sysShmAttach
      rw [hfind]
    refine ⟨fun _ o ho => ?_, fun _ => ⟨hranges, ?_, ?_⟩⟩
    · rw [hfind] at ho
      cases ho
    · intro o ho
      rw [hfind] at ho
      cases ho
    · intro _ v
      rw [hnothing]
  | some o =>
    obtain ⟨i, hi⟩ := findObj_listed hfind
    obtain ⟨n, hn⟩ : ∃ n, o.pages = n + 1 := Nat.exists_eq_succ_of_ne_zero
      (Nat.ne_of_gt (h.object i o hi).pages)
    have hown := h.ownRange (h.object i o hi)
    obtain ⟨hanswer, hmachine⟩ := sysShmAttach_of_found root hfind
    have hiff := h.priv.mapPages_iff shmFlags hown
      (by have := (h.object i o hi).fits; omega) o.phys
    have hunchanged := h.priv.mapPages_unchanged_iff shmFlags (hn ▸ hown) o.phys
    have hrefused := (h.priv.mmuMap (hn ▸ hown).head o.phys shmFlags).done
    rw [← hn, ← hmachine] at hunchanged
    constructor
    · intro hok o' ho'
      cases hfind.symm.trans ho'
      by_cases hdone : (mapPages root shmFlags o.pages s.m o.va o.phys).2 = true
      · exact .inl (hiff.mp hdone)
      refine .inr ?_
      by_cases hatt : o ∈ s.attached
      · exact .inl hatt
      refine .inr ?_
      have hnone : (sysShmAttach root s id).2 = none := by rw [hanswer, if_neg hdone]
      have hfirst := hunchanged.mp (hok.unchanged hnone)
      by_contra hsome
      have hmem : TableMemory root s o := by
        unfold TableMemory
        rw [hn, tableMemory_of_refused hfirst]
        exact Option.isSome_iff_ne_none.mpr hsome
      rw [hok.succeeds o hfind hatt hmem] at hnone
      cases hnone
    · intro hfits
      refine ⟨hranges, fun o' ho' hatt hmem => ?_, fun hnone => ?_⟩
      · cases hfind.symm.trans ho'
        rcases hfits o hfind with hall | hatt' | hwalk
        · rw [hanswer, hiff.mpr hall]
          rfl
        · exact absurd hatt' hatt
        · -- without tables for the first page there is no memory
          have hfirst : (mmuMap s.m root o.va o.phys shmFlags).2 = false := by
            rw [Bool.eq_false_iff, Ne, hrefused, hwalk]
            simp
          unfold TableMemory at hmem
          rw [hn, tableMemory_of_refused hfirst, hwalk] at hmem
          cases hmem
      · rw [hunchanged, Bool.eq_false_iff, Ne, hrefused]
        rintro ⟨hfree, hsome⟩
        rcases hfits o hfind with hall | hatt | hwalk
        · rw [hanswer, hiff.mpr hall] at hnone
          cases hnone
        · obtain ⟨pg, hpg, -⟩ := h.ranges.own o hatt 0 (by omega)
          rw [Nat.mul_zero, Nat.add_zero, hfree] at hpg
          cases hpg
        · rw [hwalk] at hsome
          cases hsome

/-- The root of a process as `mmu_new_user_root` makes it, in frame 1 of 1024: three entries lead to
the kernel's table in frame 2, and below it is a 2 MiB page with the large-page PAT bit. -/
def processSpace : Machine where
  mem f i :=
    if f = 1 ∧ (i = 0 ∨ i = 1 ∨ i = 511) then pteEntry 2 (x86PtePresent ||| x86PteWrite)
    else if f = 2 ∧ i = 0 then pteEntry 3 (x86PtePresent ||| x86PteWrite)
    else if f = 3 ∧ i = 0 then pteEntry 513 (x86PtePresent ||| x86PteWrite ||| x86PteHuge)
    else 0#64
  pmm := ⟨1024, fun f => decide (f < 4), 1020, 4, by decide⟩
  kernelRoot := 0
  pat := ⟨true, true⟩

theorem processSpace_entry (f i : ℕ) : processSpace.mem f i = 0#64 ∨
    (f = 1 ∧ userEntry i = false ∧ frameOf (processSpace.mem f i) = 2) ∨
    (f = 2 ∧ frameOf (processSpace.mem f i) = 3) ∨
    (f = 3 ∧ isHuge (processSpace.mem f i) = true) := by
  dsimp only [processSpace]
  split
  · rename_i h
    refine .inr (.inl ⟨h.1, ?_, by decide⟩)
    rcases h.2 with rfl | rfl | rfl <;> decide
  split
  · rename_i h
    exact .inr (.inr (.inl ⟨h.1, by decide⟩))
  split
  · rename_i h
    exact .inr (.inr (.inr ⟨h.1, by decide⟩))
  · exact .inl rfl

theorem slots_processSpace (is : List ℕ) : ∀ f, f = 2 ∨ f = 3 →
    ∀ s ∈ slotsFrom processSpace is f, s.1 = 2 ∨ s.1 = 3 := by
  induction is with
  | nil => exact fun _ _ s hs => absurd hs not_mem_nil
  | cons i is ih =>
    intro f hf s hs
    rw [slotsFrom, mem_cons] at hs
    rcases hs with rfl | hs
    · exact hf
    · rcases processSpace_entry f i with hzero | ⟨rfl, -, -⟩ | ⟨-, hnext⟩ | ⟨-, hhuge⟩
      · rw [hzero] at hs
        exact absurd hs not_mem_nil
      · omega
      · split at hs
        · exact ih _ (.inr hnext) s hs
        · exact absurd hs not_mem_nil
      · rw [hhuge, Bool.not_true, Bool.and_false] at hs
        exact absurd hs not_mem_nil

theorem private_processSpace : Private userEntry processSpace 1 := by
  have hempty : ∀ i, (processSpace.only userEntry 1).mem 1 i = 0#64 := by
    intro i
    show (if _ then _ else _) = _
    split
    · rfl
    · rename_i hown
      rcases processSpace_entry 1 i with hzero | ⟨-, hi, -⟩ | ⟨h, -⟩ | ⟨h, -⟩
      · exact hzero
      · exact absurd ⟨rfl, hi⟩ hown
      · cases h
      · cases h
  have hno : ∀ i, ¬isPresent ((processSpace.only userEntry 1).mem 1 i) = true := by
    intro i
    rw [hempty, isPresent_zero]
    decide
  have hroot : ∀ {f : ℕ} {p : List ℕ}, (if f = 1 then some [] else none) = some p →
      f = 1 ∧ p = [] := by
    intro f p h
    split at h
    · rename_i hf
      exact ⟨hf, (Option.some.inj h).symm⟩
    · cases h
  have hT : TreeAt (processSpace.only userEntry 1) 1 fun f => if f = 1 then some [] else none := by
    constructor
    case atRoot => rfl
    case inj => exact fun h h' => (hroot h).1.trans (hroot h').1.symm
    case used =>
      intro f p h
      rw [(hroot h).1]
      rfl
    case depth =>
      intro f p h
      rw [(hroot h).2]
      exact Nat.zero_le 3
    case top => exact fun _ h => absurd h (hno _)
    case child => exact fun h _ _ hp => absurd ((hroot h).1 ▸ hp) (hno _)
    case parent => exact fun h => absurd (hroot h).2 (by simp)
    case reserved => exact fun h _ _ hp => absurd ((hroot h).1 ▸ hp) (hno _)
  refine ⟨⟨⟨_, hT⟩, fun v hall => ?_⟩, _, hT, fun v hv s hs => ?_⟩
  · rw [walkEntries, tableIndices, pathFrom, all_cons, hempty] at hall
    cases hall
  · rw [tableIndices, slotsFrom, mem_cons] at hs
    refine hs.imp_right fun hs => ?_
    split at hs
    · rename_i hgo
      have hnext : frameOf (processSpace.mem 1 (idx4 v)) = 2 := by
        rcases processSpace_entry 1 (idx4 v) with hzero | ⟨-, -, h⟩ | ⟨h, -⟩ | ⟨h, -⟩
        · rw [hzero] at hgo
          cases hgo
        · exact h
        · cases h
        · cases h
      rcases slots_processSpace _ _ (.inl hnext) s hs with h | h <;> rw [h] <;> exact ⟨rfl, rfl⟩
    · exact absurd hs not_mem_nil

theorem step_create (root : ℕ) (s : State) (bytes : ℕ) :
    Step root s (.create bytes) (sysShmCreate s bytes).1 := rfl

theorem step_attach (root : ℕ) (s : State) (id : ℤ) :
    Step root s (.attach id) (sysShmAttach root s id).1 := rfl

/-- The frames after the creation of an object with 513 pages: it has the frames from 4 on. -/
def bigPmm : Pmm := ⟨1024, fun f => decide (f < 517), 507, 4, by decide⟩

theorem pmmAllocFrames_big : pmmAllocFrames processSpace.pmm 513 = (bigPmm, 4) := by
  have hloop : allocFramesLoop processSpace.pmm 513 (processSpace.pmm.totalFrames + 1) 0 =
      some (some 4) := by
    decide +kernel
  have hused : setRun processSpace.pmm.used 4 513 = bigPmm.used := by
    funext f
    rw [setRun_apply]
    simp only [processSpace, bigPmm]
    by_cases hf : f < 4
    · rw [if_neg (by omega), decide_eq_true hf, decide_eq_true (by omega)]
    · by_cases hf' : f < 517
      · rw [if_pos (by omega), decide_eq_true hf']
      · rw [if_neg (by omega), decide_eq_false hf, decide_eq_false hf']
  rw [pmmAllocFrames, if_neg (by decide), hloop]
  dsimp only
  rw [hused]
  rfl

/-- Object 1 has 513 pages. -/
def bigFirst : State :=
  ⟨{ processSpace with pmm := bigPmm }, update (fun _ => none) 0 (some ⟨1, 16384, 513⟩), 1, []⟩

theorem sysShmCreate_big : (sysShmCreate (start processSpace) (513 * 4096)).1 = bigFirst := by
  rw [sysShmCreate, if_neg (by decide)]
  dsimp only
  rw [show (513 * 4096 + 4095) % 2 ^ 64 / 4096 = 513 by decide,
    show (finRange 16).find? (fun i => ((start processSpace).shm i).isNone) = some 0 by decide]
  dsimp only
  rw [show (start processSpace).m.pmm = processSpace.pmm from rfl, pmmAllocFrames_big]
  rfl

/-- Object 2 has one page and is attached. -/
def crowded : State := (sysShmAttach 1 (sysShmCreate bigFirst 4096).1 2).1

theorem run_crowded :
    Run (Step 1) (start processSpace) [.create (513 * 4096), .create 4096, .attach 2] crowded :=
  Run.cons (sysShmCreate_big ▸ step_create 1 _ _) (.cons (step_create 1 _ _)
    (.cons (step_attach 1 _ 2) (.nil _)))

end AxiomeOS.Shm
