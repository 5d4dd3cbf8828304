import AxiomeOS.Paging.Effects

/-!
# Address spaces that share tables

An address space is plain when its tables form a tree and no walk in it ends in a 1 GiB page or in a
2 MiB page with the large-page PAT bit.  There a walk changes no translation, and `mmu_map` does
exactly what it says (`Plain.mmuMap`).

The whole address space of a process is not plain.  `boot.S` stores one table in the top-level
entries 0, 1 and 511, and `mmu_new_user_root` copies the kernel's entries: the shared tables are
reached along several paths and from every process, and they may hold large pages of any kind.  What
is plain is the part below the process's own top-level entries.  `m.only own r` is the machine
without the other ones, and `Private own m r` says that what is left is plain and that the shared
tables lie apart from it.  An operation at an address below an own entry never looks at the others
(`walkPage_share`), so it does to the machine what it does to the private part, and leaves the
shared part alone (`Private.mmuMap`).
-/

namespace AxiomeOS.Paging

open Bits Frames List Bool

variable {m m' : Machine} {root : ℕ} {pos : ℕ → Option (List ℕ)} {q : List ℕ} {t i : ℕ}
  {ups : List U64} {own : ℕ → Bool} {top : ℕ → U64} {r virt g : ℕ} {w : U64}

/-! ### Plain address spaces -/

/-- The walk does not end in a 1 GiB page or in a 2 MiB page with the PAT bit. -/
def PlainPath (path : List U64) : Prop :=
  path.all isPresent = true →
    path.length ≠ 2 ∧ ¬(path.length = 3 ∧ flagSet (path.getLastD 0#64) x86PtePatLarge = true)

structure Plain (m : Machine) (root : ℕ) : Prop where
  tree : ∃ pos, TreeAt m root pos
  paths : ∀ v, PlainPath (walkEntries m root v)

theorem Plain.not_largePage1G (h : Plain m root) (v : ℕ) : largePage1G m root v = false := by
  rw [eq_false_iff]
  intro hlarge
  rw [largePage1G, and_eq_true, beq_iff_eq] at hlarge
  exact (h.paths v hlarge.1).1 hlarge.2

theorem Plain.not_patLarge2M (h : Plain m root) (v : ℕ) : patLarge2M m root v = false := by
  rw [eq_false_iff]
  intro hlarge
  rw [patLarge2M, and_eq_true, and_eq_true, beq_iff_eq] at hlarge
  exact (h.paths v hlarge.1.1).2 ⟨hlarge.1.2, hlarge.2⟩

theorem plainPath_of_length {path : List U64} (h : path.length = 4) : PlainPath path :=
  fun _ => ⟨by omega, by omega⟩

theorem Quiet.plain (h : Quiet m m' root) (hP : Plain m root) : Plain m' root := by
  refine ⟨h.tree, fun v hall => ?_⟩
  have hpath := hP.paths v
  rw [h.path hall rfl] at hpath
  exact hpath hall

/-- A store into the leaf entry of an address keeps the tree of tables. -/
theorem TreeAt.setLeaf (hT : TreeAt m root pos)
    (hr : Reach m root [idx4 virt, idx3 virt, idx2 virt] t ups) (w : U64) :
    TreeAt (m.setWord t (idx1 virt) w) root pos := by
  have hsame : ∀ {f p j}, pos f = some p → p.length < 3 →
      (m.setWord t (idx1 virt) w).mem f j = m.mem f j := by
    intro f p j hf hlen
    refine leaf_mem hT hr w hf ?_
    rintro ⟨rfl, -⟩
    exact Nat.lt_irrefl _ hlen
  constructor
  case atRoot => exact hT.atRoot
  case inj => exact hT.inj
  case used => exact hT.used
  case depth => exact hT.depth
  case top =>
    intro i hi hp
    rw [hsame hT.atRoot (by decide)] at hp ⊢
    exact hT.top hi hp
  case child =>
    intro f p i hf hlen hi hp hh
    rw [hsame hf hlen] at hp hh ⊢
    exact hT.child hf hlen hi hp hh
  case parent =>
    intro f p i hf
    have hlen := hT.depth hf
    rw [length_append, length_singleton] at hlen
    obtain ⟨f', hf', hp, hh⟩ := hT.parent hf
    refine ⟨f', hf', ?_, ?_⟩
    · rw [hsame hf' (by omega)]
      exact hp
    · rw [hsame hf' (by omega)]
      exact hh
  case reserved =>
    intro f p i hf hlen hi hp hh
    rw [hsame hf (by omega)] at hp hh ⊢
    exact hT.reserved hf hlen hi hp hh

theorem Grown.setLeaf (hT : TreeAt m root pos)
    (hr : Reach m root [idx4 virt, idx3 virt, idx2 virt] t ups) (w : U64) :
    Grown m (m.setWord t (idx1 virt) w) root pos pos := by
  refine ⟨hT.setLeaf hr w, id, rfl, fun {f} _ hnone => ⟨hnone, fun j => ?_⟩⟩
  refine if_neg ?_
  rintro ⟨rfl, -⟩
  rw [hr.place hT (Nat.le_refl 3)] at hnone
  cases hnone

/-- A store into a leaf entry leaves a plain address space. -/
theorem Plain.setLeaf (hP : Plain m root)
    (hr : Reach m root [idx4 virt, idx3 virt, idx2 virt] t ups) (w : U64) :
    Plain (m.setWord t (idx1 virt) w) root := by
  obtain ⟨pos, hT⟩ := hP.tree
  refine ⟨⟨pos, hT.setLeaf hr w⟩, fun v => ?_⟩
  by_cases hv : tableIndices v = tableIndices virt
  · have hpath : walkEntries (m.setWord t (idx1 virt) w) root v = ups ++ [w] := by
      rw [walkEntries, hv]
      exact walkEntries_setLeaf hT hr w
    rw [hpath]
    refine plainPath_of_length ?_
    rw [length_append, hr.length]
    rfl
  · have hsame : walkEntries (m.setWord t (idx1 virt) w) root v = walkEntries m root v := by
      refine hT.path_outside (fun f p j hf hne => leaf_mem hT hr w hf hne) (tableIndices v) root []
        hT.atRoot (by rw [tableIndices_length]; decide) (tableIndices_lt v) ?_
      rw [nil_append]
      exact fun hpre => hv (hpre.eq_of_length rfl).symm
    rw [hsame]
    exact hP.paths v

/-- Splitting a 2 MiB page leaves a plain address space. -/
theorem Plain.split (hP : Plain m root) {g : ℕ} (h : Split m m' root q t i g ups) :
    Plain m' root := by
  obtain ⟨pos, hT⟩ := hP.tree
  refine ⟨(h.tree hT).1, fun v => ?_⟩
  have hlen := h.level
  by_cases hv : (q ++ [i]) <+: tableIndices v
  · rw [(h.paths hT (tableIndices_of_below hlen hv)).2]
    refine plainPath_of_length ?_
    rw [length_append, length_append, h.reach.length, hlen]
    rfl
  · obtain ⟨p, ha, rfl⟩ := h.eq
    rw [walkEntries, hT.path_outside
      (fun f p' j hf hne => hT.link_mem ha (h.reach.place hT (by omega)) _ _ hf hne)
      (tableIndices v) root [] hT.atRoot (by rw [tableIndices_length]; decide) (tableIndices_lt v)
      (by rw [nil_append]; exact hv)]
    exact hP.paths v

/-- **A walk in a plain address space** keeps it plain and every translation as it is. -/
theorem Plain.walkPage (hP : Plain m (m.root root)) (virt : ℕ) (alloc : Bool) :
    ∃ m' r, walkPage m root virt alloc = (m', r) ∧ Plain m' (m.root root) ∧
      (∀ pos, TreeAt m (m.root root) pos → ∃ pos', Grown m m' (m.root root) pos pos') ∧
      (∀ v, hwWalk m' (m.root root) v = hwWalk m (m.root root) v) ∧
      m'.kernelRoot = m.kernelRoot ∧ m'.pat = m.pat ∧
      ∀ t i, r = some (t, i) → i = idx1 virt ∧
        ∃ ups, Reach m' (m.root root) [idx4 virt, idx3 virt, idx2 virt] t ups := by
  obtain ⟨pos, hT⟩ := hP.tree
  rcases hT.walkPage (hP.not_largePage1G virt) alloc with
    ⟨m', heq, hQ⟩ | ⟨m', t, ups, heq, hQ, hr⟩ | ⟨m1, m', t, g, ups, heq, hQ, hS⟩
  · exact ⟨m', none, heq, hQ.plain hP, hQ.grown, hQ.hwWalk hT, hQ.kernelRoot, hQ.pat,
      nofun⟩
  · refine ⟨m', _, heq, hQ.plain hP, hQ.grown, hQ.hwWalk hT, hQ.kernelRoot, hQ.pat,
      fun t' i h => ?_⟩
    cases h
    exact ⟨rfl, ups, hr⟩
  · have hP1 := hQ.plain hP
    obtain ⟨pos1, hT1⟩ := hP1.tree
    obtain ⟨-, -, hpat, hres⟩ := hS.patLarge hT1
    have halign : frameOf (m1.mem t (idx2 virt)) % 512 = 0 := by
      have hno : ¬patLarge2M m1 (m.root root) virt = true := by
        rw [hP1.not_patLarge2M virt]
        decide
      rw [hpat] at hno
      omega
    have hkeep : m'.kernelRoot = m1.kernelRoot ∧ m'.pat = m1.pat := by
      obtain ⟨p, -, rfl⟩ := hS.eq
      exact ⟨rfl, rfl⟩
    refine ⟨m', _, heq, hP1.split hS, fun pos hT => ?_, fun v => ?_,
      hkeep.1.trans hQ.kernelRoot, hkeep.2.trans hQ.pat, fun t'' i h => ?_⟩
    · obtain ⟨pos₁, hG₁⟩ := hQ.grown pos hT
      obtain ⟨⟨pos₂, hG₂⟩, -⟩ := hS.grown hG₁.tree
      exact ⟨pos₂, hG₁.trans hG₂⟩
    · rw [hS.hwWalk_eq hT1 halign, hQ.hwWalk hT]
    · cases h
      exact ⟨rfl, _, (hS.tree hT1).2⟩

theorem TreeAt.hwWalk_leaf (hT : TreeAt m root pos)
    (hr : Reach m root [idx4 virt, idx3 virt, idx2 virt] t ups) :
    hwWalk m root virt = none ↔ isPresent (m.mem t (idx1 virt)) = false := by
  have hpath : walkEntries m root virt = ups ++ [m.mem t (idx1 virt)] := by
    rw [walkEntries,
      show tableIndices virt = [idx4 virt, idx3 virt, idx2 virt] ++ [idx1 virt] from rfl,
      hr.pathFrom, pathFrom_last]
  have hall : (ups ++ [m.mem t (idx1 virt)]).all isPresent = isPresent (m.mem t (idx1 virt)) := by
    rw [all_append, hr.present]
    simp
  rw [hT.hwWalk_eq, hpath, hall]
  cases hp : isPresent (m.mem t (idx1 virt)) with
  | true => simp
  | false => simp

/-- What `mmu_map` does to the pages of an address space.  It refuses a page that is mapped, and one
whose tables it cannot get. -/
structure PageMapping (m m' : Machine) (root virt phys : ℕ) (flags : MmuFlags) (ok : Bool) :
    Prop where
  kernelRoot : m'.kernelRoot = m.kernelRoot
  pat : m'.pat = m.pat
  kept : Kept m m' (m.root root) virt
  failed : ok = false → ∀ v, hwWalk m' (m.root root) v = hwWalk m (m.root root) v
  done : ok = true ↔
    hwWalk m (m.root root) virt = none ∧ (walkPage m root virt true).2.isSome = true
  mapped : ok = true → ∃ pg, hwWalk m' (m.root root) virt = some pg ∧
    pg.frame = frameOf (mapEntry m.pat phys flags)

/-- What `mmu_map` does in a plain address space. -/
structure PlainMapping (m m' : Machine) (root virt phys : ℕ) (flags : MmuFlags) (ok : Bool) : Prop
    extends PageMapping m m' root virt phys flags ok where
  plain : Plain m' (m.root root)
  grown : ∀ pos, TreeAt m (m.root root) pos → ∃ pos', Grown m m' (m.root root) pos pos'

theorem Plain.mmuMap (hP : Plain m (m.root root)) (virt phys : ℕ) (flags : MmuFlags) :
    PlainMapping m (mmuMap m root virt phys flags).1 root virt phys flags
      (mmuMap m root virt phys flags).2 := by
  obtain ⟨m1, r, heq, hP1, hgrown, hsame, hkernel, hpat, hreach⟩ := hP.walkPage virt true
  unfold Paging.mmuMap
  rw [heq]
  cases r with
  | none =>
    exact ⟨⟨hkernel, hpat, fun v _ => hsame v, fun _ => hsame, by simp [heq], (nofun)⟩, hP1, hgrown⟩
  | some ti =>
    obtain ⟨t, i⟩ := ti
    obtain ⟨rfl, ups, hr⟩ := hreach t i rfl
    obtain ⟨pos1, hT1⟩ := hP1.tree
    have hfree := hT1.hwWalk_leaf hr
    rw [hsame] at hfree
    dsimp only
    split
    · rename_i hp
      exact ⟨⟨hkernel, hpat, fun v _ => hsame v, fun _ => hsame, by simp [hfree, hp], (nofun)⟩,
        hP1, hgrown⟩
    · rename_i hp
      rw [not_eq_true] at hp
      refine ⟨⟨hkernel, hpat, ?_, (nofun), by simp [hfree, hp, heq], fun _ => ?_⟩,
        hP1.setLeaf hr _, fun pos hT => ?_⟩
      · intro v hv
        rw [kept_setLeaf hT1 hr _ v hv, hsame]
      · rw [(hT1.setLeaf hr _).hwWalk_eq, walkEntries_setLeaf hT1 hr, if_pos]
        · refine ⟨_, rfl, ?_⟩
          match ups, hr.length with
          | [_, _, _], _ => rw [hpat]; rfl
        · rw [all_append, hr.present, all_cons, isPresent_mapEntry]
          rfl
      · obtain ⟨pos₁, hG⟩ := hgrown pos hT
        exact ⟨pos₁, hG.trans (.setLeaf hG.tree hr _)⟩

/-! ### The private part -/

/-- The machine with the top-level entries that are not `own` taken from `top`. -/
def Machine.share (own : ℕ → Bool) (r : ℕ) (top : ℕ → U64) (m : Machine) : Machine :=
  { m with mem := fun f i => if f = r ∧ own i = false then top i else m.mem f i }

/-- The machine without the top-level entries that are not `own`. -/
def Machine.only (m : Machine) (own : ℕ → Bool) (r : ℕ) : Machine := m.share own r fun _ => 0#64

theorem share_mem (h : t = r → own i = true) : (m.share own r top).mem t i = m.mem t i := by
  refine if_neg ?_
  rintro ⟨ht, hi⟩
  rw [h ht] at hi
  cases hi

theorem share_share (top' : ℕ → U64) :
    (m.share own r top).share own r top' = m.share own r top' := by
  unfold Machine.share
  congr 1
  funext f i
  dsimp only
  split <;> rfl

theorem share_only : (m.only own r).share own r (m.mem r) = m := by
  rw [Machine.only, share_share]
  unfold Machine.share
  congr 1
  funext f i
  split
  · rename_i h
    rw [h.1]
  · rfl

theorem setWord_share (h : t = r → own i = true) :
    (m.share own r top).setWord t i w = (m.setWord t i w).share own r top := by
  unfold Machine.share Machine.setWord
  congr 1
  funext f j
  dsimp only
  by_cases hslot : f = t ∧ j = i
  · rw [if_pos hslot, if_pos hslot, if_neg]
    rintro ⟨hf, hj⟩
    rw [hslot.2, h (hslot.1.symm.trans hf)] at hj
    cases hj
  · rw [if_neg hslot, if_neg hslot]

theorem setFrame_share (h : g ≠ r) (c : ℕ → U64) :
    (m.share own r top).setFrame g c = (m.setFrame g c).share own r top := by
  unfold Machine.share Machine.setFrame
  congr 1
  funext f j
  dsimp only
  by_cases hf : f = g
  · rw [if_pos hf, if_pos hf, if_neg]
    rintro ⟨hfr, -⟩
    exact h (hf.symm.trans hfr)
  · rw [if_neg hf, if_neg hf]

/-! ### The operations -/

@[simp] theorem share_pmm : (m.share own r top).pmm = m.pmm := rfl

theorem setPmm_share (p : Pmm) :
    ({ m.share own r top with pmm := p } : Machine) =
      ({ m with pmm := p } : Machine).share own r top := rfl

/-- A frame that is in use is not handed out. -/
theorem pmmAllocFrame_ne {p : Pmm} (hr : p.used r = true) (h : ¬(pmmAllocFrame p).2 = 0) :
    (pmmAllocFrame p).2 ≠ r := by
  intro heq
  have hfree := (pmmAllocFrame_allocated h).free
  rw [heq, hr] at hfree
  cases hfree

section

variable (hr : m.pmm.used r = true) (h : t = r → own i = true)
include hr h

theorem splitHuge_share : splitHuge (m.share own r top) t i =
    ((splitHuge m t i).1.share own r top, (splitHuge m t i).2) := by
  cases hp : isPresent (m.mem t i) with
  | false => simp [splitHuge, share_mem h, hp]
  | true =>
    cases hh : isHuge (m.mem t i) with
    | false => simp [splitHuge, share_mem h, hp, hh]
    | true =>
      by_cases hz : (pmmAllocFrame m.pmm).2 = 0
      · simp [splitHuge, share_mem h, hp, hh, hz, setPmm_share]
      · simp [splitHuge, share_mem h, hp, hh, hz, setPmm_share,
          setFrame_share (pmmAllocFrame_ne hr hz), setWord_share h]

theorem ensureTable_share (alloc : Bool) : ensureTable (m.share own r top) t i alloc =
    ((ensureTable m t i alloc).1.share own r top, (ensureTable m t i alloc).2) := by
  cases hp : isPresent (m.mem t i) with
  | true => simp [ensureTable, share_mem h, hp]
  | false =>
    cases alloc with
    | false => simp [ensureTable, share_mem h, hp]
    | true =>
      by_cases hz : (pmmAllocFrame m.pmm).2 = 0
      · simp [ensureTable, share_mem h, hp, hz, setPmm_share]
      · simp [ensureTable, share_mem h, hp, hz, setPmm_share,
          setFrame_share (pmmAllocFrame_ne hr hz), setWord_share h]

omit h in
theorem splitHuge_used (hh : isHuge (m.mem t i) = true) :
    (splitHuge m t i).1.pmm.used r = true := by
  rcases splitHuge_cases m t i hh with ⟨p, hp, heq⟩ | ⟨-, p, g, c, e, ha, -, -, -, heq⟩ <;> rw [heq]
  · exact hp.used _ hr
  · show p.used r = true
    rw [ha.used, Function.update_apply, hr, ite_self]

theorem descend_share (check alloc : Bool) : descend (m.share own r top) t i check alloc =
    ((descend m t i check alloc).1.share own r top, (descend m t i check alloc).2) := by
  unfold descend
  rw [share_mem h]
  by_cases hsplit : (check && isHuge (m.mem t i)) = true
  · rw [if_pos hsplit, if_pos hsplit, splitHuge_share hr h]
    have hused := splitHuge_used hr (and_eq_true_iff.mp hsplit).2
    generalize splitHuge m t i = s at hused ⊢
    obtain ⟨m1, ok⟩ := s
    cases ok with
    | false => rfl
    | true =>
      dsimp only
      rw [ensureTable_share hused h]
      generalize ensureTable m1 t i alloc = s
      obtain ⟨m2, ok⟩ := s
      cases ok with
      | false => rfl
      | true => simp [share_mem h]
  · rw [if_neg hsplit, if_neg hsplit]
    dsimp only
    rw [ensureTable_share hr h]
    generalize ensureTable m t i alloc = s
    obtain ⟨m2, ok⟩ := s
    cases ok with
    | false => rfl
    | true => simp [share_mem h]

end

/-- **A level of a walk in a plain address space** stays in the tree. -/
theorem Plain.descend (hP : Plain m r) (hr : Reach m r q t ups) (rest : List ℕ)
    (hv : tableIndices virt = q ++ [i] ++ rest) (hrest : rest ≠ []) {check : Bool}
    (hc : check = true ↔ q ≠ []) (alloc : Bool) :
    ∃ m' o, descend m t i check alloc = (m', o) ∧ Plain m' r ∧
      ∀ g, o = some g → ∃ ups', Reach m' r (q ++ [i]) g ups' := by
  obtain ⟨pos, hT⟩ := hP.tree
  have hlen : q.length < 3 := by
    have hlen := congrArg length hv
    rw [tableIndices_length, length_append, length_append, length_singleton] at hlen
    have := length_pos_iff.mpr hrest
    omega
  have hi : i < 512 := tableIndices_lt virt i (by rw [hv]; simp)
  rcases hT.descend hr hlen hi hc alloc with
    ⟨m', heq, hQ⟩ | ⟨m', g, e, heq, hQ, hr'⟩ | ⟨hp, hh, hne, p, g, ha, heq⟩
  · exact ⟨m', none, heq, hQ.plain hP, nofun⟩
  · refine ⟨m', _, heq, hQ.plain hP, fun g' hg' => ?_⟩
    cases hg'
    exact ⟨_, hr'⟩
  · by_cases hlevel : q.length = 2
    · have hS : Split m _ r q t i g ups := ⟨hr, hlevel, hi, hp, hh, p, ha, rfl⟩
      refine ⟨_, _, heq, hP.split hS, fun g' hg' => ?_⟩
      cases hg'
      exact ⟨_, (hS.tree hT).2⟩
    · -- a split above that level is a 1 GiB entry on the path
      have hone : q.length = 1 := by
        have := length_pos_iff.mpr hne
        omega
      have hpath : walkEntries m r virt = ups ++ [m.mem t i] := by
        rw [walkEntries, hv, append_assoc, hr.pathFrom, singleton_append, pathFrom, hp, hh]
        rfl
      refine absurd ?_ ((hP.paths virt) ?_).1
      · rw [hpath, length_append, hr.length, hone]
        rfl
      · rw [hpath, all_append, hr.present, all_cons, hp]
        rfl

theorem Plain.used (hP : Plain m r) : m.pmm.used r = true := by
  obtain ⟨pos, hT⟩ := hP.tree
  exact hT.used hT.atRoot

theorem Plain.ne_root (hP : Plain m r) (hr : Reach m r q t ups) (hq : q ≠ [])
    (hlen : q.length ≤ 3) :
    t ≠ r := by
  obtain ⟨pos, hT⟩ := hP.tree
  rintro rfl
  have hplace := hr.place hT hlen
  rw [hT.atRoot] at hplace
  exact hq (Option.some.inj hplace).symm

section

variable (hP : Plain m (m.root root)) (hv : own (idx4 virt) = true)
include hP hv

/-- **A walk below an own entry** does not look at the other top-level entries. -/
theorem walkPage_share (top : ℕ → U64) (alloc : Bool) :
    walkPage (m.share own (m.root root) top) root virt alloc =
      ((walkPage m root virt alloc).1.share own (m.root root) top,
        (walkPage m root virt alloc).2) := by
  obtain ⟨m1, o1, heq1, hP1, hr1⟩ := hP.descend .nil
    [idx3 virt, idx2 virt, idx1 virt] rfl (by simp) unchecked_nil alloc
  unfold walkPage
  rw [show (m.share own (m.root root) top).root root = m.root root from rfl,
    descend_share hP.used (fun _ => hv), heq1]
  cases o1 with
  | none => rfl
  | some pdp =>
    obtain ⟨ups1, hr1⟩ := hr1 pdp rfl
    obtain ⟨m2, o2, heq2, hP2, hr2⟩ := hP1.descend hr1
      [idx2 virt, idx1 virt] rfl (by simp) (checked_snoc ..) alloc
    have hne1 := hP1.ne_root hr1 (by simp) (by simp)
    dsimp only
    rw [descend_share hP1.used (fun h => absurd h hne1), heq2]
    cases o2 with
    | none => rfl
    | some pd =>
      obtain ⟨ups2, hr2⟩ := hr2 pd rfl
      have hne2 := hP2.ne_root hr2 (by simp) (by simp)
      dsimp only
      rw [descend_share hP2.used (fun h => absurd h hne2)]
      generalize Paging.descend m2 pd (idx2 virt) true alloc = s
      obtain ⟨m3, o3⟩ := s
      cases o3 <;> rfl

theorem mmuMap_share (top : ℕ → U64) (phys : ℕ) (flags : MmuFlags) :
    mmuMap (m.share own (m.root root) top) root virt phys flags =
      ((mmuMap m root virt phys flags).1.share own (m.root root) top,
        (mmuMap m root virt phys flags).2) := by
  obtain ⟨m1, o, heq, hP1, -, -, -, -, hreach⟩ := hP.walkPage virt true
  unfold mmuMap
  rw [walkPage_share hP hv, heq]
  cases o with
  | none => rfl
  | some ti =>
    obtain ⟨t, i⟩ := ti
    obtain ⟨rfl, ups, hr⟩ := hreach t i rfl
    have hne := hP1.ne_root hr (by simp) (Nat.le_refl 3)
    dsimp only
    rw [share_mem fun h => absurd h hne]
    split
    · rfl
    · rw [setWord_share fun h => absurd h hne]
      rfl

end

/-! ### What the processor sees -/

/-- The slots, table and index, that a walk reads. -/
def slotsFrom (m : Machine) : List ℕ → ℕ → List (ℕ × ℕ)
  | [], _ => []
  | i :: is, f =>
    (f, i) :: if isPresent (m.mem f i) && !isHuge (m.mem f i) then
      slotsFrom m is (frameOf (m.mem f i)) else []

/-- **A walk depends on the slots it reads.** -/
theorem walk_of_slots (is : List ℕ) :
    ∀ f, (∀ s ∈ slotsFrom m is f, m'.mem s.1 s.2 = m.mem s.1 s.2) →
    pathFrom m' is f = pathFrom m is f ∧ slotsFrom m' is f = slotsFrom m is f := by
  induction is with
  | nil => exact fun _ _ => ⟨rfl, rfl⟩
  | cons i is ih =>
    intro f hsame
    have hhead : m'.mem f i = m.mem f i := hsame (f, i) (by simp [slotsFrom])
    rw [pathFrom, pathFrom, slotsFrom, slotsFrom, hhead]
    by_cases hgo : (isPresent (m.mem f i) && !isHuge (m.mem f i)) = true
    · have hrest := ih (frameOf (m.mem f i)) fun s hs => hsame s (by
        rw [slotsFrom, if_pos hgo]
        exact mem_cons_of_mem _ hs)
      simp [hrest]
    · exact ⟨by simp only [if_neg hgo], by simp only [if_neg hgo]⟩

theorem hwWalk_of_slots
    (h : ∀ s ∈ slotsFrom m (tableIndices virt) r, m'.mem s.1 s.2 = m.mem s.1 s.2) :
    hwWalk m' r virt = hwWalk m r virt := by
  have htop : m'.mem r (idx4 virt) = m.mem r (idx4 virt) :=
    h (r, idx4 virt) (by simp [slotsFrom, tableIndices])
  rw [hwWalk, hwWalk, walkEntries, walkEntries, topReserved, topReserved, (walk_of_slots _ _ h).1,
    htop]

/-- In a tree a walk below an own entry reads no other top-level entry. -/
theorem TreeAt.slots_own (hT : TreeAt m r pos) : ∀ (is : List ℕ) (f : ℕ) (p : List ℕ),
    pos f = some p → p.length + is.length ≤ 4 → (∀ j ∈ is, j < 512) →
    (p = [] → ∀ j ∈ is.head?, own j = true) →
    ∀ s ∈ slotsFrom m is f, s.1 = r → own s.2 = true := by
  intro is
  induction is with
  | nil => exact fun _ _ _ _ _ _ s hs => absurd hs not_mem_nil
  | cons i is ih =>
    intro f p hp hlen hlt hown s hs hsr
    rw [slotsFrom, mem_cons] at hs
    rcases hs with rfl | hs
    · refine hown ?_ i rfl
      rw [show f = r from hsr, hT.atRoot] at hp
      exact (Option.some.inj hp).symm
    · split at hs
      · rename_i hgo
        rw [and_eq_true, Bool.not_eq_true'] at hgo
        cases is with
        | nil => exact absurd hs not_mem_nil
        | cons k is =>
          rw [length_cons, length_cons] at hlen
          refine ih _ (p ++ [i])
            (hT.child hp (by omega) (hlt i mem_cons_self) hgo.1 hgo.2)
            (by simp only [length_append, length_cons, length_nil]; omega)
            (fun j hj => hlt j (mem_cons_of_mem i hj)) (fun h => absurd h (by simp)) s hs hsr
      · exact absurd hs not_mem_nil

/-! ### Private address spaces -/

/-- Below the own entries the address space is plain; the tables that the other entries lead to are
in use and apart from it. -/
structure Private (own : ℕ → Bool) (m : Machine) (r : ℕ) : Prop where
  plain : Plain (m.only own r) r
  apart : ∃ pos, TreeAt (m.only own r) r pos ∧
    ∀ v, own (idx4 v) = false → ∀ s ∈ slotsFrom m (tableIndices v) r,
      s = (r, idx4 v) ∨ (m.pmm.used s.1 = true ∧ pos s.1 = none)

/-- Below the own entries the processor sees the private part. -/
theorem Private.hwWalk_only (h : Private own m r) {v : ℕ} (hv : own (idx4 v) = true) :
    hwWalk (m.only own r) r v = hwWalk m r v ∧
      walkEntries (m.only own r) r v = walkEntries m r v := by
  obtain ⟨pos, hT⟩ := h.plain.tree
  have hsame : ∀ s ∈ slotsFrom (m.only own r) (tableIndices v) r,
      m.mem s.1 s.2 = (m.only own r).mem s.1 s.2 := by
    intro s hs
    refine (share_mem (hT.slots_own _ r [] hT.atRoot (by rw [tableIndices_length]; decide)
      (tableIndices_lt v) (fun _ j hj => ?_) s hs)).symm
    cases hj
    exact hv
  exact ⟨(hwWalk_of_slots hsame).symm, (walk_of_slots _ _ hsame).1.symm⟩

/-- The private part has grown, and the other top-level entries are the same. -/
structure OwnChange (own : ℕ → Bool) (m m' : Machine) (r : ℕ) : Prop where
  plain : Plain (m'.only own r) r
  grown : ∀ pos, TreeAt (m.only own r) r pos →
    ∃ pos', Grown (m.only own r) (m'.only own r) r pos pos'
  top : ∀ j, own j = false → m'.mem r j = m.mem r j

section

variable (h : Private own m r) (hc : OwnChange own m m' r)
include h hc

theorem OwnChange.slots : ∃ pos', TreeAt (m'.only own r) r pos' ∧ ∀ v, own (idx4 v) = false →
    ∀ s ∈ slotsFrom m (tableIndices v) r, m'.mem s.1 s.2 = m.mem s.1 s.2 ∧
      (s = (r, idx4 v) ∨ (m'.pmm.used s.1 = true ∧ pos' s.1 = none)) := by
  obtain ⟨pos, hT, hapart⟩ := h.apart
  obtain ⟨pos', hG⟩ := hc.grown pos hT
  refine ⟨pos', hG.tree, fun v hv s hs => ?_⟩
  rcases hapart v hv s hs with rfl | ⟨hused, hnone⟩
  · exact ⟨hc.top _ hv, .inl rfl⟩
  · have hne : s.1 ≠ r := by
      intro heq
      rw [heq, hT.atRoot] at hnone
      cases hnone
    obtain ⟨hnone', hkeep⟩ := hG.beside hused hnone
    have hmem := hkeep s.2
    rw [Machine.only, Machine.only, share_mem fun heq => absurd heq hne,
      share_mem fun heq => absurd heq hne] at hmem
    exact ⟨hmem, .inr ⟨hG.used hused, hnone'⟩⟩

/-- **What a process shares is left alone**, and its own part stays apart from it. -/
theorem OwnChange.priv : Private own m' r := by
  obtain ⟨pos', hT', hslots⟩ := hc.slots h
  refine ⟨hc.plain, pos', hT', fun v hv s hs => ?_⟩
  rw [(walk_of_slots _ _ fun s hs => (hslots v hv s hs).1).2] at hs
  exact (hslots v hv s hs).2

theorem OwnChange.hwWalk {v : ℕ} (hv : own (idx4 v) = false) : hwWalk m' r v = hwWalk m r v := by
  obtain ⟨pos', -, hslots⟩ := hc.slots h
  exact hwWalk_of_slots fun s hs => (hslots v hv s hs).1

end

/-! ### Mapping a page -/

/-- What `mmu_map` does in a private address space. -/
structure Mapping (own : ℕ → Bool) (m m' : Machine) (root virt phys : ℕ) (flags : MmuFlags)
    (ok : Bool) : Prop extends PageMapping m m' root virt phys flags ok where
  priv : Private own m' (m.root root)
  total : m'.pmm.totalFrames = m.pmm.totalFrames

section

variable (h : Private own m (m.root root)) (hv : own (idx4 virt) = true)
include h hv

/-- A walk in the machine is one in its private part. -/
theorem Private.walkPage_only : (walkPage m root virt true).2 =
    (walkPage (m.only own (m.root root)) root virt true).2 := by
  have hP : Plain (m.only own (m.root root)) ((m.only own (m.root root)).root root) := h.plain
  have hwalk := walkPage_share hP hv (m.mem (m.root root)) true
  rw [show (m.only own (m.root root)).root root = m.root root from rfl, share_only] at hwalk
  rw [hwalk]

/-- **`mmu_map` below an own entry** keeps the address space private, the shared part as it is, and
every page but its own. -/
theorem Private.mmuMap (phys : ℕ) (flags : MmuFlags) :
    Mapping own m (mmuMap m root virt phys flags).1 root virt phys flags
      (mmuMap m root virt phys flags).2 := by
  have hP : Plain (m.only own (m.root root)) ((m.only own (m.root root)).root root) := h.plain
  have hM := hP.mmuMap virt phys flags
  have hok := hM.done
  rw [← h.walkPage_only hv] at hok
  have hshare := fun top => mmuMap_share hP hv top phys flags
  -- the machine after the call, and its private part
  have hmem := hshare (m.mem (m.root root))
  have honly := hshare fun _ => 0#64
  rw [show (m.only own (m.root root)).root root = m.root root from rfl] at hmem honly hok
  rw [share_only] at hmem
  rw [show (m.only own (m.root root)).share own (m.root root) (fun _ => 0#64) =
    m.only own (m.root root) from share_share _] at honly
  rw [hmem]
  generalize Paging.mmuMap (m.only own (m.root root)) root virt phys flags = s at hM hok honly ⊢
  obtain ⟨n, ok⟩ := s
  have hpart : (n.share own (m.root root) (m.mem (m.root root))).only own (m.root root) = n := by
    rw [Machine.only, share_share]
    exact (congrArg Prod.fst honly).symm
  have hc : OwnChange own m (n.share own (m.root root) (m.mem (m.root root))) (m.root root) :=
    ⟨by rw [hpart]; exact hM.plain, by rw [hpart]; exact hM.grown, fun j hj => if_pos ⟨rfl, hj⟩⟩
  have hpriv := hc.priv h
  have hown : ∀ {v}, own (idx4 v) = true → hwWalk n (m.root root) v =
      hwWalk (n.share own (m.root root) (m.mem (m.root root))) (m.root root) v := by
    intro v hv
    rw [← (hpriv.hwWalk_only hv).1, hpart]
  have hlift : ∀ v, hwWalk n (m.root root) v = hwWalk (m.only own (m.root root)) (m.root root) v →
      hwWalk (n.share own (m.root root) (m.mem (m.root root))) (m.root root) v =
        hwWalk m (m.root root) v := by
    intro v heq
    cases hv : own (idx4 v) with
    | true => rw [← hown hv, heq, (h.hwWalk_only hv).1]
    | false => exact hc.hwWalk h hv
  rw [(h.hwWalk_only hv).1] at hok
  refine ⟨⟨hM.kernelRoot, hM.pat, fun v hne => hlift v (hM.kept v hne),
    fun hfail v => hlift v (hM.failed hfail v), hok, fun hdone => ?_⟩, hpriv, ?_⟩
  · rw [← hown hv]
    exact hM.mapped hdone
  · obtain ⟨pos, hT⟩ := h.plain.tree
    obtain ⟨pos', hG⟩ := hM.grown pos hT
    exact hG.total

end

end AxiomeOS.Paging
