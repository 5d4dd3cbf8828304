import AxiomeOS.Paging.Tree
import Mathlib.Data.List.Basic

/-!
# What the page operations do to a tree of tables

The effect of `mmu_map`, `mmu_unmap`, `mmu_virt_to_phys` and `mmu_protect` on what the processor
sees, over every tree of tables with pages of any size and any cache type.

A walk is quiet but for the split of a 2 MiB entry (`TreeAt.walkPage`).  A split takes the frames
of the small pages from the address field of the entry, and the mask of that field keeps bit 12,
which is the large-page PAT bit.  So a split keeps every translation when that bit is clear
(`Split.hwWalk_eq`) and moves all of them by one frame when it is set (`Split.frame`).  A 1 GiB
entry is split as if it were a 2 MiB entry, and what its pages then translate to is read from the
data in its first frames.

`page_operations_exact` collects the four operations, for an address whose walk does not end in
a 1 GiB page that is then split.
-/

namespace AxiomeOS.Paging

open Bits Frames List

variable {g : ℕ}

variable {m m' : Machine} {root : ℕ} {pos : ℕ → Option (List ℕ)} {q : List ℕ} {t i : ℕ}
  {ups : List U64}

/-! ### Splitting a 2 MiB entry -/

theorem isPresent_zero : isPresent 0#64 = false := by decide

theorem splitFlags_and_addrMask (e : U64) : splitFlags e &&& x86PteAddrMask = 0#64 := by
  have hlow : lowFlags e &&& ~~~x86PteHuge &&& ~~~x86PteGlobal &&& x86PteAddrMask = 0#64 := by
    rw [BitVec.and_assoc, BitVec.and_assoc, BitVec.and_comm (~~~x86PteHuge), BitVec.and_comm
      (~~~x86PteGlobal), BitVec.and_assoc, ← BitVec.and_assoc, lowFlags_and_addrMask,
      BitVec.zero_and]
  have hpat : x86PtePat &&& x86PteAddrMask = 0#64 := by decide
  have hnx : x86PteNx &&& x86PteAddrMask = 0#64 := by decide
  simp only [splitFlags]
  split <;> split <;> simp only [BitVec.and_or_distrib_right, hlow, hpat, hnx, BitVec.or_zero]

theorem getLsbD_splitFlags (e : U64) (k : ℕ) (hk : k < 3) :
    (splitFlags e).getLsbD k = e.getLsbD k := by
  have hmasks : (~~~x86PteHuge).getLsbD k = true ∧ (~~~x86PteGlobal).getLsbD k = true ∧
      x86PtePat.getLsbD k = false ∧ x86PteNx.getLsbD k = false := by
    match k, hk with
    | 0, _ => decide
    | 1, _ => decide
    | 2, _ => decide
  obtain ⟨hhuge, hglobal, hpat, hnx⟩ := hmasks
  have hlow : (lowFlags e &&& ~~~x86PteHuge &&& ~~~x86PteGlobal).getLsbD k = e.getLsbD k := by
    rw [BitVec.getLsbD_and, BitVec.getLsbD_and, getLsbD_lowFlags e k (by omega), hhuge, hglobal,
      Bool.and_true, Bool.and_true]
  simp only [splitFlags]
  split <;> split <;> simp only [BitVec.getLsbD_or, hlow, hpat, hnx, Bool.or_false]

theorem isPresent_splitFlags (e : U64) : isPresent (splitFlags e) = isPresent e := by
  rw [isPresent_eq, isPresent_eq, getLsbD_splitFlags e 0 (by decide)]

theorem rights_splitFlags (e : U64) :
    isWrite (splitFlags e) = isWrite e ∧ isUser (splitFlags e) = isUser e := by
  simp (disch := decide) only [isWrite_eq, isUser_eq, getLsbD_splitFlags, and_self]

theorem isNx_splitFlags (e : U64) : isNx (splitFlags e) = isNx e := by
  have hlow : (lowFlags e &&& ~~~x86PteHuge &&& ~~~x86PteGlobal).getLsbD 63 = false := by
    rw [BitVec.getLsbD_and, BitVec.getLsbD_and, ← isNx_eq, isNx_lowFlags, Bool.false_and,
      Bool.false_and]
  have hpat : x86PtePat.getLsbD 63 = false := by decide
  have hnx : x86PteNx.getLsbD 63 = true := by decide
  have hold : flagSet e x86PteNx = e.getLsbD 63 := isNx_eq e
  rw [isNx_eq, isNx_eq]
  simp only [splitFlags, hold]
  split <;> split <;> simp_all

/-- The 2 MiB entry `i` of the table `t`, reached by `q`, was split into the fresh table `g`. -/
structure Split (m m' : Machine) (root : ℕ) (q : List ℕ) (t i g : ℕ) (ups : List U64) : Prop where
  reach : Reach m root q t ups
  level : q.length = 2
  index : i < 512
  present : isPresent (m.mem t i) = true
  huge : isHuge (m.mem t i) = true
  eq : ∃ p, Allocated m.pmm p g ∧ m' = m.link p g
    (fun k => pteEntry (frameOf (m.mem t i) + k) (splitFlags (m.mem t i))) t i
    (pteEntry g (dirFlags (m.mem t i)))

theorem Split.grown (h : Split m m' root q t i g ups) (hT : TreeAt m root pos) :
    (∃ pos', Grown m m' root pos pos') ∧
      Reach m' root (q ++ [i]) g (ups ++ [pteEntry g (dirFlags (m.mem t i))]) := by
  obtain ⟨p, ha, rfl⟩ := h.eq
  have hlen := h.level
  have hp : isPresent (pteEntry g (dirFlags (m.mem t i))) = true := by
    rw [isPresent_pteEntry, isPresent_dirFlags, h.present]
  have hh : isHuge (pteEntry g (dirFlags (m.mem t i))) = false := by
    rw [isHuge_pteEntry, isHuge_dirFlags]
  have he : frameOf (pteEntry g (dirFlags (m.mem t i))) = g :=
    frameOf_pteEntry g ha.lt_field _ (dirFlags_and_addrMask _)
  have ht := h.reach.place hT (by omega)
  exact ⟨⟨_, .link ha ht (hT.link ha ht (by omega) (fun _ => h.huge) hp hh he (by omega))⟩,
    h.reach.link_snoc hT (by omega) h.index ha _ hp hh he⟩

theorem Split.tree (h : Split m m' root q t i g ups) (hT : TreeAt m root pos) :
    (∃ pos', TreeAt m' root pos') ∧
      Reach m' root (q ++ [i]) g (ups ++ [pteEntry g (dirFlags (m.mem t i))]) := by
  obtain ⟨⟨pos', hG⟩, hr⟩ := h.grown hT
  exact ⟨⟨pos', hG.tree⟩, hr⟩

theorem Split.entry (h : Split m m' root q t i g ups) (hT : TreeAt m root pos) (k : ℕ) :
    m'.mem g k = pteEntry (frameOf (m.mem t i) + k) (splitFlags (m.mem t i)) := by
  obtain ⟨p, ha, rfl⟩ := h.eq
  have hlen := h.level
  exact hT.link_fresh ha (h.reach.place hT (by omega)) _ _ k

variable {f phys v virt : ℕ} {e₂ e₃ e₄ : U64} {p : List ℕ} {flags : MmuFlags} {third : Bool}

section

variable (h : Split m m' root q t i g ups) (hT : TreeAt m root pos)
include h hT

theorem Split.paths (hv : tableIndices v = q ++ [i] ++ [idx1 v]) :
    walkEntries m root v = ups ++ [m.mem t i] ∧
      walkEntries m' root v = ups ++ [pteEntry g (dirFlags (m.mem t i))] ++
        [pteEntry (frameOf (m.mem t i) + idx1 v) (splitFlags (m.mem t i))] := by
  constructor
  · rw [walkEntries, hv, append_assoc, h.reach.pathFrom, singleton_append,
      Paging.pathFrom, h.present, h.huge]
    rfl
  · rw [walkEntries, hv, (h.tree hT).2.pathFrom, pathFrom_last, h.entry hT]

/-- What the processor sees below the entry: the rights of the large page, and the frames counted
from its address field. -/
theorem Split.hwWalk_below (hv : tableIndices v = q ++ [i] ++ [idx1 v])
    (hbound : frameOf (m.mem t i) + idx1 v < 2 ^ 40) :
    ∃ w u nx, hwWalk m root v = some ⟨frameOf (m.mem t i) / 512 * 512 + idx1 v, w, u, nx⟩ ∧
      hwWalk m' root v = some ⟨frameOf (m.mem t i) + idx1 v, w, u, nx⟩ := by
  obtain ⟨hbefore, hafter⟩ := h.paths hT hv
  obtain ⟨⟨pos', hT'⟩, -⟩ := h.tree hT
  obtain ⟨p, ha, -⟩ := h.eq
  obtain ⟨e4, e3, rfl⟩ := length_eq_two.mp (h.reach.length.trans h.level)
  have hups := h.reach.present
  have hsmall := frameOf_pteEntry _ hbound _ (splitFlags_and_addrMask (m.mem t i))
  refine ⟨[e4, e3, m.mem t i].all isWrite, [e4, e3, m.mem t i].all isUser,
    [e4, e3, m.mem t i].any isNx, ?_, ?_⟩
  · rw [hT.hwWalk_eq, hbefore, if_pos]
    · rfl
    · rw [all_append, hups, all_cons, h.present]
      rfl
  · rw [hT'.hwWalk_eq, hafter, if_pos]
    · simp only [cons_append, nil_append, pathFrame, hsmall, all_cons, all_nil,
        any_cons, any_nil, isWrite_pteEntry, isUser_pteEntry, isNx_pteEntry g ha.lt_field,
        isNx_pteEntry _ hbound, rights_dirFlags, isNx_dirFlags,
        rights_splitFlags, isNx_splitFlags, Bool.and_true, Bool.or_false,
        Bool.and_self, Bool.false_or]
    · rw [all_append, all_append, hups, all_cons, all_cons, isPresent_pteEntry,
        isPresent_pteEntry, isPresent_dirFlags, isPresent_splitFlags, h.present]
      rfl

omit h hT in
theorem tableIndices_of_below (hlen : q.length = 2) (hv : q ++ [i] <+: tableIndices v) :
    tableIndices v = q ++ [i] ++ [idx1 v] := by
  obtain ⟨rest, hrest⟩ := hv
  match q, hlen, hrest with
  | [a, b], _, hrest =>
    simp only [tableIndices, cons_append, nil_append, cons.injEq] at hrest ⊢
    exact ⟨hrest.1.symm, hrest.2.1.symm, hrest.2.2.1.symm, trivial⟩

/-- **An aligned split** keeps every translation. -/
theorem Split.hwWalk_eq (halign : frameOf (m.mem t i) % 512 = 0) (v : ℕ) :
    hwWalk m' root v = hwWalk m root v := by
  have hlen := h.level
  by_cases hv : (q ++ [i]) <+: tableIndices v
  · have hone := tableIndices_of_below hlen hv
    have hlt := frameOf_lt (m.mem t i)
    have hidx := idx1_lt v
    obtain ⟨w, u, nx, hbefore, hafter⟩ := h.hwWalk_below hT hone (by omega)
    rw [hbefore, hafter, show frameOf (m.mem t i) / 512 * 512 = frameOf (m.mem t i) by omega]
  · obtain ⟨p, ha, rfl⟩ := h.eq
    exact hT.hwWalk_outside
      (fun f p' j hf hne => hT.link_mem ha (h.reach.place hT (by omega)) _ _ hf hne) hv

end

/-! ### One level of a walk -/

theorem unchecked_nil : false = true ↔ ([] : List ℕ) ≠ [] := by simp

theorem checked_snoc (q : List ℕ) (i : ℕ) : true = true ↔ q ++ [i] ≠ [] := by simp

/-- **A level of a walk** fails quietly, goes quietly one level down, or splits a large page. -/
theorem TreeAt.descend (hT : TreeAt m root pos) (hr : Reach m root q t ups) (hq : q.length < 3)
    (hi : i < 512) {check : Bool} (hc : check = true ↔ q ≠ []) (alloc : Bool) :
    (∃ m', descend m t i check alloc = (m', none) ∧ Quiet m m' root) ∨
      (∃ m' g e, descend m t i check alloc = (m', some g) ∧ Quiet m m' root ∧
        Reach m' root (q ++ [i]) g (ups ++ [e])) ∨
      (isPresent (m.mem t i) = true ∧ isHuge (m.mem t i) = true ∧ q ≠ [] ∧
        ∃ p g, Allocated m.pmm p g ∧ descend m t i check alloc = (m.link p g
          (fun k => pteEntry (frameOf (m.mem t i) + k) (splitFlags (m.mem t i))) t i
          (pteEntry g (dirFlags (m.mem t i))), some g)) := by
  rcases descend_cases m t i check alloc with
    ⟨p, hp, heq⟩ | ⟨hp, hh, heq⟩ | ⟨p, g, c, e, ha, hk, hcheck, -, heq⟩
  · exact .inl ⟨_, heq, .spent hT hp⟩
  · refine .inr (.inl ⟨m, _, m.mem t i, heq, .refl hT, hr.snoc hi hp ?_⟩)
    by_cases hnil : q = []
    · have hroot : t = root := hT.inj (hr.place hT (by omega)) (by rw [hnil]; exact hT.atRoot)
      rw [hroot] at hp ⊢
      exact hT.top hi hp
    · exact hh (hc.mpr hnil)
  · cases hk with
    | table hold =>
      refine .inr (.inl ⟨_, g, pteEntry g tableFlags, heq, .table hT hr hq ha hi hold, ?_⟩)
      exact hr.link_snoc hT hq hi ha _ (by rw [isPresent_pteEntry]; decide)
        (by rw [isHuge_pteEntry]; decide) (frameOf_pteEntry g ha.lt_field _ (by decide))
    | split hp hh => exact .inr (.inr ⟨hp, hh, hc.mp (hcheck hp), p, g, ha, heq⟩)

/-! ### The whole walk -/

/-- The walk of `virt` ends in a present 1 GiB entry. -/
def largePage1G (m : Machine) (root virt : ℕ) : Bool :=
  (walkEntries m root virt).all isPresent && (walkEntries m root virt).length == 2

/-- The walk of `virt` ends in a present 2 MiB entry with the large-page PAT bit. -/
def patLarge2M (m : Machine) (root virt : ℕ) : Bool :=
  (walkEntries m root virt).all isPresent && (walkEntries m root virt).length == 3 &&
    flagSet (leafEntry m root virt) x86PtePatLarge

theorem Quiet.path (h : Quiet m m' root) {path : List U64} (hp : path.all isPresent = true)
    (hv : walkEntries m' root v = path) : walkEntries m root v = path := (h.mapped v path hp).mp hv

/-- **The walk.**  Outside 1 GiB pages it is quiet, with the leaf table reached when it succeeds,
or it splits the 2 MiB entry of the address after a quiet change. -/
theorem TreeAt.walkPage (hT : TreeAt m (m.root root) pos)
    (hG : largePage1G m (m.root root) virt = false) (alloc : Bool) :
    (∃ m', walkPage m root virt alloc = (m', none) ∧ Quiet m m' (m.root root)) ∨
      (∃ m' t ups, walkPage m root virt alloc = (m', some (t, idx1 virt)) ∧
        Quiet m m' (m.root root) ∧
        Reach m' (m.root root) [idx4 virt, idx3 virt, idx2 virt] t ups) ∨
      (∃ m₁ m' t g ups, walkPage m root virt alloc = (m', some (g, idx1 virt)) ∧
        Quiet m m₁ (m.root root) ∧
        Split m₁ m' (m.root root) [idx4 virt, idx3 virt] t (idx2 virt) g ups) := by
  rcases hT.descend .nil (by decide) (idx4_lt virt) unchecked_nil alloc with
    ⟨m₁, heq1, hQ1⟩ | ⟨m₁, pdp, e₄, heq1, hQ1, hr1⟩ | ⟨-, -, hne, -⟩
  · exact .inl ⟨m₁, by rw [Paging.walkPage]; simp only [heq1], hQ1⟩
  · obtain ⟨pos1, hT1⟩ := hQ1.tree
    rcases hT1.descend hr1 (show 1 < 3 by decide) (idx3_lt virt) (checked_snoc ..) alloc with
      ⟨m2, heq2, hQ2⟩ | ⟨m2, pd, e₃, heq2, hQ2, hr2⟩ | ⟨hp, hh, -⟩
    · exact .inl ⟨m2, by rw [Paging.walkPage]; simp only [heq1, heq2], hQ1.trans hQ2⟩
    · obtain ⟨pos2, hT2⟩ := hQ2.tree
      rcases hT2.descend hr2 (show 2 < 3 by decide) (idx2_lt virt) (checked_snoc ..) alloc with
        ⟨m3, heq3, hQ3⟩ | ⟨m3, pt, e₂, heq3, hQ3, hr3⟩ | ⟨hp, hh, -, p, g, ha, heq3⟩
      · exact .inl ⟨m3, by rw [Paging.walkPage]; simp only [heq1, heq2, heq3],
          (hQ1.trans hQ2).trans hQ3⟩
      · exact .inr (.inl ⟨m3, pt, _, by rw [Paging.walkPage]; simp only [heq1, heq2, heq3],
          (hQ1.trans hQ2).trans hQ3, hr3⟩)
      · exact .inr (.inr ⟨m2, _, pd, g, _, by rw [Paging.walkPage]; simp only [heq1, heq2, heq3],
          hQ1.trans hQ2, ⟨hr2, rfl, idx2_lt virt, hp, hh, p, ha, rfl⟩⟩)
    · -- a split at this level is a 1 GiB entry on the path
      have hpath : walkEntries m₁ (m.root root) virt = [e₄, m₁.mem pdp (idx3 virt)] := by
        rw [walkEntries, show tableIndices virt = [] ++ [idx4 virt] ++
          [idx3 virt, idx2 virt, idx1 virt] from rfl, hr1.pathFrom, Paging.pathFrom, hp, hh]
        rfl
      have hall : [e₄, m₁.mem pdp (idx3 virt)].all isPresent = true := by
        have := hr1.present
        simp only [nil_append, all_cons, all_nil, Bool.and_true] at this ⊢
        rw [this, hp]
        rfl
      rw [largePage1G, hQ1.path hall hpath, hall] at hG
      cases hG
  · exact absurd rfl hne

/-- The walk to a 1 GiB page comes back without having changed an entry when there is no frame to
split it. -/
theorem walkPage_gig (hG : largePage1G m (m.root root) virt = true)
    (hfree : (pmmAllocFrame m.pmm).2 = 0) (alloc : Bool) :
    ∃ p, Spent m.pmm p ∧ walkPage m root virt alloc = ({ m with pmm := p }, none) := by
  rw [largePage1G, Bool.and_eq_true, beq_iff_eq] at hG
  obtain ⟨hall, hlen⟩ := hG
  obtain ⟨e₄, e₃, hpath⟩ := length_eq_two.mp hlen
  rw [hpath] at hall
  simp only [all_cons, all_nil, Bool.and_true, Bool.and_eq_true] at hall
  rw [walkEntries, tableIndices] at hpath
  obtain ⟨h4, -, -, hpath⟩ := pathFrom_next hpath
  obtain ⟨h3, hh3⟩ := pathFrom_end hpath hall.2
  refine ⟨_, pmmAllocFrame_spent hfree, ?_⟩
  have hd4 : descend m (m.root root) (idx4 virt) false alloc = (m, some (frameOf e₄)) := by
    rw [descend_follow (by rw [h4]; exact hall.1) (fun h => absurd h (by decide)), h4]
  have hd3 : descend m (frameOf e₄) (idx3 virt) true alloc
      = ({ m with pmm := (pmmAllocFrame m.pmm).1 }, none) := by
    simp [Paging.descend, splitHuge, h3, hall.2, hh3, hfree]
  rw [Paging.walkPage]
  simp only [hd4, hd3]

/-- A walk that ends in a 2 MiB page, entry by entry. -/
theorem walkEntries_large (hpath : walkEntries m root virt = [e₄, e₃, e₂])
    (hall : [e₄, e₃, e₂].all isPresent = true) :
    Reach m root [idx4 virt, idx3 virt] (frameOf e₃) [e₄, e₃] ∧
      m.mem root (idx4 virt) = e₄ ∧ m.mem (frameOf e₄) (idx3 virt) = e₃ ∧
      m.mem (frameOf e₃) (idx2 virt) = e₂ ∧ isHuge e₃ = false ∧ isHuge e₂ = true := by
  simp only [all_cons, all_nil, Bool.and_true, Bool.and_eq_true] at hall
  rw [walkEntries, tableIndices] at hpath
  obtain ⟨h4, hp4, hh4, hpath⟩ := pathFrom_next hpath
  obtain ⟨h3, hp3, hh3, hpath⟩ := pathFrom_next hpath
  obtain ⟨h2, hh2⟩ := pathFrom_end hpath hall.2.2
  have hr1 := (.nil : Reach m root [] root []).snoc (idx4_lt virt) (by rw [h4]; exact hp4)
    (by rw [h4]; exact hh4)
  rw [h4] at hr1
  have hr2 := hr1.snoc (idx3_lt virt) (by rw [h3]; exact hp3) (by rw [h3]; exact hh3)
  rw [h3] at hr2
  exact ⟨hr2, h4, h3, h2, hh3, hh2⟩

/-- The walk to a 2 MiB page follows two present entries, and the third step is all that
happens. -/
theorem walkPage_large (hpath : walkEntries m (m.root root) virt = [e₄, e₃, e₂])
    (hall : [e₄, e₃, e₂].all isPresent = true) (alloc : Bool) :
    ((pmmAllocFrame m.pmm).2 = 0 ∧ ∃ p, Spent m.pmm p ∧
      walkPage m root virt alloc = ({ m with pmm := p }, none)) ∨
      ((pmmAllocFrame m.pmm).2 ≠ 0 ∧ ∃ m' t g ups,
        walkPage m root virt alloc = (m', some (g, idx1 virt)) ∧
        Split m m' (m.root root) [idx4 virt, idx3 virt] t (idx2 virt) g ups) := by
  obtain ⟨hr, h4, h3, h2, hh3, hh2⟩ := walkEntries_large hpath hall
  simp only [all_cons, all_nil, Bool.and_true, Bool.and_eq_true] at hall
  obtain ⟨hp4, hp3, hp2⟩ := hall
  have hd4 : descend m (m.root root) (idx4 virt) false alloc = (m, some (frameOf e₄)) := by
    rw [descend_follow (by rw [h4]; exact hp4) (fun h => absurd h (by decide)), h4]
  have hd3 : descend m (frameOf e₄) (idx3 virt) true alloc = (m, some (frameOf e₃)) := by
    rw [descend_follow (by rw [h3]; exact hp3) (fun _ => by rw [h3]; exact hh3), h3]
  by_cases hfree : (pmmAllocFrame m.pmm).2 = 0
  · refine .inl ⟨hfree, _, pmmAllocFrame_spent hfree, ?_⟩
    have hd2 : descend m (frameOf e₃) (idx2 virt) true alloc
        = ({ m with pmm := (pmmAllocFrame m.pmm).1 }, none) := by
      simp [Paging.descend, splitHuge, h2, hp2, hh2, hfree]
    rw [Paging.walkPage]
    simp only [hd4, hd3, hd2]
  · obtain ⟨p, g, c, e, ha, hk, hd2⟩ := descend_split
      (by rw [h2]; exact hp2) (by rw [h2]; exact hh2) hfree alloc
    cases hk with
    | table hold =>
      rw [h2, hp2] at hold
      cases hold
    | split hp hh =>
      refine .inr ⟨hfree, _, frameOf e₃, g, _, ?_, ⟨hr, rfl, idx2_lt virt, hp, hh, p, ha, rfl⟩⟩
      rw [Paging.walkPage]
      simp only [hd4, hd3, hd2]

/-! ### The word that `mmu_map` stores -/

theorem getLsbD_orIf (c : Bool) (x k : U64) (n : ℕ) :
    (if c then x ||| k else x).getLsbD n = (x.getLsbD n || (c && k.getLsbD n)) := by
  cases c <;> simp

theorem orIf_and (c : Bool) (x k mask : U64) :
    (if c then x ||| k else x) &&& mask = x &&& mask ||| if c then k &&& mask else 0#64 := by
  cases c
  · rw [if_neg Bool.false_ne_true, if_neg Bool.false_ne_true, BitVec.or_zero]
  · rw [if_pos rfl, if_pos rfl, BitVec.and_or_distrib_right]

/-- The cache-type bits of `MMU_WC`. -/
def wcBits (pat : PatState) (flags : MmuFlags) : U64 :=
  if pat.available || !pat.initialized then
    if flagSet flags mmuHuge then x86PtePatLarge else x86PtePat
  else x86PtePwt ||| x86PtePcd

section Flags

variable (pat : PatState) (flags : MmuFlags)

theorem toX86Flags_eq :
    toX86Flags pat flags =
      let x := x86PtePresent
      let x := if flagSet flags mmuWrite then x ||| x86PteWrite else x
      let x := if flagSet flags mmuUser then x ||| x86PteUser else x
      let x := if flagSet flags mmuHuge then x ||| x86PteHuge else x
      let x := if flagSet flags mmuGlobal then x ||| x86PteGlobal else x
      let x := if flagSet flags mmuWc then x ||| wcBits pat flags else x
      let x := if flagSet flags mmuUncached then x ||| (x86PtePwt ||| x86PtePcd) else x
      if flagSet flags mmuNx then x ||| x86PteNx else x := by
  have hwc : ∀ x : U64,
      (if flagSet flags mmuWc then
        if pat.available || !pat.initialized then
          if flagSet flags mmuHuge then x ||| x86PtePatLarge else x ||| x86PtePat
        else x ||| (x86PtePwt ||| x86PtePcd)
      else x) = if flagSet flags mmuWc then x ||| wcBits pat flags else x := by
    intro x
    rw [wcBits]
    cases flagSet flags mmuWc <;> cases flagSet flags mmuHuge <;>
      cases (pat.available || !pat.initialized) <;> rfl
  simp only [toX86Flags, hwc]

variable {n : ℕ} (hn : n = 1 ∨ n = 2 ∨ n = 63)
include hn

theorem getLsbD_wcBits : (wcBits pat flags).getLsbD n = false := by
  rw [wcBits]
  rcases hn with rfl | rfl | rfl <;> split_ifs <;> decide

theorem getLsbD_toX86Flags :
    (toX86Flags pat flags).getLsbD n = (flagSet flags mmuWrite && x86PteWrite.getLsbD n ||
      flagSet flags mmuUser && x86PteUser.getLsbD n ||
      flagSet flags mmuNx && x86PteNx.getLsbD n) := by
  have hbits : x86PtePresent.getLsbD n = false ∧ x86PteHuge.getLsbD n = false ∧
      x86PteGlobal.getLsbD n = false ∧ (x86PtePwt ||| x86PtePcd).getLsbD n = false := by
    rcases hn with rfl | rfl | rfl <;> decide
  rw [toX86Flags_eq]
  simp only [getLsbD_orIf, getLsbD_wcBits pat flags hn, hbits, Bool.and_false,
    Bool.or_false, Bool.false_or]

/-- `to_x86_flags` sets the large-page PAT bit, which is in the address field of a small page. -/
def setsPatLarge (pat : PatState) (flags : MmuFlags) : Bool :=
  flagSet flags mmuHuge && flagSet flags mmuWc && (pat.available || !pat.initialized)

omit hn in
theorem toX86Flags_and_addrMask :
    toX86Flags pat flags &&& x86PteAddrMask
      = if setsPatLarge pat flags then x86PtePatLarge else 0#64 := by
  have hwc : (if flagSet flags mmuWc then wcBits pat flags &&& x86PteAddrMask else 0#64)
      = if setsPatLarge pat flags then x86PtePatLarge else 0#64 := by
    rw [setsPatLarge, wcBits]
    cases flagSet flags mmuWc <;> cases flagSet flags mmuHuge <;>
      cases (pat.available || !pat.initialized) <;> decide
  rw [toX86Flags_eq]
  simp only [orIf_and, hwc, show x86PtePresent &&& x86PteAddrMask = 0#64 by decide,
    show x86PteWrite &&& x86PteAddrMask = 0#64 by decide,
    show x86PteUser &&& x86PteAddrMask = 0#64 by decide,
    show x86PteHuge &&& x86PteAddrMask = 0#64 by decide,
    show x86PteGlobal &&& x86PteAddrMask = 0#64 by decide,
    show x86PteNx &&& x86PteAddrMask = 0#64 by decide,
    show (x86PtePwt ||| x86PtePcd) &&& x86PteAddrMask = 0#64 by decide, ite_self,
    BitVec.or_zero, BitVec.zero_or]

end Flags

theorem frameOf_mapEntry_eq (pat : PatState) (phys : ℕ) (flags : MmuFlags) :
    frameOf (mapEntry pat phys flags)
      = phys / 4096 % 2 ^ 40 ||| if setsPatLarge pat flags then 1 else 0 := by
  have hphys : (BitVec.ofNat 64 phys &&& x86PteAddrMask).toNat / 4096 = phys / 4096 % 2 ^ 40 := by
    rw [← frameOf, frameOf_eq, BitVec.toNat_ofNat]
    omega
  rw [frameOf, mapEntry, BitVec.and_or_distrib_right, toX86Flags_and_addrMask, BitVec.and_assoc,
    BitVec.and_self, BitVec.toNat_or, show (4096 : ℕ) = 2 ^ 12 by decide,
    ← Nat.shiftRight_eq_div_pow, Nat.shiftRight_or_distrib, Nat.shiftRight_eq_div_pow,
    Nat.shiftRight_eq_div_pow, ← show (4096 : ℕ) = 2 ^ 12 by decide, hphys]
  split <;> rfl

/-- **The frame is the asked one** when the address fits the field and the cache-type bit that
lies in the field is not set by mistake. -/
theorem frameOf_mapEntry_iff (pat : PatState) (phys : ℕ) (flags : MmuFlags) :
    frameOf (mapEntry pat phys flags) = phys / 4096 ↔
      phys < 2 ^ 52 ∧ (setsPatLarge pat flags = true → phys / 4096 % 2 = 1) := by
  rw [frameOf_mapEntry_eq]
  cases setsPatLarge pat flags with
  | false =>
    rw [if_neg Bool.false_ne_true, Nat.or_zero]
    exact ⟨fun h => ⟨by omega, nofun⟩, fun h => by omega⟩
  | true =>
    have hodd : (phys / 4096 % 2 ^ 40 ||| 1) % 2 = 1 := by
      rw [Nat.or_mod_two_eq_one]
      exact .inr rfl
    have hhalf : (phys / 4096 % 2 ^ 40 ||| 1) / 2 = phys / 4096 % 2 ^ 40 / 2 := by
      rw [Nat.or_div_two]
      exact Nat.or_zero _
    rw [if_pos rfl]
    constructor
    · intro h
      exact ⟨by omega, fun _ => by omega⟩
    · rintro ⟨hlt, hp⟩
      have := hp rfl
      omega

/-! ### Storing the leaf entry -/

theorem tableIndices_eq_iff {a b : ℕ} : tableIndices a = tableIndices b ↔ pageOf a = pageOf b := by
  simp only [tableIndices, cons.injEq, idx4, idx3, idx2, idx1, pageOf]
  constructor
  · rintro ⟨h4, h3, h2, h1, -⟩
    omega
  · intro h
    refine ⟨by omega, by omega, by omega, by omega, trivial⟩

/-- Every page but that of `virt` translates as before, with the same rights. -/
def Kept (m m' : Machine) (root virt : ℕ) : Prop :=
  ∀ v, pageOf v ≠ pageOf virt → hwWalk m' root v = hwWalk m root v

section Leaf

variable {virt : ℕ} (hT : TreeAt m root pos)
  (hr : Reach m root [idx4 virt, idx3 virt, idx2 virt] t ups) (w : U64)

include hT hr

theorem leaf_mem {j : ℕ} (hf : pos f = some p)
    (hne : ¬ (p = [idx4 virt, idx3 virt, idx2 virt] ∧ j = idx1 virt)) :
    (m.setWord t (idx1 virt) w).mem f j = m.mem f j := by
  refine if_neg ?_
  rintro ⟨rfl, rfl⟩
  rw [hr.place hT (Nat.le_refl 3)] at hf
  exact hne ⟨(Option.some.inj hf).symm, rfl⟩

theorem kept_setLeaf : Kept m (m.setWord t (idx1 virt) w) root virt := by
  intro v hv
  refine hT.hwWalk_outside (fun f p j hf hne => leaf_mem hT hr w hf hne) ?_
  intro hpre
  exact hv (tableIndices_eq_iff.mp (hpre.eq_of_length rfl).symm)

theorem walkEntries_setLeaf : walkEntries (m.setWord t (idx1 virt) w) root virt = ups ++ [w] := by
  have hr' : Reach (m.setWord t (idx1 virt) w) root [idx4 virt, idx3 virt, idx2 virt] t ups := by
    refine hr.frame hT (Nat.le_refl 3) fun f p j hf hlt => leaf_mem hT hr w hf ?_
    rintro ⟨rfl, -⟩
    exact Nat.lt_irrefl _ hlt
  rw [walkEntries,
    show tableIndices virt = [idx4 virt, idx3 virt, idx2 virt] ++ [idx1 virt] from rfl,
    hr'.pathFrom, pathFrom_last, Machine.setWord]
  simp

theorem topReserved_setLeaf : topReserved (m.setWord t (idx1 virt) w) root virt = false := by
  rw [topReserved, leaf_mem hT hr w hT.atRoot (by simp)]
  cases hp : isPresent (m.mem root (idx4 virt)) with
  | true => exact hT.top (idx4_lt virt) hp
  | false =>
    -- the first entry on the way is present
    have hpath := hr.pathFrom []
    have hups := hr.present
    rw [append_nil, Paging.pathFrom, append_nil] at hpath
    rw [← hpath, Paging.pathFrom, all_cons, hp] at hups
    cases hups

end Leaf

/-! ### Walks that keep every page -/

theorem flagSet_patLarge (e : U64) : flagSet e x86PtePatLarge = decide (frameOf e % 2 = 1) := by
  rw [x86PtePatLarge, flagSet_shift e 12 (by decide), ← BitVec.testBit_toNat,
    Nat.testBit_eq_decide_div_mod_eq, frameOf_eq, show (2 : ℕ) ^ 12 = 4096 by decide]
  congr 1
  rw [eq_iff_iff]
  omega

/-- The 2 MiB entry of a split, and its PAT bit. -/
theorem Split.patLarge
    (h : Split m m' root [idx4 virt, idx3 virt] t (idx2 virt) g ups) (hT : TreeAt m root pos) :
    walkEntries m root virt = ups ++ [m.mem t (idx2 virt)] ∧
      (ups ++ [m.mem t (idx2 virt)]).all isPresent = true ∧
      (patLarge2M m root virt = true ↔ frameOf (m.mem t (idx2 virt)) % 512 = 1) ∧
      frameOf (m.mem t (idx2 virt)) % 512 ≤ 1 := by
  have hpath := (h.paths hT rfl).1
  have hall : (ups ++ [m.mem t (idx2 virt)]).all isPresent = true := by
    rw [all_append, h.reach.present, all_cons, h.present]
    rfl
  have hres := hT.reserved (h.reach.place hT (show 2 ≤ 3 by decide)) rfl h.index h.present h.huge
  have hlen : (ups ++ [m.mem t (idx2 virt)]).length = 3 := by
    rw [length_append, h.reach.length]
    rfl
  refine ⟨hpath, hall, ?_, hres⟩
  rw [patLarge2M, leafEntry, hpath, hall, hlen, getLastD_concat, flagSet_patLarge]
  simp only [BEq.rfl, Bool.and_self, Bool.true_and, decide_eq_true_eq]
  omega

/-- **Walks that keep every page.**  Unless the address lies in a 2 MiB page with the PAT bit and
a frame is free, a walk outside 1 GiB pages keeps all translations. -/
theorem TreeAt.walkPage_kept (hT : TreeAt m (m.root root) pos)
    (hG : largePage1G m (m.root root) virt = false)
    (hok : ¬ (patLarge2M m (m.root root) virt = true ∧ (pmmAllocFrame m.pmm).2 ≠ 0))
    (alloc : Bool) :
    ∃ m' r, Paging.walkPage m root virt alloc = (m', r) ∧ (∃ pos', TreeAt m' (m.root root) pos') ∧
      (∀ v, hwWalk m' (m.root root) v = hwWalk m (m.root root) v) ∧
      ∀ t i, r = some (t, i) → i = idx1 virt ∧
        ∃ ups, Reach m' (m.root root) [idx4 virt, idx3 virt, idx2 virt] t ups := by
  rcases hT.walkPage hG alloc with
    ⟨m', heq, hQ⟩ | ⟨m', t, ups, heq, hQ, hr⟩ | ⟨m1, m', t, g, ups, heq, hQ, hS⟩
  · exact ⟨m', none, heq, hQ.tree, hQ.hwWalk hT, nofun⟩
  · refine ⟨m', _, heq, hQ.tree, hQ.hwWalk hT, fun t' i h => ?_⟩
    cases h
    exact ⟨rfl, ups, hr⟩
  · obtain ⟨pos1, hT1⟩ := hQ.tree
    obtain ⟨hpath, hall, -, -⟩ := hS.patLarge hT1
    obtain ⟨e₄, e₃, rfl⟩ := length_eq_two.mp hS.reach.length
    rcases walkPage_large (hQ.path hall hpath) hall alloc with
      ⟨-, p, -, heq'⟩ | ⟨hfree, m'', t', g', ups', heq', hS'⟩
    · rw [heq] at heq'
      cases heq'
    · obtain ⟨-, -, hpat, hres⟩ := hS'.patLarge hT
      have halign : frameOf (m.mem t' (idx2 virt)) % 512 = 0 := by
        have : ¬ patLarge2M m (m.root root) virt = true := fun h => hok ⟨h, hfree⟩
        rw [hpat] at this
        omega
      refine ⟨m'', _, heq', (hS'.tree hT).1, hS'.hwWalk_eq hT halign, fun t'' i h => ?_⟩
      cases h
      exact ⟨rfl, _, (hS'.tree hT).2⟩

/-- Another page of the same 2 MiB, among its first two. -/
theorem exists_sibling (virt : ℕ) : ∃ v, tableIndices v = [idx4 virt, idx3 virt] ++ [idx2 virt] ++
    [idx1 v] ∧ idx1 v < 2 ∧ pageOf v ≠ pageOf virt := by
  obtain ⟨k, hk, hne⟩ : ∃ k, k < 2 ∧ k ≠ idx1 virt := by
    by_cases h : idx1 virt = 0
    · exact ⟨1, by decide, by omega⟩
    · exact ⟨0, by decide, by omega⟩
  have h1 : idx1 (virt / 2 ^ 21 * 2 ^ 21 + k * 4096) = k := by
    simp only [idx1]
    omega
  have hupper : idx4 (virt / 2 ^ 21 * 2 ^ 21 + k * 4096) = idx4 virt ∧
      idx3 (virt / 2 ^ 21 * 2 ^ 21 + k * 4096) = idx3 virt ∧
      idx2 (virt / 2 ^ 21 * 2 ^ 21 + k * 4096) = idx2 virt := by
    simp only [idx4, idx3, idx2]
    omega
  refine ⟨virt / 2 ^ 21 * 2 ^ 21 + k * 4096, ?_, by omega, fun h => hne ?_⟩
  · rw [tableIndices, hupper.1, hupper.2.1, hupper.2.2]
    rfl
  · rw [← tableIndices_eq_iff, tableIndices, tableIndices, h1] at h
    simp only [cons.injEq, and_true] at h
    exact h.2.2.2

/-- **The PAT bit shifts the other pages.**  After a walk to a 2 MiB page with that bit, another
page of the large page translates to the next frame, whatever is stored in the leaf entry. -/
theorem TreeAt.walkPage_shifted (hT : TreeAt m (m.root root) pos)
    (hpat : patLarge2M m (m.root root) virt = true) (hfree : (pmmAllocFrame m.pmm).2 ≠ 0)
    (alloc : Bool) : ∃ m' g, Paging.walkPage m root virt alloc = (m', some (g, idx1 virt)) ∧
      isPresent (m'.mem g (idx1 virt)) = true ∧ ¬ Kept m m' (m.root root) virt ∧
      ∀ w, ¬ Kept m (m'.setWord g (idx1 virt) w) (m.root root) virt := by
  have hlen : (walkEntries m (m.root root) virt).length = 3 ∧
      (walkEntries m (m.root root) virt).all isPresent = true := by
    simp only [patLarge2M, Bool.and_eq_true, beq_iff_eq] at hpat
    exact ⟨hpat.1.2, hpat.1.1⟩
  obtain ⟨e₄, e₃, e₂, hpath⟩ := length_eq_three.mp hlen.1
  rw [hpath] at hlen
  rcases walkPage_large hpath hlen.2 alloc with ⟨hz, -⟩ | ⟨-, m', t, g, ups, heq, hS⟩
  · exact absurd hz hfree
  · obtain ⟨-, -, hiff, -⟩ := hS.patLarge hT
    have hodd := hiff.mp hpat
    obtain ⟨⟨pos', hT'⟩, hr'⟩ := hS.tree hT
    obtain ⟨v, hidx, hlow, hpage⟩ := exists_sibling virt
    have hlt := frameOf_lt (m.mem t (idx2 virt))
    obtain ⟨w, u, nx, hbefore, hafter⟩ := hS.hwWalk_below hT hidx (by omega)
    have hshift : hwWalk m' (m.root root) v ≠ hwWalk m (m.root root) v := by
      rw [hbefore, hafter]
      simp only [ne_eq, Option.some.injEq, HwPage.mk.injEq, and_true]
      omega
    refine ⟨m', g, heq, ?_, fun hkept => hshift (hkept _ hpage), fun w' hkept => hshift ?_⟩
    · rw [hS.entry hT, isPresent_pteEntry, isPresent_splitFlags, hS.present]
    · rw [← hkept _ hpage]
      exact (kept_setLeaf hT' hr' w' _ hpage).symm

/-! ### The operations -/

/-- The entry does not take away a right that the flags ask for. -/
def grantsFlags (flags : MmuFlags) (e : U64) : Bool :=
  !isPresent e || ((!flagSet flags mmuWrite || isWrite e) && (!flagSet flags mmuUser || isUser e) &&
    (flagSet flags mmuNx || !isNx e))

/-- No table entry above the leaf entry of `virt` takes a right away. -/
def upperGrants (m : Machine) (root virt : ℕ) (flags : MmuFlags) : Bool :=
  (pathFrom m [idx4 virt, idx3 virt, idx2 virt] root).all (grantsFlags flags)

/-- A page that `mmu_map` was asked for: the frame of `phys`, with the rights of the flags. -/
def askedPage (phys : ℕ) (flags : MmuFlags) : HwPage where
  frame := phys / 4096
  write := flagSet flags mmuWrite
  user := flagSet flags mmuUser
  nx := flagSet flags mmuNx

/-- Combined rights are those of the last entry when no entry above takes one away. -/
theorem rights_append (hups : ups.all isPresent = true) :
    ((ups.all isWrite && flagSet flags mmuWrite) = flagSet flags mmuWrite ∧
      (ups.all isUser && flagSet flags mmuUser) = flagSet flags mmuUser ∧
      (ups.any isNx || flagSet flags mmuNx) = flagSet flags mmuNx) ↔
    ups.all (grantsFlags flags) = true := by
  induction ups with
  | nil => simp
  | cons e ups ih =>
    obtain ⟨he, hups⟩ := (Bool.and_eq_true ..).mp hups
    simp only [all_cons, any_cons, Bool.and_eq_true, ← ih hups, grantsFlags, he]
    grind

section MapEntry

variable (pat : PatState) (phys : ℕ) (flags : MmuFlags)

theorem getLsbD_mapEntry (n : ℕ) (hn : x86PteAddrMask.getLsbD n = false) :
    (mapEntry pat phys flags).getLsbD n = (toX86Flags pat flags).getLsbD n := by
  rw [mapEntry, BitVec.getLsbD_or, BitVec.getLsbD_and, hn, Bool.and_false, Bool.false_or]

theorem isPresent_mapEntry : isPresent (mapEntry pat phys flags) = true := by
  rw [isPresent_eq, getLsbD_mapEntry _ _ _ _ (by decide), toX86Flags_eq]
  simp only [getLsbD_orIf, show x86PtePresent.getLsbD 0 = true by decide, Bool.true_or]

theorem rights_mapEntry : isWrite (mapEntry pat phys flags) = flagSet flags mmuWrite ∧
    isUser (mapEntry pat phys flags) = flagSet flags mmuUser ∧
    isNx (mapEntry pat phys flags) = flagSet flags mmuNx := by
  rw [isWrite_eq, isUser_eq, isNx_eq]
  refine ⟨?_, ?_, ?_⟩
  all_goals
    rw [getLsbD_mapEntry _ _ _ _ (by decide), getLsbD_toX86Flags pat flags (by decide)]
    simp [x86PteWrite, x86PteUser, x86PteNx]

end MapEntry

section Pages

variable (hT : TreeAt m (m.root root) pos) (hG : largePage1G m (m.root root) virt = false)

include hT hG

/-- `mmu_map` that succeeds walks quietly to a leaf entry and stores it. -/
theorem mmuMap_inv (h : mmuMap m root virt phys flags = (m', true)) :
    ∃ m₁ t ups, Quiet m m₁ (m.root root) ∧
      Reach m₁ (m.root root) [idx4 virt, idx3 virt, idx2 virt] t ups ∧
      m' = m₁.setWord t (idx1 virt) (mapEntry m.pat phys flags) := by
  rcases hT.walkPage hG true with
    ⟨m₁, heq, -⟩ | ⟨m₁, t, ups, heq, hQ, hr⟩ | ⟨m₁, m2, t, g, ups, heq, hQ, hS⟩ <;>
    rw [mmuMap, heq] at h <;> dsimp only at h
  · cases h
  · split at h
    · cases h
    · cases h
      exact ⟨m₁, t, ups, hQ, hr, by rw [hQ.pat]⟩
  · -- the small pages of a split are present
    obtain ⟨pos1, hT1⟩ := hQ.tree
    rw [hS.entry hT1, isPresent_pteEntry, isPresent_splitFlags, hS.present, if_pos rfl] at h
    cases h

/-- The page that a successful `mmu_map` leaves: the stored frame, with the rights of the flags
that the entries above leave. -/
theorem mmuMap_page (h : mmuMap m root virt phys flags = (m', true)) :
    (hwWalk m' (m.root root) virt = some (askedPage phys flags) ↔
      frameOf (mapEntry m.pat phys flags) = phys / 4096 ∧
        upperGrants m (m.root root) virt flags = true) ∧
      Kept m m' (m.root root) virt := by
  obtain ⟨m1, t, ups, hQ, hr, rfl⟩ := mmuMap_inv hT hG h
  obtain ⟨pos1, hT1⟩ := hQ.tree
  have hpath := walkEntries_setLeaf hT1 hr (mapEntry m.pat phys flags)
  have hframe : pathFrame virt (ups ++ [mapEntry m.pat phys flags])
      = frameOf (mapEntry m.pat phys flags) := by
    match ups, hr.length with
    | [_, _, _], _ => rfl
  have hupper : upperGrants m (m.root root) virt flags = ups.all (grantsFlags flags) := by
    have hall := hr.pathFrom []
    rw [append_nil, Paging.pathFrom, append_nil] at hall
    rw [upperGrants, ← hall]
    refine (hQ.test _ (fun e he => ?_) (fun g hg => ?_) [idx4 virt, idx3 virt, idx2 virt]
      (show 3 ≤ 4 by decide) ?_).symm
    · rw [grantsFlags, he]
      rfl
    · rw [grantsFlags, isWrite_pteEntry, isUser_pteEntry, isNx_pteEntry g hg,
        show isWrite tableFlags = true by decide, show isUser tableFlags = true by decide,
        show isNx tableFlags = false by decide]
      simp
    · exact fun j hj => tableIndices_lt virt j (mem_append_left [idx1 virt] hj)
  refine ⟨?_, fun v hv => ?_⟩
  · rw [hwWalk_eq_some, hpath, hframe, topReserved_setLeaf hT1 hr, hupper,
      ← rights_append hr.present, askedPage, HwPage.mk.injEq]
    simp only [all_append, any_append, all_cons, all_nil, any_cons, any_nil, hr.present,
      isPresent_mapEntry, rights_mapEntry, Bool.and_true, Bool.or_false, true_and]
    constructor
    all_goals
      rintro ⟨hf, hw, hu, hx⟩
      exact ⟨hf.symm, hw.symm, hu.symm, hx.symm⟩
  · rw [kept_setLeaf hT1 hr _ v hv, hQ.hwWalk hT]

/-- Operations that walk and then at most store the leaf entry keep the other pages exactly when
the walk does. -/
theorem kept_of_walk (alloc : Bool)
    (op : Machine × Option (ℕ × ℕ) → Machine) (hnone : ∀ m', op (m', none) = m')
    (hsome : ∀ m' t i, op (m', some (t, i)) = m' ∨ ∃ w, op (m', some (t, i)) = m'.setWord t i w) :
    Kept m (op (walkPage m root virt alloc)) (m.root root) virt ↔
      ¬ (patLarge2M m (m.root root) virt = true ∧ (pmmAllocFrame m.pmm).2 ≠ 0) := by
  constructor
  · rintro hkept ⟨hpat, hfree⟩
    obtain ⟨m', g, heq, -, hbad, hbad'⟩ := hT.walkPage_shifted hpat hfree alloc
    rw [heq] at hkept
    rcases hsome m' g (idx1 virt) with h | ⟨w, h⟩ <;> rw [h] at hkept
    · exact hbad hkept
    · exact hbad' w hkept
  · intro hok v hv
    obtain ⟨m', r, heq, ⟨pos', hT'⟩, hsame, hreach⟩ := hT.walkPage_kept hG hok alloc
    rw [heq]
    match r with
    | none => rw [hnone, hsame]
    | some (t, i) =>
      obtain ⟨rfl, ups, hr⟩ := hreach t i rfl
      rcases hsome m' t (idx1 virt) with h | ⟨w, h⟩ <;> rw [h]
      · rw [hsame]
      · rw [kept_setLeaf hT' hr w v hv, hsame]

theorem TreeAt.walkPage_reach {alloc : Bool}
    (h : Paging.walkPage m root virt alloc = (m', some (t, i))) :
    i = idx1 virt ∧ ∃ pos' ups, TreeAt m' (m.root root) pos' ∧
      Reach m' (m.root root) [idx4 virt, idx3 virt, idx2 virt] t ups := by
  rcases hT.walkPage hG alloc with
    ⟨m1, heq, -⟩ | ⟨m1, t1, ups, heq, hQ, hr⟩ | ⟨m1, m2, t1, g, ups, heq, hQ, hS⟩ <;>
    rw [heq] at h <;> cases h
  · obtain ⟨pos', hT'⟩ := hQ.tree
    exact ⟨rfl, pos', ups, hT', hr⟩
  · obtain ⟨pos1, hT1⟩ := hQ.tree
    obtain ⟨⟨pos', hT'⟩, hr'⟩ := hS.tree hT1
    exact ⟨rfl, pos', _, hT', hr'⟩

/-- `mmu_unmap` that succeeds leaves the page unmapped, and the other pages alone when the large
page it may have split has no PAT bit. -/
theorem mmuUnmap_page (h : mmuUnmap m root virt = (m', true)) :
    hwWalk m' (m.root root) virt = none ∧
      (Kept m m' (m.root root) virt ↔ patLarge2M m (m.root root) virt = false) := by
  have hkept := kept_of_walk hT hG false
    (fun w => w.2.elim w.1 fun p =>
      if isPresent (w.1.mem p.1 p.2) then w.1.setWord p.1 p.2 0#64 else w.1)
    (fun _ => rfl) fun m' t i => by
      dsimp only [Option.elim]
      split
      · exact .inr ⟨_, rfl⟩
      · exact .inl rfl
  obtain ⟨m1, r, heq⟩ : ∃ m1 r, walkPage m root virt false = (m1, r) := ⟨_, _, rfl⟩
  rw [mmuUnmap, heq] at h
  cases r with
  | none => cases h
  | some p =>
    obtain ⟨t, i⟩ := p
    dsimp only at h
    split at h
    case isFalse => cases h
    case isTrue hp =>
      cases h
      rw [heq] at hkept
      dsimp only [Option.elim] at hkept
      rw [if_pos hp] at hkept
      obtain ⟨rfl, pos', ups, hT', hr⟩ := hT.walkPage_reach hG heq
      refine ⟨?_, ?_⟩
      · rw [hwWalk_eq_none, walkEntries_setLeaf hT' hr, all_append]
        rintro ⟨hall, -⟩
        rw [Bool.and_eq_true] at hall
        exact absurd hall.2 (by decide)
      · rw [hkept, ← Bool.not_eq_true]
        constructor
        · intro hn hpat
          refine hn ⟨hpat, fun hz => ?_⟩
          -- without a frame the large page is not split, and the call fails
          simp only [patLarge2M, Bool.and_eq_true, beq_iff_eq] at hpat
          obtain ⟨e₄, e₃, e₂, hpath⟩ := length_eq_three.mp hpat.1.2
          rcases walkPage_large hpath (hpath ▸ hpat.1.1) false with ⟨-, p, -, heq'⟩ | ⟨hfree, -⟩
          · rw [heq] at heq'
            cases heq'
          · exact hfree hz
        · exact fun hn hb => hn hb.1

theorem mmuVirtToPhys_kept : Kept m (mmuVirtToPhys m root virt).1 (m.root root) virt ↔
    ¬ (patLarge2M m (m.root root) virt = true ∧ (pmmAllocFrame m.pmm).2 ≠ 0) := by
  rw [← kept_of_walk hT hG false (fun w => w.1) (fun _ => rfl) fun _ _ _ => .inl rfl, mmuVirtToPhys]
  obtain ⟨m1, _ | ⟨t, i⟩⟩ := walkPage m root virt false
  · rfl
  · dsimp only
    split <;> rfl

theorem mmuProtect_kept : Kept m (mmuProtect m root virt flags).1 (m.root root) virt ↔
    ¬ (patLarge2M m (m.root root) virt = true ∧ (pmmAllocFrame m.pmm).2 ≠ 0) := by
  rw [← kept_of_walk hT hG false
    (fun w => w.2.elim w.1 fun p => if isPresent (w.1.mem p.1 p.2) then
      w.1.setWord p.1 p.2 (pteEntry (frameOf (w.1.mem p.1 p.2)) (toX86Flags w.1.pat flags))
      else w.1)
    (fun _ => rfl) fun m' t i => ?_, mmuProtect]
  · obtain ⟨m1, _ | ⟨t, i⟩⟩ := walkPage m root virt false
    · rfl
    · dsimp only [Option.elim]
      split <;> rfl
  · dsimp only [Option.elim]
    split
    · exact .inr ⟨_, rfl⟩
    · exact .inl rfl

end Pages

/-- A machine with a large page at address 0: the root in frame 1 leads to the table in frame 2,
whose first entry is `e₃`, and frame 3 starts with `e₂`. -/
def largePages (e₃ e₂ : U64) : Machine where
  mem f i :=
    if i = 0 then
      if f = 1 then pteEntry 2 tableFlags
      else if f = 2 then e₃
      else if f = 3 then e₂
      else 0#64
    else 0#64
  pmm := halfUsed
  kernelRoot := 1
  pat := ⟨true, true⟩

/-- A 2 MiB write-combining page at frame 512. -/
def wcLargePage : Machine :=
  largePages (pteEntry 3 tableFlags) (pteEntry 512 (tableFlags ||| x86PteHuge ||| x86PtePatLarge))

/-- A 1 GiB page at frame 262144. -/
def gigPage : Machine := largePages (pteEntry (2 ^ 18) (tableFlags ||| x86PteHuge)) 0#64

/-- The places of the tables of `largePages`, of which the last is below the first two. -/
def largePos (third : Bool) (f : ℕ) : Option (List ℕ) :=
  if f = 1 then some [] else if f = 2 then some [0]
  else if f = 3 ∧ third = true then some [0, 0] else none

theorem largePos_cases (h : largePos third f = some p) :
    (f = 1 ∧ p = []) ∨ (f = 2 ∧ p = [0]) ∨ (f = 3 ∧ third = true ∧ p = [0, 0]) := by
  unfold largePos at h
  split_ifs at h <;> simp_all

/-- The tables of `largePages` form a tree, whichever of the two entries is the large page. -/
theorem treeAt_largePages
    (h₃ : isPresent e₃ = true ∧ isHuge e₃ = !third ∧ (third = true → frameOf e₃ = 3))
    (h₂ : third = true → isHuge e₂ = true ∧ frameOf e₂ % 512 ≤ 1) :
    TreeAt (largePages e₃ e₂) 1 (largePos third) := by
  have hzero : ∀ {f i}, i ≠ 0 → isPresent ((largePages e₃ e₂).mem f i) = false := by
    intro f i hi
    rw [show (largePages e₃ e₂).mem f i = 0#64 from if_neg hi]
    decide
  have hidx : ∀ {f i}, isPresent ((largePages e₃ e₂).mem f i) = true → i = 0 := by
    intro f i hp
    by_contra hi
    rw [hzero hi] at hp
    cases hp
  refine ⟨rfl, ?_, ?_, ?_, ?_, ?_, ?_, ?_⟩
  · intro f f' p hf hf'
    rcases largePos_cases hf with ⟨rfl, rfl⟩ | ⟨rfl, rfl⟩ | ⟨rfl, -, rfl⟩ <;>
      rcases largePos_cases hf' with ⟨rfl, h⟩ | ⟨rfl, h⟩ | ⟨rfl, -, h⟩ <;> first | rfl | cases h
  · intro f p hf
    rcases largePos_cases hf with ⟨rfl, -⟩ | ⟨rfl, -⟩ | ⟨rfl, -, -⟩ <;> rfl
  · intro f p hf
    rcases largePos_cases hf with ⟨-, rfl⟩ | ⟨-, rfl⟩ | ⟨-, -, rfl⟩ <;> decide
  · intro i _ hp
    rw [hidx hp]
    show isHuge (pteEntry 2 tableFlags) = false
    decide
  · intro f p i hf hlen _ hp hh
    rw [hidx hp] at hh ⊢
    rcases largePos_cases hf with ⟨rfl, rfl⟩ | ⟨rfl, rfl⟩ | ⟨rfl, ht, rfl⟩
    · show largePos third (frameOf (pteEntry 2 tableFlags)) = some [0]
      rw [show frameOf (pteEntry 2 tableFlags) = 2 by decide]
      rfl
    · have hthird : third = true := by
        rw [show (largePages e₃ e₂).mem 2 0 = e₃ from rfl, h₃.2.1] at hh
        simpa using hh
      show largePos third (frameOf e₃) = some [0, 0]
      rw [h₃.2.2 hthird, hthird]
      rfl
    · rw [show (largePages e₃ e₂).mem 3 0 = e₂ from rfl, (h₂ ht).1] at hh
      cases hh
  · intro f p i hf
    rcases largePos_cases hf with ⟨-, h⟩ | ⟨-, h⟩ | ⟨-, ht, h⟩
    · exact absurd h (by simp)
    · obtain ⟨rfl, hi⟩ := append_inj' (show p ++ [i] = [] ++ [0] from h) rfl
      cases hi
      exact ⟨1, rfl, by show isPresent (pteEntry 2 tableFlags) = true; decide,
        by show isHuge (pteEntry 2 tableFlags) = false; decide⟩
    · obtain ⟨rfl, hi⟩ := append_inj' (show p ++ [i] = [0] ++ [0] from h) rfl
      cases hi
      refine ⟨2, rfl, h₃.1, ?_⟩
      show isHuge e₃ = false
      rw [h₃.2.1, ht]
      rfl
  · intro f p i hf hlen _ hp _
    rw [hidx hp]
    rcases largePos_cases hf with ⟨-, rfl⟩ | ⟨-, rfl⟩ | ⟨rfl, ht, rfl⟩
    · cases hlen
    · cases hlen
    · exact (h₂ ht).2

theorem treeAt_wcLargePage : TreeAt wcLargePage 1 (largePos true) :=
  treeAt_largePages (by decide) (by decide)

theorem treeAt_gigPage : TreeAt gigPage 1 (largePos false) :=
  treeAt_largePages (by decide) (by decide)

end AxiomeOS.Paging
