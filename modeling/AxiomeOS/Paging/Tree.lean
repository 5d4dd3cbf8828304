import AxiomeOS.Paging.Hardware

/-!
# Page tables that form a tree

`TreeAt m root pos` says that the tables below `root` form a tree: `pos` gives each table frame
its place, the list of indices that leads to it from the root, and a frame has one place only.
Large pages of both sizes and all cache-type bits are allowed.

A walk of the code changes such a tree by *linking* a fresh table into one entry (`Machine.link`).
The tree then has one table more (`TreeAt.link`), and an address whose walk does not pass that
entry is walked as before (`TreeAt.path_outside`).  A change that no walk of the processor notices
is `Quiet`; a fresh empty table below a missing entry is one (`Quiet.table`).
-/

namespace AxiomeOS.Paging

open Bits Frames Function List

variable {p : Pmm} {g : ℕ}

/-! ### Trees -/

/-- The tables below `root` form a tree, with `pos f` the place of table frame `f`.  Entries are
well formed: no reserved bit is set in a top-level entry, nor in the address field of a 2 MiB
entry, whose bit 12 is the large-page PAT bit. -/
structure TreeAt (m : Machine) (root : ℕ) (pos : ℕ → Option (List ℕ)) : Prop where
  atRoot : pos root = some []
  inj : ∀ {f f' p}, pos f = some p → pos f' = some p → f = f'
  used : ∀ {f p}, pos f = some p → m.pmm.used f = true
  depth : ∀ {f p}, pos f = some p → p.length ≤ 3
  top : ∀ {i}, i < 512 → isPresent (m.mem root i) = true → isHuge (m.mem root i) = false
  child : ∀ {f p i}, pos f = some p → p.length < 3 → i < 512 → isPresent (m.mem f i) = true →
    isHuge (m.mem f i) = false → pos (frameOf (m.mem f i)) = some (p ++ [i])
  parent : ∀ {f p i}, pos f = some (p ++ [i]) → ∃ f', pos f' = some p ∧
    isPresent (m.mem f' i) = true ∧ isHuge (m.mem f' i) = false
  reserved : ∀ {f p i}, pos f = some p → p.length = 2 → i < 512 → isPresent (m.mem f i) = true →
    isHuge (m.mem f i) = true → frameOf (m.mem f i) % 512 ≤ 1

/-- Following the indices `q` from the root leads to the table `t`, through the entries `ups`, all
present and none of them a large page. -/
inductive Reach (m : Machine) (root : ℕ) : List ℕ → ℕ → List U64 → Prop
  | nil : Reach m root [] root []
  | snoc {q : List ℕ} {t i : ℕ} {ups : List U64} : Reach m root q t ups → i < 512 →
      isPresent (m.mem t i) = true → isHuge (m.mem t i) = false →
      Reach m root (q ++ [i]) (frameOf (m.mem t i)) (ups ++ [m.mem t i])

variable {m m' : Machine} {root : ℕ} {pos : ℕ → Option (List ℕ)} {q : List ℕ} {t i : ℕ}
  {ups : List U64}

section

variable (h : Reach m root q t ups)
include h

theorem Reach.pathFrom (is : List ℕ) :
    pathFrom m (q ++ is) root = ups ++ Paging.pathFrom m is t := by
  induction h generalizing is with
  | nil => rfl
  | snoc _ _ hp hh ih =>
    rw [append_assoc, singleton_append, ih, pathFrom_go hp hh, append_assoc]
    rfl

theorem Reach.length : ups.length = q.length := by
  induction h with
  | nil => rfl
  | snoc _ _ _ _ ih => rw [length_append, length_append, ih]; rfl

theorem Reach.present : ups.all isPresent = true := by
  induction h with
  | nil => rfl
  | snoc _ _ hp _ ih => rw [all_append, ih, all_cons, hp]; rfl

theorem Reach.place (hT : TreeAt m root pos) (hq : q.length ≤ 3) : pos t = some q := by
  induction h with
  | nil => exact hT.atRoot
  | snoc _ hi hp hh ih =>
    rw [length_append, length_singleton] at hq
    exact hT.child (ih (by omega)) (by omega) hi hp hh

theorem Reach.frame (hT : TreeAt m root pos) (hq : q.length ≤ 3)
    (hm : ∀ f p j, pos f = some p → p.length < q.length → m'.mem f j = m.mem f j) :
    Reach m' root q t ups := by
  induction h with
  | nil => exact .nil
  | @snoc _ _ i _ h hi hp hh ih =>
    rw [length_append, length_singleton] at hq hm
    have hsame := hm _ _ i (h.place hT (by omega)) (Nat.lt_succ_self _)
    have hr := ih (by omega) fun f p j hp' hlt => hm f p j hp' (by omega)
    have hstep := hr.snoc hi (by rw [hsame]; exact hp) (by rw [hsame]; exact hh)
    rw [hsame] at hstep
    exact hstep

end

/-- **Addresses that do not pass the entry.**  When only entry `i` of the table at place `q` and
frames outside the tree changed, a walk that does not follow `q` and then `i` is as before. -/
theorem TreeAt.path_outside (hT : TreeAt m root pos) {q : List ℕ} {i : ℕ}
    (hm : ∀ f p j, pos f = some p → ¬ (p = q ∧ j = i) → m'.mem f j = m.mem f j) :
    ∀ (is : List ℕ) (f : ℕ) (p : List ℕ), pos f = some p → p.length + is.length ≤ 4 →
      (∀ j ∈ is, j < 512) → ¬ (q ++ [i]) <+: (p ++ is) → pathFrom m' is f = pathFrom m is f := by
  intro is
  induction is with
  | nil => intro f p _ _ _ _; rfl
  | cons j is ih =>
    intro f p hp hlen hlt hnot
    have hsame : m'.mem f j = m.mem f j := by
      refine hm f p j hp fun heq => hnot ?_
      rw [heq.1, heq.2]
      exact ⟨is, by simp⟩
    rw [Paging.pathFrom, Paging.pathFrom, hsame]
    by_cases hgo : (isPresent (m.mem f j) && !isHuge (m.mem f j)) = true
    · rw [if_pos hgo, if_pos hgo]
      rw [Bool.and_eq_true, Bool.not_eq_true'] at hgo
      rw [length_cons] at hlen
      cases is with
      | nil => rfl
      | cons k is =>
        rw [length_cons] at hlen
        rw [ih _ (p ++ [j]) (hT.child hp (by omega) (hlt j (by simp)) hgo.1 hgo.2)
          (by simp only [length_append, length_cons, length_nil]; omega)
          (fun l hl => hlt l (mem_cons_of_mem j hl))
          (by rw [append_assoc]; exact hnot)]
    · rw [if_neg hgo, if_neg hgo]

/-! ### Linking a fresh table -/

theorem link_mem' (m : Machine) (p : Pmm) (g : ℕ) (c : ℕ → U64) (f i : ℕ) (e : U64) (f' j : ℕ) :
    (m.link p g c f i e).mem f' j =
      if f' = f ∧ j = i then e else if f' = g then c j else m.mem f' j := rfl

section Fresh

variable (hT : TreeAt m root pos) (ha : Allocated m.pmm p g)
include hT ha

theorem TreeAt.ne_fresh {f : ℕ} {p' : List ℕ} (hf : pos f = some p') : f ≠ g := by
  rintro rfl
  have := hT.used hf
  rw [ha.free] at this
  cases this

theorem TreeAt.link_mem (ht : pos t = some q) (c : ℕ → U64) (e : U64) {f : ℕ} {p' : List ℕ} {j : ℕ}
    (hf : pos f = some p') (hne : ¬ (p' = q ∧ j = i)) :
    (m.link p g c t i e).mem f j = m.mem f j := by
  have hslot : ¬ (f = t ∧ j = i) := by
    rintro ⟨rfl, rfl⟩
    rw [ht] at hf
    cases hf
    exact hne ⟨rfl, rfl⟩
  rw [link_mem', if_neg hslot, if_neg (hT.ne_fresh ha hf)]

theorem TreeAt.link_fresh (ht : pos t = some q) (c : ℕ → U64) (e : U64) (k : ℕ) :
    (m.link p g c t i e).mem g k = c k := by
  rw [link_mem', if_neg (fun hb => hT.ne_fresh ha ht hb.1.symm), if_pos rfl]

/-- **The tree with one table more.**  The entry was not followed before; the fresh table's own
entries are not present, or it is a leaf table. -/
theorem TreeAt.link (ht : pos t = some q) (hq : q.length < 3)
    (hold : isPresent (m.mem t i) = true → isHuge (m.mem t i) = true) {c : ℕ → U64} {e : U64}
    (hp : isPresent e = true) (hh : isHuge e = false) (he : frameOf e = g)
    (hc : q.length < 2 → ∀ k, isPresent (c k) = false) :
    TreeAt (m.link p g c t i e) root (update pos g (some (q ++ [i]))) := by
  -- a frame of the new tree is the fresh one or an old one
  have hcases : ∀ {f p'}, update pos g (some (q ++ [i])) f = some p' →
      (f = g ∧ p' = q ++ [i]) ∨ (f ≠ g ∧ pos f = some p') := by
    intro f p' hf
    by_cases hfg : f = g
    · rw [hfg, update_self] at hf
      cases hf
      exact .inl ⟨hfg, rfl⟩
    · rw [update_of_ne hfg] at hf
      exact .inr ⟨hfg, hf⟩
  have hkeep : ∀ {f p'}, pos f = some p' → update pos g (some (q ++ [i])) f = some p' := by
    intro f p' hf
    rw [update_of_ne (hT.ne_fresh ha hf), hf]
  -- no old table has the place of the fresh one
  have hnone : ∀ f, pos f ≠ some (q ++ [i]) := by
    intro f hf
    obtain ⟨f', hf', hp', hh'⟩ := hT.parent hf
    rw [hT.inj hf' ht] at hp' hh'
    rw [hold hp'] at hh'
    cases hh'
  have htmem : (m.link p g c t i e).mem t i = e := link_mem_slot m p g c t i e
  refine ⟨hkeep hT.atRoot, ?_, ?_, ?_, ?_, ?_, ?_, ?_⟩
  · intro f f' p' hf hf'
    rcases hcases hf with ⟨rfl, rfl⟩ | ⟨-, hf⟩ <;> rcases hcases hf' with ⟨rfl, heq⟩ | ⟨-, hf'⟩
    · rfl
    · exact absurd hf' (hnone f')
    · rw [heq] at hf
      rcases hcases hf with ⟨rfl, -⟩ | ⟨-, hf⟩
      · rfl
      · exact absurd hf (hnone f)
    · exact hT.inj hf hf'
  · intro f p' hf
    show p.used f = true
    rw [ha.used]
    rcases hcases hf with ⟨rfl, -⟩ | ⟨hfg, hf⟩
    · rw [update_self]
    · rw [update_of_ne hfg]
      exact hT.used hf
  · intro f p' hf
    rcases hcases hf with ⟨rfl, rfl⟩ | ⟨-, hf⟩
    · rw [length_append, length_singleton]
      omega
    · exact hT.depth hf
  · intro j hj hpres
    by_cases hslot : ([] : List ℕ) = q ∧ j = i
    · have hroot : root = t := hT.inj hT.atRoot (by rw [ht, ← hslot.1])
      rw [hroot, hslot.2, htmem]
      exact hh
    · rw [hT.link_mem ha ht c e hT.atRoot hslot] at hpres ⊢
      exact hT.top hj hpres
  · intro f p' j hf hlen hj hpres hhuge
    rcases hcases hf with ⟨rfl, rfl⟩ | ⟨-, hf⟩
    · rw [length_append, length_singleton] at hlen
      rw [hT.link_fresh ha ht, hc (by omega)] at hpres
      cases hpres
    · by_cases hslot : p' = q ∧ j = i
      · rw [hslot.1] at hf
        rw [hslot.1, hslot.2, hT.inj hf ht, htmem, he, update_self]
      · rw [hT.link_mem ha ht c e hf hslot] at hpres hhuge ⊢
        exact hkeep (hT.child hf hlen hj hpres hhuge)
  · intro f p' j hf
    rcases hcases hf with ⟨-, heq⟩ | ⟨-, hf⟩
    · obtain ⟨rfl, hij⟩ := append_inj' heq rfl
      cases hij
      exact ⟨t, hkeep ht, by rw [htmem]; exact hp, by rw [htmem]; exact hh⟩
    · obtain ⟨f', hf', hp', hh'⟩ := hT.parent hf
      have hslot : ¬ (p' = q ∧ j = i) := by
        rintro ⟨heq, hij⟩
        rw [heq, hij] at hf
        exact hnone f hf
      refine ⟨f', hkeep hf', ?_, ?_⟩
      · rw [hT.link_mem ha ht c e hf' hslot]
        exact hp'
      · rw [hT.link_mem ha ht c e hf' hslot]
        exact hh'
  · intro f p' j hf hlen hj hpres hhuge
    rcases hcases hf with ⟨rfl, rfl⟩ | ⟨-, hf⟩
    · rw [length_append, length_singleton] at hlen
      rw [hT.link_fresh ha ht, hc (by omega)] at hpres
      cases hpres
    · by_cases hslot : p' = q ∧ j = i
      · rw [hslot.2, hT.inj hf (by rw [ht, hslot.1]), htmem, hh] at hhuge
        cases hhuge
      · rw [hT.link_mem ha ht c e hf hslot] at hpres hhuge ⊢
        exact hT.reserved hf hlen hj hpres hhuge

end Fresh

theorem Reach.link (h : Reach m root q t ups) (hT : TreeAt m root pos) (hq : q.length < 3)
    (ha : Allocated m.pmm p g) (c : ℕ → U64) (e : U64) :
    Reach (m.link p g c t i e) root q t ups := by
  refine h.frame hT (by omega) fun f p' j hf hlt => ?_
  refine hT.link_mem ha (h.place hT (by omega)) c e hf fun heq => ?_
  rw [heq.1] at hlt
  omega

theorem Reach.link_snoc (h : Reach m root q t ups) (hT : TreeAt m root pos) (hq : q.length < 3)
    (hi : i < 512) (ha : Allocated m.pmm p g) (c : ℕ → U64) {e : U64}
    (hp : isPresent e = true) (hh : isHuge e = false) (he : frameOf e = g) :
    Reach (m.link p g c t i e) root (q ++ [i]) g (ups ++ [e]) := by
  have hslot : (m.link p g c t i e).mem t i = e := link_mem_slot m p g c t i e
  have hr := (h.link hT hq ha c e).snoc hi (by rw [hslot]; exact hp)
    (by rw [hslot]; exact hh)
  rw [hslot, he] at hr
  exact hr

/-! ### What the processor sees -/

theorem tableIndices_length (v : ℕ) : (tableIndices v).length = 4 := rfl

theorem TreeAt.hwWalk_outside (hT : TreeAt m root pos) {q : List ℕ} {i : ℕ}
    (hm : ∀ f p j, pos f = some p → ¬ (p = q ∧ j = i) → m'.mem f j = m.mem f j) {v : ℕ}
    (hv : ¬ (q ++ [i]) <+: tableIndices v) : hwWalk m' root v = hwWalk m root v := by
  have hpath : walkEntries m' root v = walkEntries m root v :=
    hT.path_outside hm (tableIndices v) root [] hT.atRoot (by rw [tableIndices_length]; decide)
      (tableIndices_lt v) (by rw [nil_append]; exact hv)
  have htop : topReserved m' root v = topReserved m root v := by
    rw [topReserved, topReserved, hm root [] (idx4 v) hT.atRoot]
    rintro ⟨rfl, rfl⟩
    exact hv ⟨[idx3 v, idx2 v, idx1 v], rfl⟩
  rw [hwWalk, hwWalk, hpath, htop]

theorem TreeAt.hwWalk_eq (hT : TreeAt m root pos) (v : ℕ) :
    hwWalk m root v =
      if (walkEntries m root v).all isPresent then
        some ⟨pathFrame v (walkEntries m root v), (walkEntries m root v).all isWrite,
          (walkEntries m root v).all isUser, (walkEntries m root v).any isNx⟩
      else none := by
  by_cases hall : (walkEntries m root v).all isPresent = true
  · have hp : isPresent (m.mem root (idx4 v)) = true :=
      all_eq_true.mp hall _ (by simp [walkEntries, tableIndices, Paging.pathFrom])
    have htop : topReserved m root v = false := hT.top (idx4_lt v) hp
    rw [if_pos hall, hwWalk_eq_some]
    exact ⟨hall, htop, rfl⟩
  · rw [if_neg hall, hwWalk_eq_none]
    exact fun h => hall h.1

/-! ### Changes that no walk notices -/

/-- The tables of `m'` are those of `m` and fresh ones; a frame in use beside the tree stays beside
it, with its contents. -/
structure Grown (m m' : Machine) (root : ℕ) (pos pos' : ℕ → Option (List ℕ)) : Prop where
  tree : TreeAt m' root pos'
  used : ∀ {f}, m.pmm.used f = true → m'.pmm.used f = true
  total : m'.pmm.totalFrames = m.pmm.totalFrames
  beside : ∀ {f}, m.pmm.used f = true → pos f = none →
    pos' f = none ∧ ∀ j, m'.mem f j = m.mem f j

theorem Grown.trans {m₁ m₂ m₃ : Machine} {pos₁ pos₂ pos₃ : ℕ → Option (List ℕ)}
    (h₁ : Grown m₁ m₂ root pos₁ pos₂) (h₂ : Grown m₂ m₃ root pos₂ pos₃) :
    Grown m₁ m₃ root pos₁ pos₃ where
  tree := h₂.tree
  used hf := h₂.used (h₁.used hf)
  total := h₂.total.trans h₁.total
  beside hf hnone := by
    obtain ⟨hnone₂, hmem₁⟩ := h₁.beside hf hnone
    obtain ⟨hnone₃, hmem₂⟩ := h₂.beside (h₁.used hf) hnone₂
    exact ⟨hnone₃, fun j => (hmem₂ j).trans (hmem₁ j)⟩

/-- A link into a table of the tree. -/
theorem Grown.link (ha : Allocated m.pmm p g) (ht : pos t = some q) {c : ℕ → U64} {e : U64}
    (hT' : TreeAt (m.link p g c t i e) root (update pos g (some (q ++ [i])))) :
    Grown m (m.link p g c t i e) root pos (update pos g (some (q ++ [i]))) where
  tree := hT'
  used {f} hf := by
    show p.used f = true
    rw [ha.used, update_apply, hf, ite_self]
  total := ha.total
  beside {f} hf hnone := by
    have hfg : f ≠ g := by
      rintro rfl
      exact absurd (hf.symm.trans ha.free) (by decide)
    refine ⟨by rw [update_of_ne hfg, hnone], fun j => ?_⟩
    rw [link_mem', if_neg, if_neg hfg]
    rintro ⟨rfl, -⟩
    rw [ht] at hnone
    cases hnone

/-- `m'` is a tree again, walks without a missing entry are the same ones in both machines, and a
test that missing entries and fresh table entries pass gives the same result on every path. -/
structure Quiet (m m' : Machine) (root : ℕ) : Prop where
  tree : ∃ pos, TreeAt m' root pos
  grown : ∀ pos, TreeAt m root pos → ∃ pos', Grown m m' root pos pos'
  mapped : ∀ v path, path.all isPresent = true →
    (walkEntries m' root v = path ↔ walkEntries m root v = path)
  test : ∀ f : U64 → Bool, (∀ e, isPresent e = false → f e = true) →
    (∀ g, g < 2 ^ 40 → f (pteEntry g tableFlags) = true) →
    ∀ is, is.length ≤ 4 → (∀ j ∈ is, j < 512) →
      (pathFrom m' is root).all f = (pathFrom m is root).all f
  kernelRoot : m'.kernelRoot = m.kernelRoot
  pat : m'.pat = m.pat

theorem pathFrom_setPmm (m : Machine) (p : Pmm) (is : List ℕ) :
    ∀ f, Paging.pathFrom { m with pmm := p } is f = Paging.pathFrom m is f := by
  induction is with
  | nil => intro f; rfl
  | cons i is ih => intro f; rw [Paging.pathFrom, Paging.pathFrom]; simp only [ih]

theorem Quiet.spent (hT : TreeAt m root pos) (hp : Spent m.pmm p) :
    Quiet m { m with pmm := p } root where
  tree := ⟨pos, { hT with used := fun h => hp.used _ (hT.used h) }⟩
  grown pos hT := ⟨pos, { hT with used := fun h => hp.used _ (hT.used h) }, hp.used _,
    hp.total, fun _ hnone => ⟨hnone, fun _ => rfl⟩⟩
  mapped v path _ := by rw [walkEntries, walkEntries, pathFrom_setPmm]
  test f _ _ is _ _ := by rw [pathFrom_setPmm]
  kernelRoot := rfl
  pat := rfl

theorem Quiet.refl (hT : TreeAt m root pos) : Quiet m m root :=
  Quiet.spent hT (.rfl' m.pmm)

theorem Quiet.trans {m₁ m₂ m₃ : Machine} (h₁ : Quiet m₁ m₂ root) (h₂ : Quiet m₂ m₃ root) :
    Quiet m₁ m₃ root where
  tree := h₂.tree
  grown pos hT := by
    obtain ⟨pos₂, hG₁⟩ := h₁.grown pos hT
    obtain ⟨pos₃, hG₂⟩ := h₂.grown pos₂ hG₁.tree
    exact ⟨pos₃, hG₁.trans hG₂⟩
  mapped v path hp := (h₂.mapped v path hp).trans (h₁.mapped v path hp)
  test f hf hg is hlen hlt := (h₂.test f hf hg is hlen hlt).trans (h₁.test f hf hg is hlen hlt)
  kernelRoot := h₂.kernelRoot.trans h₁.kernelRoot
  pat := h₂.pat.trans h₁.pat

/-- **A quiet change keeps every translation.** -/
theorem Quiet.hwWalk (h : Quiet m m' root) (hT : TreeAt m root pos) (v : ℕ) :
    hwWalk m' root v = hwWalk m root v := by
  obtain ⟨pos', hT'⟩ := h.tree
  rw [hT.hwWalk_eq, hT'.hwWalk_eq]
  by_cases hall : (walkEntries m root v).all isPresent = true
  · rw [(h.mapped v _ hall).mpr rfl]
  · have hall' : ¬ (walkEntries m' root v).all isPresent = true := by
      intro hp
      rw [← (h.mapped v _ hp).mp rfl] at hp
      exact hall hp
    rw [if_neg hall, if_neg hall']

/-- **A fresh empty table below a missing entry** is a quiet change. -/
theorem Quiet.table (hT : TreeAt m root pos) (hr : Reach m root q t ups) (hq : q.length < 3)
    (ha : Allocated m.pmm p g) (hi : i < 512) (hold : isPresent (m.mem t i) = false) :
    Quiet m (m.link p g (fun _ => 0#64) t i (pteEntry g tableFlags)) root := by
  have hp : isPresent (pteEntry g tableFlags) = true := by rw [isPresent_pteEntry]; decide
  have hh : isHuge (pteEntry g tableFlags) = false := by rw [isHuge_pteEntry]; decide
  have he : frameOf (pteEntry g tableFlags) = g := frameOf_pteEntry g ha.lt_field _ (by decide)
  have ht := hr.place hT (by omega)
  -- a path through the entry stops there before, and below it at the latest afterwards
  have hbefore : ∀ rest, Paging.pathFrom m (q ++ [i] ++ rest) root = ups ++ [m.mem t i] := by
    intro rest
    rw [append_assoc, hr.pathFrom, singleton_append, Paging.pathFrom, hold]
    rfl
  have hafter : ∀ rest, Paging.pathFrom (m.link p g (fun _ => 0#64) t i (pteEntry g tableFlags))
      (q ++ [i] ++ rest) root
        = ups ++ [pteEntry g tableFlags] ++ if rest = [] then [] else [0#64] := by
    intro rest
    rw [(hr.link_snoc hT hq hi ha _ hp hh he).pathFrom]
    cases rest with
    | nil => rfl
    | cons k rest =>
      rw [Paging.pathFrom, hT.link_fresh ha ht]
      rfl
  have hout : ∀ is : List ℕ, is.length ≤ 4 → (∀ j ∈ is, j < 512) → ¬ (q ++ [i]) <+: is →
      Paging.pathFrom (m.link p g (fun _ => 0#64) t i (pteEntry g tableFlags)) is root
        = Paging.pathFrom m is root := fun is hlen hlt hnot =>
    hT.path_outside (fun f p' j hf hne => hT.link_mem ha ht _ _ hf hne) is root [] hT.atRoot
      (by rw [length_nil]; omega) hlt (by rw [nil_append]; exact hnot)
  have hlink : ∀ pos, TreeAt m root pos → Grown m
      (m.link p g (fun _ => 0#64) t i (pteEntry g tableFlags)) root pos
      (update pos g (some (q ++ [i]))) := fun pos hT =>
    .link ha (hr.place hT (by omega)) (hT.link ha (hr.place hT (by omega)) hq
      (fun h => absurd (hold.symm.trans h) (by decide)) hp hh he fun _ _ => by decide)
  refine ⟨⟨_, (hlink pos hT).tree⟩, fun pos hT => ⟨_, hlink pos hT⟩, ?_, ?_, rfl, rfl⟩
  · intro v path hall
    by_cases hv : (q ++ [i]) <+: tableIndices v
    · obtain ⟨rest, hrest⟩ := hv
      have hne : rest ≠ [] := by
        rintro rfl
        have := congrArg length hrest
        rw [append_nil, length_append, tableIndices_length, length_singleton] at this
        omega
      rw [walkEntries, walkEntries, ← hrest, hbefore, hafter, if_neg hne]
      constructor
      · rintro rfl
        simp [isPresent] at hall
        exact absurd hall.2.2 (by decide)
      · rintro rfl
        simp [hold] at hall
    · rw [walkEntries, walkEntries,
        hout _ (Nat.le_of_eq (tableIndices_length v)) (tableIndices_lt v) hv]
  · intro f hf hfresh is hlen hlt
    by_cases hv : (q ++ [i]) <+: is
    · obtain ⟨rest, rfl⟩ := hv
      rw [hbefore, hafter, all_append, all_append, all_append]
      have hzero : f 0#64 = true := hf _ (by decide)
      split <;> simp [hf _ hold, hfresh g ha.lt_field, hzero]
    · rw [hout is hlen hlt hv]

end AxiomeOS.Paging
