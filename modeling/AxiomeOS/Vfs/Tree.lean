import AxiomeOS.Vfs.Files

/-!
# The ramfs trees

`Tree s T` says that the vnodes with `T n = some r` form the tree of the mounted root `r`: parent
and child links agree and have no cycle, only directories have children, and all of them are
allocated.

* walking a path stays in the tree (`Tree.walk`);
* a change that leaves the links of the tree alone keeps it (`Tree.frame`);
* hanging in a new vnode, removing a leaf, mounting and unmounting change it by that vnode or that
  root (`Tree.hang`, `Tree.cut`, `Tree.mount`, `Tree.umount`).

`Bufs s` says that each allocated vnode owns its data buffer.
-/

namespace AxiomeOS.Vfs

open Tally Function List Option

variable {n r : ℕ}

variable {s s' : Files} {T : ℕ → Option ℕ}

/-! ### Updates -/

@[simp] theorem modifyVnode_vnode_self (s : Files) (n : ℕ) (f : Vnode → Vnode) :
    (s.modifyVnode n f).vnode n = f (s.vnode n) :=
  update_self ..

variable {c d m x : ℕ}

theorem modifyVnode_vnode_of_ne (s : Files) (f : Vnode → Vnode) (h : m ≠ n) :
    (s.modifyVnode n f).vnode m = s.vnode m :=
  update_of_ne h ..

theorem modifyVnode_proj {α : Type*} (π : Vnode → α) (s : Files) (n : ℕ) {f : Vnode → Vnode}
    (hf : ∀ v, π (f v) = π v) (m : ℕ) : π ((s.modifyVnode n f).vnode m) = π (s.vnode m) := by
  by_cases h : m = n
  · rw [h, modifyVnode_vnode_self, hf]
  · rw [modifyVnode_vnode_of_ne s f h]

@[simp] theorem newVnode_vnode_self (s : Files) (n : ℕ) (v : Vnode) :
    (s.newVnode n v).vnode n = v :=
  update_self ..

theorem newVnode_vnode_of_ne (s : Files) (v : Vnode) (h : m ≠ n) :
    (s.newVnode n v).vnode m = s.vnode m :=
  update_of_ne h ..

/-! ### The tree -/

/-- What the tree reads of a vnode. -/
structure Links where
  type : VType
  foreign : Bool
  children : List ℕ
  parent : Option ℕ

def Vnode.links (v : Vnode) : Links := ⟨v.type, v.foreign, v.children, v.parent⟩

/-- The vnodes with `T n = some r` are the tree of the root `r`.  With `acyclic` no vnode is above
itself. -/
structure Tree (s : Files) (T : ℕ → Option ℕ) : Prop where
  gRoot : s.gRoot ∈ s.roots
  root : ∀ r ∈ s.roots, T r = some r ∧ (s.vnode r).type = .dir ∧ (s.vnode r).parent = none
  mem : ∀ n r, T n = some r → r ∈ s.roots ∧ n ∈ s.live
  kind : ∀ n r, T n = some r →
    (s.vnode n).foreign = false ∧ (s.vnode n).type ≠ .pipeR ∧ (s.vnode n).type ≠ .pipeW
  child : ∀ n r, T n = some r → ∀ c ∈ (s.vnode n).children,
    T c = some r ∧ (s.vnode c).parent = some n
  up : ∀ n r q, T n = some r → (s.vnode n).parent = some q → T q = some r ∧ n ∈ (s.vnode q).children
  leaf : ∀ n r, T n = some r → (s.vnode n).type ≠ .dir → (s.vnode n).children = []
  nodup : ∀ n r, T n = some r → (s.vnode n).children.Nodup
  acyclic : ∃ depth : ℕ → ℕ, ∀ n r q, T n = some r → (s.vnode n).parent = some q →
    depth q < depth n

theorem ne_of_eq_none (hn : T n = none) (hm : T m = some r) : m ≠ n := by
  rintro rfl
  rw [hn] at hm
  cases hm

/-- What of the links is not a list. -/
def Links.head (l : Links) : VType × Bool × Option ℕ := (l.type, l.foreign, l.parent)

section

variable (h : Tree s T)
include h

/-- **A part of the trees** that is closed under both links is one again, if its vnodes keep their
kinds and parents and lose children only. -/
theorem Tree.sub {T' : ℕ → Option ℕ} (hsub : ∀ n r, T' n = some r → T n = some r)
    (hhead : ∀ n r, T' n = some r → (s'.vnode n).links.head = (s.vnode n).links.head)
    (hchildren : ∀ n r, T' n = some r → (s'.vnode n).children.Sublist (s.vnode n).children)
    (hgRoot : s'.gRoot ∈ s'.roots) (hroots : ∀ r ∈ s'.roots, r ∈ s.roots ∧ T' r = some r)
    (hmem : ∀ n r, T' n = some r → r ∈ s'.roots ∧ n ∈ s'.live)
    (hdown : ∀ n r, T' n = some r → ∀ c ∈ (s'.vnode n).children, T' c = some r)
    (hup : ∀ n r q, T' n = some r → (s.vnode n).parent = some q →
      T' q = some r ∧ n ∈ (s'.vnode q).children)
    : Tree s' T' := by
  have htype : ∀ n r, T' n = some r → (s'.vnode n).type = (s.vnode n).type :=
    fun n r hn => (Prod.mk.inj (hhead n r hn)).1
  have hparent : ∀ n r, T' n = some r → (s'.vnode n).parent = (s.vnode n).parent :=
    fun n r hn => (Prod.mk.inj (Prod.mk.inj (hhead n r hn)).2).2
  constructor
  case gRoot => exact hgRoot
  case root =>
    intro r hr
    obtain ⟨hmem, hT⟩ := hroots r hr
    rw [htype r r hT, hparent r r hT]
    exact ⟨hT, (h.root r hmem).2⟩
  case mem => exact hmem
  case kind =>
    intro n r hn
    rw [htype n r hn, show (s'.vnode n).foreign = (s.vnode n).foreign from
      (Prod.mk.inj (Prod.mk.inj (hhead n r hn)).2).1]
    exact h.kind n r (hsub n r hn)
  case child =>
    intro n r hn c hc
    have hT := hdown n r hn c hc
    rw [hparent c r hT]
    exact ⟨hT, (h.child n r (hsub n r hn) c ((hchildren n r hn).subset hc)).2⟩
  case up =>
    intro n r q hn hq
    rw [hparent n r hn] at hq
    exact hup n r q hn hq
  case leaf =>
    intro n r hn htyp
    rw [htype n r hn] at htyp
    exact sublist_nil.mp (h.leaf n r (hsub n r hn) htyp ▸ hchildren n r hn)
  case nodup => exact fun n r hn => (h.nodup n r (hsub n r hn)).sublist (hchildren n r hn)
  case acyclic =>
    obtain ⟨depth, hdepth⟩ := h.acyclic
    exact ⟨depth, fun n r q hn hq => hdepth n r q (hsub n r hn) (hparent n r hn ▸ hq)⟩

/-- **What leaves the links alone keeps the tree.** -/
theorem Tree.frame (hroots : s'.roots = s.roots) (hg : s'.gRoot = s.gRoot)
    (hlive : ∀ n r, T n = some r → n ∈ s'.live)
    (hlinks : ∀ n r, T n = some r → (s'.vnode n).links = (s.vnode n).links) : Tree s' T := by
  have hchildren : ∀ n r, T n = some r → (s'.vnode n).children = (s.vnode n).children :=
    fun n r hn => congrArg Links.children (hlinks n r hn)
  refine h.sub (fun _ _ hn => hn) (fun n r hn => congrArg Links.head (hlinks n r hn))
    (fun n r hn => hchildren n r hn ▸ Sublist.refl _) ?_ ?_ ?_ ?_ ?_
  · rw [hg, hroots]
    exact h.gRoot
  · intro r hr
    rw [hroots] at hr
    exact ⟨hr, (h.root r hr).1⟩
  · intro n r hn
    rw [hroots]
    exact ⟨(h.mem n r hn).1, hlive n r hn⟩
  · intro n r hn c hc
    rw [hchildren n r hn] at hc
    exact (h.child n r hn c hc).1
  · intro n r q hn hq
    obtain ⟨hT, hmem⟩ := h.up n r q hn hq
    rw [hchildren q r hT]
    exact ⟨hT, hmem⟩

theorem Tree.congr (hvnode : s'.vnode = s.vnode) (hlive : s'.live = s.live)
    (hroots : s'.roots = s.roots) (hg : s'.gRoot = s.gRoot) : Tree s' T :=
  h.frame hroots hg (fun n r hn => by rw [hlive]; exact (h.mem n r hn).2)
    (fun n _ _ => by rw [hvnode])

theorem Tree.newVnode (hn : n ∉ s.live) (v : Vnode) : Tree (s.newVnode n v) T := by
  refine h.frame rfl rfl ?_ ?_
  · intro m r hm
    exact Finset.mem_insert_of_mem (h.mem m r hm).2
  · intro m r hm
    have hne : m ≠ n := fun he => hn (he ▸ (h.mem m r hm).2)
    rw [newVnode_vnode_of_ne s v hne]

theorem Tree.freeVnode (hn : T n = none) : Tree (s.freeVnode n) T := by
  refine h.frame rfl rfl ?_ (fun _ _ _ => rfl)
  intro m r hm
  exact Finset.mem_erase_of_ne_of_mem (ne_of_eq_none hn hm) (h.mem m r hm).2

/-! ### Walking -/

theorem Tree.findChild {name : List Char} (hd : T d = some r)
    (hc : ramfsFindChild s d name = some c) : T c = some r ∧ (s.vnode c).parent = some d :=
  h.child d r hd c (mem_of_find?_eq_some hc)

/-- **A walk stays in the tree.** -/
theorem Tree.walk (comps : List (List Char)) {cur : ℕ} (hcur : T cur = some r)
    (hw : ramfsWalk s cur comps = some n) : T n = some r := by
  induction comps generalizing cur with
  | nil =>
    rw [ramfsWalk, some.injEq] at hw
    rw [← hw, hcur]
  | cons seg rest ih =>
    rw [ramfsWalk] at hw
    split_ifs at hw with hdot hdots hdir
    · exact ih hcur hw
    · refine ih ?_ hw
      cases hp : (s.vnode cur).parent with
      | none => exact hcur
      | some q => exact (h.up cur r q hcur hp).1
    · cases hc : ramfsFindChild s cur (seg.take maxName) with
      | none => rw [hc] at hw; cases hw
      | some c =>
        rw [hc] at hw
        exact ih (h.findChild hcur hc).1 hw

end

/-! ### Hanging in -/

/-- The directory after a child has been appended. -/
def Vnode.append (child cap : ℕ) (d : Vnode) : Vnode :=
  { d with children := d.children ++ [child], capChildren := cap }

/-- **A fresh leaf** becomes a vnode of the trees: a child at the end of its parent's list, or a
root. -/
theorem Tree.grow (h : Tree s T) (hn : T n = none)
    (hhead : ∀ m x, T m = some x → (s'.vnode m).links.head = (s.vnode m).links.head)
    (hchildren : ∀ m x, T m = some x → (s'.vnode m).children =
      if (s'.vnode n).parent = some m then (s.vnode m).children ++ [n] else (s.vnode m).children)
    (hgRoot : s'.gRoot ∈ s'.roots) (hr : r ∈ s'.roots) (hsub : s.roots ⊆ s'.roots)
    (hroots : ∀ x ∈ s'.roots, x ∈ s.roots ∨
      (x = n ∧ r = n ∧ (s'.vnode n).type = .dir ∧ (s'.vnode n).parent = none))
    (hlive : insert n s.live ⊆ s'.live) (hforeign : (s'.vnode n).foreign = false)
    (htype : (s'.vnode n).type ≠ .pipeR ∧ (s'.vnode n).type ≠ .pipeW)
    (hleaf : (s'.vnode n).children = [])
    (hparent : ∀ q, (s'.vnode n).parent = some q → T q = some r ∧ (s.vnode q).type = .dir) :
    Tree s' (update T n (some r)) := by
  have hkeep : ∀ m x, T m = some x → (s'.vnode m).type = (s.vnode m).type ∧
      (s'.vnode m).foreign = (s.vnode m).foreign ∧ (s'.vnode m).parent = (s.vnode m).parent := by
    intro m x hm
    have he := Prod.mk.inj (hhead m x hm)
    exact ⟨he.1, Prod.mk.inj he.2⟩
  have hnew : ∀ m x, T m = some x → update T n (some r) m = some x := by
    intro m x hm
    rw [update_of_ne (ne_of_eq_none hn hm), hm]
  have hcases : ∀ m x, update T n (some r) m = some x → (m = n ∧ x = r) ∨ T m = some x := by
    intro m x hm
    by_cases hmn : m = n
    · rw [hmn, update_self, some.injEq] at hm
      exact .inl ⟨hmn, hm.symm⟩
    · rw [update_of_ne hmn] at hm
      exact .inr hm
  constructor
  case gRoot => exact hgRoot
  case root =>
    intro x hx
    rcases hroots x hx with hx | ⟨rfl, rfl, hdir, hpar⟩
    · obtain ⟨hT, htyp, hpar⟩ := h.root x hx
      rw [(hkeep x x hT).1, (hkeep x x hT).2.2]
      exact ⟨hnew x x hT, htyp, hpar⟩
    · exact ⟨update_self .., hdir, hpar⟩
  case mem =>
    intro m x hm
    rcases hcases m x hm with ⟨rfl, rfl⟩ | hm
    · exact ⟨hr, hlive (Finset.mem_insert_self ..)⟩
    · exact ⟨hsub (h.mem m x hm).1, hlive (Finset.mem_insert_of_mem (h.mem m x hm).2)⟩
  case kind =>
    intro m x hm
    rcases hcases m x hm with ⟨rfl, rfl⟩ | hm
    · exact ⟨hforeign, htype⟩
    · rw [(hkeep m x hm).1, (hkeep m x hm).2.1]
      exact h.kind m x hm
  case child =>
    intro m x hm c hc
    rcases hcases m x hm with ⟨rfl, rfl⟩ | hm
    · rw [hleaf] at hc
      cases hc
    have hold : c ∈ (s.vnode m).children →
        update T n (some r) c = some x ∧ (s'.vnode c).parent = some m := by
      intro hc
      obtain ⟨hTc, hpar⟩ := h.child m x hm c hc
      exact ⟨hnew c x hTc, (hkeep c x hTc).2.2.trans hpar⟩
    -- the new child is the only one that was not a child before
    rw [hchildren m x hm] at hc
    split_ifs at hc with hp
    · rcases mem_append.mp hc with hc | hc
      · exact hold hc
      · rw [mem_singleton.mp hc, update_self, ← (hparent m hp).1, hm]
        exact ⟨rfl, hp⟩
    · exact hold hc
  case up =>
    intro m x q hm hq
    rcases hcases m x hm with ⟨rfl, rfl⟩ | hm
    · obtain ⟨hTq, -⟩ := hparent q hq
      rw [hchildren q x hTq, if_pos hq]
      exact ⟨hnew q x hTq, mem_append_right _ (mem_singleton_self _)⟩
    · rw [(hkeep m x hm).2.2] at hq
      obtain ⟨hTq, hmem⟩ := h.up m x q hm hq
      rw [hchildren q x hTq]
      refine ⟨hnew q x hTq, ?_⟩
      split_ifs
      · exact mem_append_left _ hmem
      · exact hmem
  case leaf =>
    intro m x hm htyp
    rcases hcases m x hm with ⟨rfl, rfl⟩ | hm
    · exact hleaf
    · rw [(hkeep m x hm).1] at htyp
      rw [hchildren m x hm, if_neg fun hp => htyp (hparent m hp).2]
      exact h.leaf m x hm htyp
  case nodup =>
    intro m x hm
    rcases hcases m x hm with ⟨rfl, rfl⟩ | hm
    · rw [hleaf]
      exact nodup_nil
    rw [hchildren m x hm]
    split_ifs
    · refine Nodup.append (h.nodup m x hm) (nodup_singleton n) ?_
      rw [disjoint_singleton]
      exact fun hmem => ne_of_eq_none hn (h.child m x hm n hmem).1 rfl
    · exact h.nodup m x hm
  case acyclic =>
    obtain ⟨depth, hdepth⟩ := h.acyclic
    -- the new leaf is right below its parent, and above nothing
    refine ⟨update depth n ((s'.vnode n).parent.elim 0 depth + 1), ?_⟩
    intro m x q hm hq
    rcases hcases m x hm with ⟨rfl, rfl⟩ | hm
    · rw [update_self, update_of_ne (ne_of_eq_none hn (hparent q hq).1), hq]
      exact Nat.lt_succ_self _
    · rw [(hkeep m x hm).2.2] at hq
      rw [update_of_ne (ne_of_eq_none hn hm),
        update_of_ne (ne_of_eq_none hn (h.up m x q hm hq).1)]
      exact hdepth m x q hm hq

/-- **Hanging in.**  A fresh leaf becomes a vnode of the tree. -/
theorem Tree.hang (h : Tree s T) {cap : ℕ} (hd : T d = some r) (hdir : (s.vnode d).type = .dir)
    (hn : T n = none) (hlive : n ∈ s.live) (hforeign : (s.vnode n).foreign = false)
    (htype : (s.vnode n).type ≠ .pipeR ∧ (s.vnode n).type ≠ .pipeW)
    (hleaf : (s.vnode n).children = []) :
    Tree ((s.modifyVnode n fun c => { c with parent := some d }).modifyVnode d (Vnode.append n cap))
      (update T n (some r)) := by
  have hdn := ne_of_eq_none hn hd
  generalize hs1 : (s.modifyVnode n _).modifyVnode d _ = s1
  have hvn : s1.vnode n = { s.vnode n with parent := some d } := by
    rw [← hs1, modifyVnode_vnode_of_ne _ _ hdn.symm, modifyVnode_vnode_self]
  have hvm : ∀ m x, T m = some x →
      s1.vnode m = if d = m then (s.vnode m).append n cap else s.vnode m := by
    intro m x hm
    have hmn := ne_of_eq_none hn hm
    split_ifs with hdm
    · rw [← hs1, ← hdm, modifyVnode_vnode_self, modifyVnode_vnode_of_ne _ _ hdn]
    · rw [← hs1, modifyVnode_vnode_of_ne _ _ (Ne.symm hdm), modifyVnode_vnode_of_ne _ _ hmn]
  obtain ⟨hroots, hlv, hgr⟩ : s1.roots = s.roots ∧ s1.live = s.live ∧ s1.gRoot = s.gRoot := by
    rw [← hs1]
    exact ⟨rfl, rfl, rfl⟩
  refine h.grow hn ?_ ?_ (hgr ▸ hroots ▸ h.gRoot) (hroots ▸ (h.mem d r hd).1) hroots.ge
    (fun x hx => .inl (hroots ▸ hx)) (by rw [hlv, Finset.insert_eq_of_mem hlive])
    (hvn ▸ hforeign) (hvn ▸ htype) (hvn ▸ hleaf) ?_
  · intro m x hm
    rw [hvm m x hm]
    split_ifs <;> rfl
  · intro m x hm
    rw [hvm m x hm, hvn]
    simp only [some.injEq]
    split_ifs <;> rfl
  · intro q hq
    rw [hvn] at hq
    obtain rfl : d = q := some.inj hq
    exact ⟨hd, hdir⟩

/-! ### Removing -/

/-- The directory after a child has been taken out. -/
def Vnode.without (n : ℕ) (d : Vnode) : Vnode := { d with children := d.children.erase n }

theorem update_none_eq_some {m x : ℕ} : update T n none m = some x ↔ m ≠ n ∧ T m = some x := by
  by_cases hmn : m = n <;> simp [hmn]

/-- **Removing a leaf.**  It is a child of its directory only, and nothing has it for parent. -/
theorem Tree.cut (h : Tree s T) (hd : T d = some r) (hn : n ∈ (s.vnode d).children)
    (hleaf : (s.vnode n).children = []) :
    Tree ((s.modifyVnode d (Vnode.without n)).freeVnode n) (update T n none) := by
  obtain ⟨hTn, hparn⟩ := h.child d r hd n hn
  have hdn : d ≠ n := by
    rintro rfl
    rw [hleaf] at hn
    cases hn
  generalize hs1 : (s.modifyVnode d (Vnode.without n)).freeVnode n = s1
  have hvd : s1.vnode d = (s.vnode d).without n := by
    rw [← hs1]
    exact modifyVnode_vnode_self ..
  have hother : ∀ m, m ≠ d → s1.vnode m = s.vnode m := by
    intro m hmd
    rw [← hs1]
    exact modifyVnode_vnode_of_ne _ _ hmd
  have hhead : ∀ m, (s1.vnode m).links.head = (s.vnode m).links.head := by
    intro m
    by_cases hmd : m = d
    · subst hmd
      rw [hvd]
      rfl
    · rw [hother m hmd]
  have hsub : ∀ m, (s1.vnode m).children.Sublist (s.vnode m).children := by
    intro m
    by_cases hmd : m = d
    · subst hmd
      rw [hvd]
      exact erase_sublist
    · rw [hother m hmd]
  obtain ⟨hroots, hgr, hlv⟩ : s1.roots = s.roots ∧ s1.gRoot = s.gRoot ∧
      s1.live = s.live.erase n := by
    rw [← hs1]
    exact ⟨rfl, rfl, rfl⟩
  refine h.sub (fun m x hm => (update_none_eq_some.mp hm).2) (fun m _ _ => hhead m)
    (fun m _ _ => hsub m) ?_ ?_ ?_ ?_ ?_
  · rw [hgr, hroots]
    exact h.gRoot
  · intro x hx
    rw [hroots] at hx
    have hxn : x ≠ n := by
      rintro rfl
      rw [(h.root x hx).2.2] at hparn
      cases hparn
    exact ⟨hx, update_none_eq_some.mpr ⟨hxn, (h.root x hx).1⟩⟩
  · intro m x hm
    obtain ⟨hmn, hTm⟩ := update_none_eq_some.mp hm
    rw [hroots, hlv]
    exact ⟨(h.mem m x hTm).1, Finset.mem_erase_of_ne_of_mem hmn (h.mem m x hTm).2⟩
  · intro m x hm c hc
    obtain ⟨hmn, hTm⟩ := update_none_eq_some.mp hm
    obtain ⟨hTc, hpar⟩ := h.child m x hTm c ((hsub m).subset hc)
    refine update_none_eq_some.mpr ⟨?_, hTc⟩
    rintro rfl
    -- a child of two directories would have two parents
    have hmd : d = m := by
      rw [hparn] at hpar
      exact some.inj hpar
    subst hmd
    rw [hvd] at hc
    exact (h.nodup d x hTm).not_mem_erase hc
  · intro m x q hm hq
    obtain ⟨hmn, hTm⟩ := update_none_eq_some.mp hm
    obtain ⟨hTq, hmem⟩ := h.up m x q hTm hq
    have hqn : q ≠ n := by
      rintro rfl
      rw [hleaf] at hmem
      cases hmem
    refine ⟨update_none_eq_some.mpr ⟨hqn, hTq⟩, ?_⟩
    by_cases hqd : q = d
    · subst hqd
      rw [hvd]
      exact (mem_erase_of_ne hmn).mpr hmem
    · rw [hother q hqd]
      exact hmem

/-! ### Mounting and unmounting -/

/-- **Mounting.**  A fresh directory is the root of a tree of its own. -/
theorem Tree.mount (h : Tree s T) (hn : n ∉ s.live) {v : Vnode} (hdir : v.type = .dir)
    (hforeign : v.foreign = false) (hchildren : v.children = []) (hparent : v.parent = none) :
    Tree { s.newVnode n v with roots := insert n s.roots } (update T n (some n)) := by
  have hTn : ∀ m x, T m = some x → m ≠ n := by
    rintro m x hm rfl
    exact hn (h.mem m x hm).2
  generalize hs1 : ({ s.newVnode n v with roots := insert n s.roots } : Files) = s1
  have hvn : s1.vnode n = v := by
    rw [← hs1]
    exact newVnode_vnode_self s n v
  have hvm : ∀ m x, T m = some x → s1.vnode m = s.vnode m := by
    intro m x hm
    rw [← hs1]
    exact newVnode_vnode_of_ne s v (hTn m x hm)
  refine h.grow (eq_none_iff_forall_ne_some.mpr fun x hx => hTn n x hx rfl)
    (fun m x hm => by rw [hvm m x hm]) ?_ ?_ ?_ ?_ ?_ ?_ (hvn ▸ hforeign) ?_ (hvn ▸ hchildren) ?_
  · intro m x hm
    rw [hvm m x hm, hvn, hparent, if_neg (some_ne_none m).symm]
  · rw [← hs1]
    exact Finset.mem_insert_of_mem h.gRoot
  · rw [← hs1]
    exact Finset.mem_insert_self ..
  · rw [← hs1]
    exact Finset.subset_insert ..
  · intro x hx
    rw [← hs1] at hx
    rw [hvn]
    exact (Finset.mem_insert.mp hx).symm.imp_right fun hxn => ⟨hxn, rfl, hdir, hparent⟩
  · rw [← hs1]
    exact Finset.Subset.refl _
  · rw [hvn, hdir]
    exact ⟨by decide, by decide⟩
  · intro q hq
    rw [hvn, hparent] at hq
    cases hq

/-- `m` stands at or below `n`. -/
def Under (s : Files) (n m : ℕ) : Prop :=
  Relation.ReflTransGen (fun d c => c ∈ (s.vnode d).children) n m

theorem Tree.under (h : Tree s T) (hn : T n = some r) (hm : Under s n m) : T m = some r := by
  induction hm with
  | refl => exact hn
  | tail _ hc ih => exact (h.child _ r ih _ hc).1

/-- Freeing vnodes at or below `n`, with their buffers, has led from `s` to `s'`. -/
structure Destroyed (s : Files) (n : ℕ) (s' : Files) : Prop where
  rest : s' = { s with live := s'.live, bufs := s'.bufs }
  live_sub : s'.live ⊆ s.live
  freed : ∀ m ∈ s.live, m ∉ s'.live → Under s n m
  buf_freed : ∀ b ∈ s.bufs, b ∉ s'.bufs → ∃ m, m ∉ s'.live ∧ Under s n m ∧ (s.vnode m).data = some b

theorem Destroyed.vnode (h : Destroyed s n s') : s'.vnode = s.vnode := by
  rw [h.rest]

theorem Destroyed.refl (s : Files) (n : ℕ) : Destroyed s n s where
  rest := rfl
  live_sub := Finset.Subset.refl _
  freed := fun _ hm hm' => absurd hm hm'
  buf_freed := fun _ hb hb' => absurd hb hb'

/-- Freeing what is below a child, and then more. -/
theorem Destroyed.trans {s₁ s₂ : Files} (hc : c ∈ (s.vnode n).children)
    (h₁ : Destroyed s c s₁) (h₂ : Destroyed s₁ n s₂) : Destroyed s n s₂ := by
  have hunder : ∀ a b, Under s₁ a b → Under s a b := by
    intro a b hab
    rw [Under, h₁.vnode] at hab
    exact hab
  have hbelow : ∀ m, Under s c m → Under s n m := fun m hm => Relation.ReflTransGen.head hc hm
  constructor
  case rest => rw [h₂.rest, h₁.rest]
  case live_sub => exact h₂.live_sub.trans h₁.live_sub
  case freed =>
    intro m hm hm'
    by_cases hmid : m ∈ s₁.live
    · exact hunder n m (h₂.freed m hmid hm')
    · exact hbelow m (h₁.freed m hm hmid)
  case buf_freed =>
    intro b hb hb'
    by_cases hmid : b ∈ s₁.bufs
    · obtain ⟨m, hm, hu, hd⟩ := h₂.buf_freed b hmid hb'
      rw [h₁.vnode] at hd
      exact ⟨m, hm, hunder n m hu, hd⟩
    · obtain ⟨m, hm, hu, hd⟩ := h₁.buf_freed b hb hmid
      exact ⟨m, fun hmem => hm (h₂.live_sub hmem), hbelow m hu, hd⟩

/-- Freeing one vnode and its buffer. -/
theorem Destroyed.self (s : Files) (n : ℕ) :
    Destroyed s n ((s.freeBuf (s.vnode n).data).freeVnode n) := by
  have hfreed : ∀ m ∈ s.live, m ∉ s.live.erase n → Under s n m := by
    intro m hm hm'
    have hmn : m = n := by
      by_contra hne
      exact hm' (Finset.mem_erase_of_ne_of_mem hne hm)
    rw [hmn]
    exact Relation.ReflTransGen.refl
  cases hd : (s.vnode n).data with
  | none => exact ⟨rfl, Finset.erase_subset n s.live, hfreed, fun _ hb hb' => absurd hb hb'⟩
  | some b =>
    refine ⟨rfl, Finset.erase_subset n s.live, hfreed, ?_⟩
    intro b' hb hb'
    have hbb : b' = b := by
      by_contra hne
      exact hb' (Finset.mem_erase_of_ne_of_mem hne hb)
    exact ⟨n, Finset.notMem_erase n s.live, Relation.ReflTransGen.refl, by rw [hbb, hd]⟩

/-- **Destroying a tree** frees what is in it and nothing else. -/
theorem ramfsDestroy_spec (depth : ℕ) (s : Files) (n : ℕ) :
    Destroyed s n (ramfsDestroy depth s n) := by
  induction depth generalizing s n with
  | zero => exact .refl s n
  | succ depth ih =>
    -- the loop over the children, from any state that still has them
    have hloop : ∀ (cs : List ℕ) (s : Files), (∀ c ∈ cs, c ∈ (s.vnode n).children) →
        Destroyed s n (((cs.foldl (ramfsDestroy depth) s).freeBuf
          ((cs.foldl (ramfsDestroy depth) s).vnode n).data).freeVnode n) := by
      intro cs
      induction cs with
      | nil =>
        intro s _
        exact .self s n
      | cons c cs ihcs =>
        intro s hcs
        have hfirst := ih s c
        refine .trans (hcs c mem_cons_self) hfirst (ihcs _ ?_)
        intro c' hc'
        rw [hfirst.vnode]
        exact hcs c' (mem_cons_of_mem c hc')
    exact hloop _ s (fun c hc => hc)

/-- The trees without the one below `r`. -/
def unmounted (T : ℕ → Option ℕ) (r n : ℕ) : Option ℕ := if T n = some r then none else T n

theorem unmounted_eq_some (h : unmounted T r n = some x) : T n = some x ∧ x ≠ r := by
  rw [unmounted] at h
  split_ifs at h with hr
  refine ⟨h, ?_⟩
  rintro rfl
  exact hr h

theorem unmounted_of_ne (h : T n = some x) (hx : x ≠ r) : unmounted T r n = some x := by
  have hne : T n ≠ some r := by
    rw [h]
    exact fun he => hx (some.inj he)
  rw [unmounted, if_neg hne, h]

/-- **Unmounting** takes away one tree. -/
theorem Tree.umount (h : Tree s T) (hr : r ∈ s.roots) (hg : r ≠ s.gRoot)
    (hd : Destroyed s r s') : Tree { s' with roots := s'.roots.erase r } (unmounted T r) := by
  have hv := hd.vnode
  have hroots : s'.roots = s.roots := by rw [hd.rest]
  refine h.sub (fun n x hn => (unmounted_eq_some hn).1) (fun n _ _ => ?_) (fun n _ _ => ?_) ?_ ?_ ?_
    ?_ ?_
  · rw [hv]
  · rw [hv]
  · rw [hroots, show s'.gRoot = s.gRoot by rw [hd.rest]]
    exact Finset.mem_erase_of_ne_of_mem hg.symm h.gRoot
  · intro x hx
    obtain ⟨hxr, hx⟩ := Finset.mem_erase.mp hx
    rw [hroots] at hx
    exact ⟨hx, unmounted_of_ne (h.root x hx).1 hxr⟩
  · intro n x hn
    obtain ⟨hT, hxr⟩ := unmounted_eq_some hn
    obtain ⟨hx, hlive⟩ := h.mem n x hT
    refine ⟨Finset.mem_erase_of_ne_of_mem hxr (by rw [hroots]; exact hx), ?_⟩
    by_contra hfreed
    have := h.under (h.root r hr).1 (hd.freed n hlive hfreed)
    rw [hT] at this
    exact hxr (some.inj this)
  · intro n x hn c hc
    obtain ⟨hT, hxr⟩ := unmounted_eq_some hn
    change c ∈ (s'.vnode n).children at hc
    rw [hv] at hc
    exact unmounted_of_ne (h.child n x hT c hc).1 hxr
  · intro n x q hn hq
    obtain ⟨hT, hxr⟩ := unmounted_eq_some hn
    obtain ⟨hTq, hmem⟩ := h.up n x q hT hq
    refine ⟨unmounted_of_ne hTq hxr, ?_⟩
    rw [hv]
    exact hmem

/-! ### Data buffers -/

/-- Each allocated vnode owns its data buffer. -/
structure Bufs (s : Files) : Prop where
  own : ∀ n ∈ s.live, ∀ b, (s.vnode n).data = some b → b ∈ s.bufs
  inj : ∀ n ∈ s.live, ∀ m ∈ s.live, ∀ b, (s.vnode n).data = some b → (s.vnode m).data = some b →
    n = m

theorem Bufs.frame (h : Bufs s) (hbufs : s.bufs ⊆ s'.bufs)
    (hdata : ∀ n ∈ s'.live, ∀ b, (s'.vnode n).data = some b →
      n ∈ s.live ∧ (s.vnode n).data = some b) :
    Bufs s' where
  own := by
    intro n hn b hb
    obtain ⟨hn', hb'⟩ := hdata n hn b hb
    exact hbufs (h.own n hn' b hb')
  inj := by
    intro n hn m hm b hnb hmb
    obtain ⟨hn', hnb'⟩ := hdata n hn b hnb
    obtain ⟨hm', hmb'⟩ := hdata m hm b hmb
    exact h.inj n hn' m hm' b hnb' hmb'

/-- **One vnode gives up its buffer**, and may have got a fresh one. -/
theorem Bufs.change (h : Bufs s) (hn : n ∈ s.live)
    (hother : ∀ m ∈ s'.live, m ≠ n → m ∈ s.live ∧ (s'.vnode m).data = (s.vnode m).data)
    (hbufs : ∀ b ∈ s.bufs, (s.vnode n).data ≠ some b → b ∈ s'.bufs)
    (hself : n ∈ s'.live → ∀ b, (s'.vnode n).data = some b → b ∈ s'.bufs ∧ b ∉ s.bufs) :
    Bufs s' := by
  have hkeep : ∀ m ∈ s'.live, m ≠ n → ∀ b, (s'.vnode m).data = some b →
      m ∈ s.live ∧ (s.vnode m).data = some b ∧ b ∈ s.bufs := by
    intro m hm hmn b hb
    obtain ⟨hlive, hd⟩ := hother m hm hmn
    rw [hd] at hb
    exact ⟨hlive, hb, h.own m hlive b hb⟩
  constructor
  case own =>
    intro m hm b hb
    by_cases hmn : m = n
    · rw [hmn] at hm hb
      exact (hself hm b hb).1
    · obtain ⟨hlive, hd, hmem⟩ := hkeep m hm hmn b hb
      exact hbufs b hmem fun hnb => hmn (h.inj m hlive n hn b hd hnb)
  case inj =>
    intro m hm k hk b hmb hkb
    by_cases hmn : m = n <;> by_cases hkn : k = n
    · rw [hmn, hkn]
    · rw [hmn] at hm hmb
      exact absurd (hkeep k hk hkn b hkb).2.2 (hself hm b hmb).2
    · rw [hkn] at hk hkb
      exact absurd (hkeep m hm hmn b hmb).2.2 (hself hk b hkb).2
    · obtain ⟨hml, hmd, -⟩ := hkeep m hm hmn b hmb
      obtain ⟨hkl, hkd, -⟩ := hkeep k hk hkn b hkb
      exact h.inj m hml k hkl b hmd hkd

/-- Destroying a tree frees the buffers of the vnodes it frees only. -/
theorem Bufs.destroyed (h : Bufs s) (ht : Tree s T) (hr : r ∈ s.roots)
    (hd : Destroyed s r s') : Bufs s' := by
  have hv := hd.vnode
  constructor
  case own =>
    intro n hn b hb
    rw [hv] at hb
    by_contra hfreed
    have hnl := hd.live_sub hn
    obtain ⟨m, hm, hu, hmb⟩ := hd.buf_freed b (h.own n hnl b hb) hfreed
    have hml := (ht.mem m r (ht.under (ht.root r hr).1 hu)).2
    rw [h.inj n hnl m hml b hb hmb] at hn
    exact hm hn
  case inj =>
    intro n hn m hm b hnb hmb
    rw [hv] at hnb hmb
    exact h.inj n (hd.live_sub hn) m (hd.live_sub hm) b hnb hmb

end AxiomeOS.Vfs
