import AxiomeOS.Vfs.Mounts
import AxiomeOS.Lib.Runs

/-!
# The cached roots of the mounts

`Inv s` is the invariant of the mount table: each mount has its root and its private objects, the
trees of the mounts are closed, and the descriptors refer to vnodes in use.  It says nothing of the
superblock that a root names, which after `vfs_umount` may be that of another mount.  Lookups and
mounts keep it (`vfsLookup_spec`, `Inv.enter`), and so does unmounting what no descriptor refers to
(`Inv.umount`).

The ramfs frees no vnode, and FAT32 and axiomefs keep their own roots.  The `inode_free` of the
procfs and the devfs do not ask whether the vnode is a root, and those of FAT32 and axiomefs compare
it with the root of the superblock that it names.  `roots_stay_iff` says that nothing else frees a
root; in `proc_root_freed` a process looks up `/proc` and gives it back.
-/

namespace AxiomeOS.Mounts

open Function List Option

open scoped Vfs

open Vfs (VType components)

/-! ### The invariant -/

/-- A vnode in the tree of the mount `i`: its root, or one made by `ramfs_new_node`, whose
superblock is that of the ramfs mounted at boot. -/
structure Node (s : State) (i n : ℕ) : Prop where
  live : n ∈ s.vnodes
  fs : (s.vnode n).fs = (s.table i).id
  place : (s.table i).root = some n ∨ (s.vnode n).sb = some gRamfsSb

/-- The vnode is the cached root of a mount. -/
def IsRoot (s : State) (n : ℕ) : Prop := ∃ i < s.nmounts, (s.table i).root = some n

/-- The vnode is a root, or in the tree of a ramfs. -/
def Stays (s : State) (n : ℕ) : Prop := IsRoot s n ∨ (s.vnode n).sb = some gRamfsSb

/-- **The invariant of the mount table.** -/
structure Inv (s : State) : Prop where
  boot : 0 < s.nmounts ∧ (s.table gRamfsSb).fsType = .ramfs
  root : ∀ i < s.nmounts, ∃ r, (s.table i).root = some r ∧ r ∈ s.vnodes ∧
    (s.vnode r).fs = (s.table i).id
  ids : ∀ i < s.nmounts, ∀ j < s.nmounts, (s.table i).id = (s.table j).id → i = j
  idLt : ∀ i < s.nmounts, (s.table i).id < s.nextId
  fsLt : ∀ n ∈ s.vnodes, (s.vnode n).fs < s.nextId
  obj : ∀ n ∈ s.vnodes, ∀ p, (s.vnode n).priv.ptr = some p → p ∈ s.objs
  objInj : ∀ n ∈ s.vnodes, ∀ m ∈ s.vnodes, ∀ p, (s.vnode n).priv.ptr = some p →
    (s.vnode m).priv.ptr = some p → n = m
  priv : ∀ i < s.nmounts, ∀ p, (s.table i).priv = some p → p ∈ s.objs ∧
    ∀ n ∈ s.vnodes, (s.vnode n).priv.ptr ≠ some p
  privInj : ∀ i < s.nmounts, ∀ j < s.nmounts, ∀ p, (s.table i).priv = some p →
    (s.table j).priv = some p → i = j
  links : ∀ i < s.nmounts, ∀ n, Node s i n →
    (∀ c ∈ (s.vnode n).children, Node s i c) ∧ ∀ q, (s.vnode n).parent = some q → Node s i q
  refs : ∀ t k n, s.fds t k = some n → n ∈ s.vnodes
  solo : ∀ t k t' k' n, s.fds t k = some n → s.fds t' k' = some n → (t = t' ∧ k = k') ∨ Stays s n

/-! ### Changes that keep the invariant -/

/-- What the invariant reads of a vnode. -/
def Vnode.core (v : Vnode) : Option ℕ × Priv × List ℕ × Option ℕ × ℕ :=
  (v.sb, v.priv, v.children, v.parent, v.fs)

variable {r t : ℕ} {v : Vnode} {objs : Finset ℕ} {k : Fin 32} {f : Option ℕ} {P : ℕ → Prop}
  {out : State × Option ℕ}

section Frame

variable {s s' : State} {i n : ℕ}

theorem Vnode.core_eq {v w : Vnode} (h : v.core = w.core) : v.sb = w.sb ∧ v.priv = w.priv ∧
    v.children = w.children ∧ v.parent = w.parent ∧ v.fs = w.fs := by
  simpa only [Vnode.core, Prod.mk.injEq] using h

theorem Node.frame (h : Node s i n) {j : ℕ} (hlive : n ∈ s'.vnodes)
    (hcore : (s'.vnode n).core = (s.vnode n).core) (htable : s'.table j = s.table i) :
    Node s' j n := by
  obtain ⟨hsb, -, -, -, hfs⟩ := Vnode.core_eq hcore
  refine ⟨hlive, ?_, ?_⟩
  · rw [hfs, htable]
    exact h.fs
  · rw [hsb, htable]
    exact h.place

theorem Stays.frame (h : Stays s n) (hcore : (s'.vnode n).core = (s.vnode n).core)
    (htable : s'.table = s.table) (hnm : s'.nmounts = s.nmounts) : Stays s' n := by
  unfold Stays IsRoot
  rw [(Vnode.core_eq hcore).1, htable, hnm]
  exact h

/-- What is added to a state: at most the vnode `r`, without links and with a new object or none,
and one mount behind the last one, with a private object that is new too. -/
structure Adds (s s' : State) (r : ℕ) : Prop where
  nmounts : s.nmounts ≤ s'.nmounts
  nextId : s.nextId ≤ s'.nextId
  objs : s.objs ⊆ s'.objs
  fds : s'.fds = s.fds
  live : s.vnodes ⊆ s'.vnodes
  core : ∀ m ∈ s.vnodes, (s'.vnode m).core = (s.vnode m).core
  vnode : ∀ m ∈ s'.vnodes, m ∈ s.vnodes ∨ m = r ∧ (s'.vnode m).children = [] ∧
    (s'.vnode m).parent = none ∧ (s'.vnode m).fs < s'.nextId ∧
    ∀ p, (s'.vnode m).priv.ptr = some p → p ∉ s.objs ∧ p ∈ s'.objs
  table : ∀ i < s.nmounts, s'.table i = s.table i
  mount : ∀ i < s'.nmounts, i < s.nmounts ∨ i = s.nmounts ∧
    ((s'.table i).id = s.nextId ∧ s.nextId < s'.nextId) ∧
    (∃ r, (s'.table i).root = some r ∧ r ∈ s'.vnodes ∧ (s'.vnode r).fs = (s'.table i).id) ∧
    ∀ p, (s'.table i).priv = some p → p ∉ s.objs ∧ p ∈ s'.objs ∧ (s'.vnode r).priv.ptr ≠ some p

/-- **What is added keeps the invariant**; what the invariant does not read may change. -/
theorem Inv.adds (h : Inv s) (ha : Adds s s' r) : Inv s' := by
  have hsame := fun m hm => Vnode.core_eq (ha.core m hm)
  have hnode : ∀ {i m}, i < s.nmounts → Node s i m → Node s' i m :=
    fun hi hm => hm.frame (ha.live hm.live) (ha.core _ hm.live) (ha.table _ hi)
  constructor
  case boot =>
    rw [ha.table gRamfsSb h.boot.1]
    exact ⟨h.boot.1.trans_le ha.nmounts, h.boot.2⟩
  case root =>
    intro i hi
    obtain hi | ⟨-, -, hroot, -⟩ := ha.mount i hi
    · obtain ⟨r', hr', hmem, hrest⟩ := h.root i hi
      rw [ha.table i hi]
      refine ⟨r', hr', ha.live hmem, ?_⟩
      rw [(hsame r' hmem).2.2.2.2]
      exact hrest
    · exact hroot
  case ids =>
    have hids := owner_unique (R := fun i k => (s.table i).id = k)
      (fun i hi j hj k hk hk' => h.ids i hi j hj (hk.trans hk'.symm))
      (fun i hi => (ha.mount i hi).imp_right fun ⟨hnew, hid, _⟩ => ⟨hnew, fun j hj k hk hk' =>
        (h.idLt j hj).ne (hk.trans (hk'.symm.trans hid.1))⟩)
      (fun i hi k hk => ha.table i hi ▸ hk)
    exact fun i hi j hj heq => hids i hi j hj _ heq rfl
  case idLt =>
    intro i hi
    obtain hi | ⟨-, hid, -⟩ := ha.mount i hi
    · rw [ha.table i hi]
      exact (h.idLt i hi).trans_le ha.nextId
    · exact hid.1.trans_lt hid.2
  case fsLt =>
    intro m hm
    obtain hm | ⟨-, -, -, hfs, -⟩ := ha.vnode m hm
    · rw [(hsame m hm).2.2.2.2]
      exact (h.fsLt m hm).trans_le ha.nextId
    · exact hfs
  case obj =>
    intro m hm p hp
    obtain hm | ⟨-, -, -, -, hptr⟩ := ha.vnode m hm
    · rw [(hsame m hm).2.1] at hp
      exact ha.objs (h.obj m hm p hp)
    · exact (hptr p hp).2
  case objInj =>
    refine owner_unique h.objInj (fun m hm => (ha.vnode m hm).imp_right fun hnew => ⟨hnew.1, ?_⟩) ?_
    · exact fun k hk p hp hq => (hnew.2.2.2.2 p hq).1 (h.obj k hk p hp)
    · exact fun m hm p hp => (hsame m hm).2.1 ▸ hp
  case priv =>
    intro i hi p hp
    obtain hi | ⟨-, -, -, hpriv⟩ := ha.mount i hi
    · rw [ha.table i hi] at hp
      obtain ⟨hmem, hne⟩ := h.priv i hi p hp
      refine ⟨ha.objs hmem, fun m hm heq => ?_⟩
      obtain hm | ⟨-, -, -, -, hptr⟩ := ha.vnode m hm
      · rw [(hsame m hm).2.1] at heq
        exact hne m hm heq
      · exact (hptr p heq).1 hmem
    · obtain ⟨hfresh, hmem, hne⟩ := hpriv p hp
      refine ⟨hmem, fun m hm heq => ?_⟩
      obtain hm | ⟨rfl, -⟩ := ha.vnode m hm
      · rw [(hsame m hm).2.1] at heq
        exact hfresh (h.obj m hm p heq)
      · exact hne heq
  case privInj =>
    refine owner_unique h.privInj
      (fun i hi => (ha.mount i hi).imp_right fun hnew => ⟨hnew.1, ?_⟩) ?_
    · exact fun j hj p hp hq => (hnew.2.2.2 p hq).1 (h.priv j hj p hp).1
    · exact fun i hi p hp => ha.table i hi ▸ hp
  case links =>
    intro i hi m hm
    obtain hmem | ⟨-, hchildren, hparent, -⟩ := ha.vnode m hm.live
    · obtain hi | ⟨-, hid, -⟩ := ha.mount i hi
      · obtain ⟨hc, hq⟩ := h.links i hi m
          (hm.frame hmem (ha.core m hmem).symm (ha.table i hi).symm)
        rw [(hsame m hmem).2.2.1, (hsame m hmem).2.2.2.1]
        exact ⟨fun c hc' => hnode hi (hc c hc'), fun q hq' => hnode hi (hq q hq')⟩
      · -- the number of the new mount was given to no vnode before
        have hfs := hm.fs
        rw [(hsame m hmem).2.2.2.2, hid.1] at hfs
        exact absurd hfs (h.fsLt m hmem).ne
    · rw [hchildren, hparent]
      exact ⟨nofun, nofun⟩
  case refs =>
    intro t k n hn
    rw [ha.fds] at hn
    exact ha.live (h.refs t k n hn)
  case solo =>
    intro t k t' k' n hn hn'
    rw [ha.fds] at hn hn'
    refine (h.solo t k t' k' n hn hn').imp_right (Or.imp ?_ ?_)
    · rintro ⟨j, hj, hroot⟩
      exact ⟨j, hj.trans_le ha.nmounts, (ha.table j hj).symm ▸ hroot⟩
    · rw [(hsame n (h.refs t k n hn)).1]
      exact fun hsb => hsb

theorem Inv.modifyVnode (h : Inv s) (n : ℕ) {f : Vnode → Vnode} (hf : ∀ v, (f v).core = v.core) :
    Inv (s.modifyVnode n f) := by
  refine h.adds (r := n) ⟨le_rfl, le_rfl, Finset.Subset.refl _, rfl, Finset.Subset.refl _, ?_,
    fun m hm => .inl hm, fun i _ => rfl, fun i hi => .inl hi⟩
  intro m _
  show (update s.vnode n (f (s.vnode n)) m).core = _
  by_cases hm : m = n
  · rw [hm, update_self, hf]
  · rw [update_of_ne hm]

/-- The state with a new vnode and the new set of objects. -/
def State.born (s : State) (n : ℕ) (v : Vnode) (objs : Finset ℕ) : State :=
  { s with vnodes := insert n s.vnodes, vnode := update s.vnode n v, objs := objs }

theorem State.born_vnode_of_ne {m : ℕ} (s : State) (v : Vnode) (objs : Finset ℕ) (h : m ≠ n) :
    (s.born n v objs).vnode m = s.vnode m :=
  update_of_ne h ..

theorem State.born_vnode_self (s : State) (n : ℕ) (v : Vnode) (objs : Finset ℕ) :
    (s.born n v objs).vnode n = v :=
  update_self ..

/-- **A new vnode** without links, with a new object or none. -/
theorem Inv.born (h : Inv s) (hn : n ∉ s.vnodes)
    (hobjs : s.objs ⊆ objs) (hptr : ∀ p, v.priv.ptr = some p → p ∉ s.objs ∧ p ∈ objs)
    (hchildren : v.children = []) (hparent : v.parent = none) (hfs : v.fs < s.nextId) :
    Inv (s.born n v objs) := by
  refine h.adds (r := n) ⟨le_rfl, le_rfl, hobjs, rfl, Finset.subset_insert n _, ?_, ?_,
    fun i _ => rfl, fun i hi => .inl hi⟩
  · intro m hm
    exact congrArg Vnode.core (s.born_vnode_of_ne v objs fun heq => hn (heq ▸ hm))
  · intro m hm
    refine (Finset.mem_insert.mp hm).symm.imp_right ?_
    rintro rfl
    rw [s.born_vnode_self m v objs]
    exact ⟨rfl, hchildren, hparent, hfs, hptr⟩

/-- The state without a vnode, and with the objects that are left. -/
def State.dead (s : State) (n : ℕ) (objs : Finset ℕ) : State :=
  { s with vnodes := s.vnodes.erase n, objs := objs }

/-- **Freeing a vnode** that is no root and in no ramfs, and to which no descriptor refers, and the
object it owns. -/
theorem Inv.dead (h : Inv s) (hn : n ∈ s.vnodes)
    (hobjs : ∀ p ∈ s.objs, p ∈ objs ∨ (s.vnode n).priv.ptr = some p)
    (hstays : ¬ Stays s n) (hfds : ∀ t k, s.fds t k ≠ some n) : Inv (s.dead n objs) := by
  have hmem : ∀ {m}, m ∈ s.vnodes → m ≠ n → m ∈ (s.dead n objs).vnodes :=
    fun hm hne => Finset.mem_erase_of_ne_of_mem hne hm
  have hback : ∀ {m}, m ∈ (s.dead n objs).vnodes → m ∈ s.vnodes :=
    fun hm => Finset.mem_of_mem_erase hm
  have hnode : ∀ {j m}, j < s.nmounts → Node s j m → Node (s.dead n objs) j m := by
    intro j m hj hm
    refine hm.frame (hmem hm.live ?_) rfl rfl
    rintro rfl
    exact hstays (hm.place.imp_left fun hroot => ⟨j, hj, hroot⟩)
  constructor
  case boot => exact h.boot
  case root =>
    intro j hj
    obtain ⟨r, hr, hlive, hrest⟩ := h.root j hj
    refine ⟨r, hr, hmem hlive ?_, hrest⟩
    rintro rfl
    exact hstays (.inl ⟨j, hj, hr⟩)
  case ids => exact h.ids
  case idLt => exact h.idLt
  case fsLt => exact fun m hm => h.fsLt m (hback hm)
  case obj =>
    intro m hm p hp
    refine (hobjs p (h.obj m (hback hm) p hp)).resolve_right fun hown => ?_
    exact Finset.ne_of_mem_erase hm (h.objInj m (hback hm) n hn p hp hown)
  case objInj => exact fun m hm k hk => h.objInj m (hback hm) k (hback hk)
  case priv =>
    intro j hj p hp
    obtain ⟨hlive, hne⟩ := h.priv j hj p hp
    exact ⟨(hobjs p hlive).resolve_right (hne n hn), fun m hm => hne m (hback hm)⟩
  case privInj => exact h.privInj
  case links =>
    intro j hj m hm
    obtain ⟨hc, hq⟩ := h.links j hj m (hm.frame (hback hm.live) rfl rfl)
    exact ⟨fun c hc' => hnode hj (hc c hc'), fun q hq' => hnode hj (hq q hq')⟩
  case refs =>
    intro t k m hm
    refine hmem (h.refs t k m hm) ?_
    rintro rfl
    exact hfds t k hm
  case solo => exact h.solo

theorem setFd_eq {t' : ℕ} {k' : Fin 32} :
    (s.setFd t k f).fds t' k' = if t' = t ∧ k' = k then f else s.fds t' k' := by
  by_cases ht : t' = t
  · subst ht
    simp [State.setFd, update_apply]
  · simp [State.setFd, ht]

/-- **Another descriptor**, of a vnode that stays or that no other one refers to. -/
theorem Inv.setFd (h : Inv s) (t : ℕ) (k : Fin 32) (hlive : ∀ n, f = some n → n ∈ s.vnodes)
    (hsolo : ∀ n, f = some n → Stays s n ∨ ∀ t k, s.fds t k ≠ some n) : Inv (s.setFd t k f) := by
  have hnode : ∀ {j m}, Node s j m → Node (s.setFd t k f) j m := fun hm => hm.frame hm.live rfl rfl
  refine { h with links := ?_, refs := ?_, solo := ?_ }
  · intro j hj m hm
    obtain ⟨hc, hq⟩ := h.links j hj m (hm.frame hm.live rfl rfl)
    exact ⟨fun c hc' => hnode (hc c hc'), fun q hq' => hnode (hq q hq')⟩
  · intro t1 k1 n hn
    rw [setFd_eq] at hn
    split at hn
    · exact hlive n hn
    · exact h.refs t1 k1 n hn
  · intro t1 k1 t2 k2 n hn hn'
    rw [setFd_eq] at hn hn'
    split at hn
    case isTrue h1 =>
      split at hn'
      case isTrue h2 => exact .inl ⟨h1.1.trans h2.1.symm, h1.2.trans h2.2.symm⟩
      case isFalse => exact .inr ((hsolo n hn).resolve_right fun hno => hno t2 k2 hn')
    case isFalse =>
      split at hn'
      case isTrue => exact .inr ((hsolo n hn').resolve_right fun hno => hno t1 k1 hn)
      case isFalse => exact h.solo t1 k1 t2 k2 n hn hn'

end Frame

/-! ### Lookups -/

/-- Only vnodes and objects were added. -/
structure Grown (s s' : State) : Prop where
  table : s'.table = s.table
  nmounts : s'.nmounts = s.nmounts
  fds : s'.fds = s.fds
  live : s.vnodes ⊆ s'.vnodes
  vnode : ∀ m ∈ s.vnodes, s'.vnode m = s.vnode m

section Lookup

variable {s s' : State} {w : World} {m : Mem} {i n : ℕ} {rel : List Char}

theorem Grown.refl (s : State) : Grown s s := ⟨rfl, rfl, rfl, fun _ hm => hm, fun _ _ => rfl⟩

theorem Grown.trans {s'' : State} (h : Grown s s') (h' : Grown s' s'') : Grown s s'' := by
  refine ⟨h'.table.trans h.table, h'.nmounts.trans h.nmounts, h'.fds.trans h.fds, ?_, ?_⟩
  · exact fun m hm => h'.live (h.live hm)
  · exact fun m hm => (h'.vnode m (h.live hm)).trans (h.vnode m hm)

theorem Grown.born (hn : n ∉ s.vnodes) (v : Vnode) (objs : Finset ℕ) :
    Grown s (s.born n v objs) := by
  refine ⟨rfl, rfl, rfl, fun m hm => Finset.mem_insert_of_mem hm, ?_⟩
  intro m hm
  exact s.born_vnode_of_ne v objs fun heq => hn (heq ▸ hm)

/-- The outcome of a lookup: it gives a new vnode, or one with the property `P`. -/
structure Outcome (s : State) (P : ℕ → Prop) (out : State × Option ℕ) : Prop where
  inv : Inv out.1
  grown : Grown s out.1
  given : ∀ n, out.2 = some n → P n ∨ n ∉ s.vnodes ∧ n ∈ out.1.vnodes

theorem Outcome.none (h : Inv s) (P : ℕ → Prop) : Outcome s P (s, .none) := ⟨h, .refl s, nofun⟩

theorem Outcome.some (h : Inv s) (hn : P n) : Outcome s P (s, .some n) :=
  ⟨h, .refl s, fun _ heq => .inl (some.inj heq ▸ hn)⟩

theorem Outcome.mono {Q : ℕ → Prop} (h : Outcome s P out) (hPQ : ∀ n, P n → Q n) :
    Outcome s Q out :=
  ⟨h.inv, h.grown, fun n hn => (h.given n hn).imp_left (hPQ n)⟩

theorem Outcome.made (h : Outcome s (fun _ => False) out) : Outcome s P out :=
  h.mono fun _ hfalse => hfalse.elim

theorem Outcome.after {dir : ℕ} (h : Outcome s' (· = dir) out)
    (hgrown : Grown s s') (hdir : dir ∉ s.vnodes ∧ dir ∈ s'.vnodes) (P : ℕ → Prop) :
    Outcome s P out := by
  refine ⟨h.inv, hgrown.trans h.grown, fun n hn => .inr ?_⟩
  obtain rfl | ⟨hfresh, hlive⟩ := h.given n hn
  · exact ⟨hdir.1, h.grown.live hdir.2⟩
  · exact ⟨fun hmem => hfresh (hgrown.live hmem), hlive⟩

section Outcomes

variable (h : Inv s) (hi : i < s.nmounts)
include h hi

/-- A new vnode of the mount. -/
theorem born_outcome (hn : n ∉ s.vnodes) (hsub : s.objs ⊆ objs) (name : List Char) (type : VType)
    {priv : Priv} (hptr : ∀ p, priv.ptr = some p → p ∉ s.objs ∧ p ∈ objs) :
    Outcome s (fun _ => False) (s.born n (s.blank i name type priv) objs, some n) := by
  refine ⟨h.born hn hsub hptr rfl rfl (h.idLt i hi), .born hn _ _, ?_⟩
  intro n' hn'
  cases hn'
  exact .inr ⟨hn, Finset.mem_insert_self ..⟩

theorem makeVnode_outcome (isDir : Bool) {priv : Priv} (hptr : priv.ptr = none) :
    Outcome s (fun _ => False) (makeVnode m i s isDir priv) := by
  unfold makeVnode
  split
  case h_1 => exact .none h _
  case h_2 n hpick =>
    refine born_outcome h hi ((m.vnode 0).fresh _ _ hpick) (Finset.Subset.refl _) _ _ ?_
    rw [hptr]
    exact nofun

theorem newNode_outcome (k : ℕ) (name : List Char) (type : VType) {priv : ℕ → Priv}
    (hptr : ∀ p, (priv p).ptr = some p) :
    Outcome s (fun _ => False) (newNode m i s k name type priv) := by
  unfold newNode
  split
  case h_1 => exact .none h _
  case h_2 n hpick =>
    split
    case h_1 => exact .none h _
    case h_2 p hobj =>
      refine born_outcome h hi ((m.vnode k).fresh _ _ hpick) (Finset.subset_insert p s.objs) _ _
        fun q hq => ?_
      obtain rfl := some.inj ((hptr p).symm.trans hq)
      exact ⟨(m.obj k).fresh _ _ hobj, Finset.mem_insert_self ..⟩

theorem procNew_outcome (k : ℕ) (kind : ProcKind) (pid : ℕ) (name : List Char) :
    Outcome s (fun _ => False) (procNew m i s k kind pid name) :=
  newNode_outcome h hi k name _ (fun _ => rfl)

end Outcomes

/-- **The walk of `proc_lookup`** gives a vnode it has made, or the one it started from. -/
theorem procWalk_outcome (comps : List (List Char)) {s : State} (k dir : ℕ) (base : ProcNode)
    (h : Inv s) (hi : i < s.nmounts) :
    Outcome s (· = dir) (procWalk w m i s k dir base comps) := by
  induction comps generalizing s k dir base with
  | nil => exact .some h rfl
  | cons seg rest ih =>
    have hmade : ∀ kind pid name, Outcome s (· = dir) (procNew m i s k kind pid name) :=
      fun kind pid name => (procNew_outcome h hi k kind pid name).made
    -- entering the directory of a process
    have henter : ∀ {pid s1 n}, procNew m i s k .pid pid (seg.take Vfs.maxName) = (s1, some n) →
        Outcome s (· = dir) (procWalk w m i s1 (k + 1) n ⟨.pid, pid⟩ rest) := by
      intro pid s1 n heq
      have hnew : Outcome s (fun _ => False) _ := heq ▸ procNew_outcome h hi k .pid pid _
      have hdir := (hnew.given n rfl).resolve_left id
      exact (ih (k + 1) n ⟨.pid, pid⟩ hnew.inv (hnew.grown.nmounts ▸ hi)).after hnew.grown hdir _
    unfold procWalk
    dsimp only
    split
    · split
      · split
        · exact .none h _
        split
        case h_1 heq => exact heq ▸ hmade _ _ _
        case h_2 heq => exact henter heq
      split
      · exact hmade _ _ _
      split
      · exact .none h _
      split
      · split
        case h_1 heq => exact heq ▸ hmade _ _ _
        case h_2 heq => exact henter heq
      · exact .none h _
    · split
      · exact hmade _ _ _
      split
      · exact hmade _ _ _
      · exact .none h _
    · exact .none h _

/-- **The walk of the ramfs** stays in the tree. -/
theorem ramfsWalk_node (h : Inv s) (hi : i < s.nmounts) (comps : List (List Char)) {cur : ℕ}
    (hcur : Node s i cur) (hw : ramfsWalk s cur comps = some n) : Node s i n := by
  induction comps generalizing cur with
  | nil =>
    cases hw
    exact hcur
  | cons seg rest ih =>
    obtain ⟨hchild, hparent⟩ := h.links i hi cur hcur
    unfold ramfsWalk at hw
    split at hw
    · exact ih hcur hw
    split at hw
    · refine ih ?_ hw
      cases hp : (s.vnode cur).parent with
      | none => exact hcur
      | some q => exact hparent q hp
    split at hw
    · cases hw
    split at hw
    case h_1 => cases hw
    case h_2 c hc => exact ih (hchild c (mem_of_find?_eq_some hc)) hw

theorem Inv.root_node (h : Inv s) (hi : i < s.nmounts) (hr : (s.table i).root = some r) :
    Node s i r := by
  obtain ⟨r', hr', hlive, hfs⟩ := h.root i hi
  cases hr.symm.trans hr'
  exact ⟨hlive, hfs, .inl hr⟩

theorem Node.stays (h : Node s i n) (hi : i < s.nmounts) : n ∈ s.vnodes ∧ Stays s n :=
  ⟨h.live, h.place.imp_left fun hroot => ⟨i, hi, hroot⟩⟩

/-- **Looking up** below a mount gives a new vnode, or one that stays. -/
theorem lookupIn_spec (h : Inv s) (hi : i < s.nmounts) (w : World) (m : Mem) (rel : List Char) :
    Outcome s (fun n => n ∈ s.vnodes ∧ Stays s n) (lookupIn s w m i rel) := by
  unfold lookupIn
  split
  case h_1 => exact .none h _
  case h_2 r hr =>
    have hnode := h.root_node hi hr
    split
    · exact .some h (hnode.stays hi)
    unfold fsLookup
    split
    case h_1 =>
      cases hw : ramfsWalk s r (components rel) with
      | none => exact .none h _
      | some n => exact .some h ((ramfsWalk_node h hi _ hnode hw).stays hi)
    case h_2 | h_3 =>
      first | unfold fat32Lookup | unfold axfsLookup
      split
      · split
        · exact .none h _
        · exact (makeVnode_outcome h hi _ rfl).made
      · exact .none h _
    case h_4 =>
      unfold procLookup
      split
      · refine (procWalk_outcome _ 0 r _ h hi).mono ?_
        rintro n rfl
        exact hnode.stays hi
      · exact .none h _
    case h_5 =>
      unfold devLookup
      split
      · exact .some h (hnode.stays hi)
      · split
        · exact .none h _
        · exact (newNode_outcome h hi 0 _ _ (fun _ => rfl)).made
      · exact .none h _

theorem mountFind_lt {abs : List Char} (h : mountFind s abs = some i) : i < s.nmounts := by
  refine foldlRecOn (motive := fun best : Option ℕ × ℕ => ∀ j, best.1 = some j → j < s.nmounts)
    (range s.nmounts) _ (fun j hj => by cases hj) ?_ i h
  intro best hbest a ha j hj
  split at hj
  · exact some.inj hj ▸ mem_range.mp ha
  · exact hbest j hj

theorem vfsLookup_spec (h : Inv s) (w : World) (m : Mem) (path cwd : List Char) :
    Inv (vfsLookup s w m path cwd).1 ∧ (vfsLookup s w m path cwd).1.fds = s.fds ∧
      ∀ n, (vfsLookup s w m path cwd).2 = some n → n ∈ (vfsLookup s w m path cwd).1.vnodes ∧
        (Stays (vfsLookup s w m path cwd).1 n ∨ n ∉ s.vnodes) := by
  unfold vfsLookup
  dsimp only
  split
  case h_1 => exact ⟨h, rfl, nofun⟩
  case h_2 i hfind =>
    have hout := lookupIn_spec h (mountFind_lt hfind) w m (relative s i (absolutize path cwd))
    split
    case h_1 s1 heq =>
      rw [heq] at hout
      exact ⟨hout.inv, hout.grown.fds, nofun⟩
    case h_2 s1 n heq =>
      rw [heq] at hout
      have hcore : ∀ v : Vnode, v.ref.core = v.core := fun _ => rfl
      refine ⟨hout.inv.modifyVnode n hcore, hout.grown.fds, ?_⟩
      intro n' hres
      cases hres
      obtain ⟨hlive, hstays⟩ | ⟨hfresh, hlive⟩ := hout.given n rfl
      · refine ⟨hout.grown.live hlive, .inl (hstays.frame ?_ hout.grown.table hout.grown.nmounts)⟩
        show (update s1.vnode n _ n).core = _
        rw [update_self, hcore, hout.grown.vnode n hlive]
      · exact ⟨hlive, .inr hfresh⟩

end Lookup

/-! ### Releasing -/

/-- The `inode_free` of the superblock that the vnode names frees it. -/
def frees (s : State) (n : ℕ) : Bool :=
  match (s.vnode n).sb with
  | none => false
  | some sb =>
    match (s.table sb).fsType with
    | .ramfs => false
    | .fat32 | .axiomefs => decide ((s.table sb).root ≠ some n)
    | .proc | .dev => true

/-- The vnode is the cached root of a mount, and giving it up frees it: the reference is the last
one, and the superblock that the vnode names does not keep it. -/
def LastOfRoot (s : State) (n : ℕ) : Prop :=
  IsRoot s n ∧ (s.vnode n).refcount ≤ 1 ∧ frees s n = true

/-- The condition on a call: it does not give up the last reference to a cached root that its
superblock does not keep. -/
def AccessSafe (s : State) : Access → Prop
  | .release t k => ∀ n, s.fds t k = some n → ¬ LastOfRoot s n
  | _ => True

section Release

variable {s : State} {i n : ℕ}

theorem unref_core (v : Vnode) : v.unref.core = v.core := rfl

theorem vfsRelease_kept (h : ¬ ((s.vnode n).refcount ≤ 1 ∧ frees s n = true)) :
    vfsRelease s n = s.modifyVnode n Vnode.unref := by
  have hself : (s.modifyVnode n Vnode.unref).vnode n = (s.vnode n).unref := update_self ..
  unfold vfsRelease
  dsimp only
  rw [hself]
  split
  · rfl
  case h_2 sb hsb =>
    split
    case isFalse => rfl
    case isTrue hzero =>
      have hno : ¬ frees s n = true := fun hf => h ⟨Nat.sub_eq_zero_iff_le.mp hzero, hf⟩
      unfold frees at hno
      rw [show (s.vnode n).sb = some sb from hsb] at hno
      dsimp only at hno
      unfold inodeFree
      rw [show (s.modifyVnode n Vnode.unref).table = s.table from rfl]
      cases htype : (s.table sb).fsType <;> rw [htype] at hno <;> simp_all

theorem vfsRelease_freed (h : (s.vnode n).refcount ≤ 1 ∧ frees s n = true) :
    ∃ objs, (∀ p ∈ s.objs, p ∈ objs ∨ (s.vnode n).priv.ptr = some p) ∧
      vfsRelease s n = (s.modifyVnode n Vnode.unref).dead n objs := by
  have hself : (s.modifyVnode n Vnode.unref).vnode n = (s.vnode n).unref := update_self ..
  obtain ⟨hcount, hfrees⟩ := h
  unfold frees at hfrees
  unfold vfsRelease
  dsimp only
  rw [hself, show (s.vnode n).unref.sb = (s.vnode n).sb from rfl]
  split
  case h_1 hsb =>
    rw [hsb] at hfrees
    cases hfrees
  case h_2 sb hsb =>
    rw [hsb] at hfrees
    dsimp only at hfrees
    rw [if_pos (show (s.vnode n).unref.refcount = 0 from Nat.sub_eq_zero_of_le hcount)]
    unfold inodeFree
    rw [show (s.modifyVnode n Vnode.unref).table = s.table from rfl]
    -- the private object of the vnode, which goes with it in a procfs or devfs
    have hptr : ∃ objs, (∀ p ∈ s.objs, p ∈ objs ∨ (s.vnode n).priv.ptr = some p) ∧
        ((s.modifyVnode n Vnode.unref).freeObj
          ((s.modifyVnode n Vnode.unref).vnode n).priv.ptr).freeVnode n =
            (s.modifyVnode n Vnode.unref).dead n objs := by
      rw [hself, show (s.vnode n).unref.priv = (s.vnode n).priv from rfl]
      cases (s.vnode n).priv.ptr with
      | none => exact ⟨s.objs, fun p hp => .inl hp, rfl⟩
      | some q =>
        refine ⟨s.objs.erase q, fun p hp => ?_, rfl⟩
        by_cases hpq : p = q
        · exact .inr (congrArg some hpq.symm)
        · exact .inl (Finset.mem_erase_of_ne_of_mem hpq hp)
    cases htype : (s.table sb).fsType <;> rw [htype] at hfrees
    case ramfs => cases hfrees
    case fat32 | axiomefs =>
      dsimp only at hfrees ⊢
      rw [if_neg (of_decide_eq_true hfrees)]
      exact ⟨s.objs, fun p hp => .inl hp, rfl⟩
    case proc | dev => exact hptr

/-- **Releasing a vnode** keeps the invariant, if it is not a root that is freed with its last
reference, and if no other descriptor refers to it that would lose it. -/
theorem Inv.release (h : Inv s) (hlive : n ∈ s.vnodes) (hsafe : ¬ LastOfRoot s n)
    (hsolo : Stays s n ∨ ∀ t k, s.fds t k ≠ some n) : Inv (vfsRelease s n) := by
  have h1 : Inv (s.modifyVnode n Vnode.unref) := h.modifyVnode n unref_core
  by_cases hfreed : (s.vnode n).refcount ≤ 1 ∧ frees s n = true
  · obtain ⟨objs, hobjs, heq⟩ := vfsRelease_freed hfreed
    have hself : (s.modifyVnode n Vnode.unref).vnode n = (s.vnode n).unref := update_self ..
    have hstays : ¬ Stays s n := by
      rintro (hroot | hsb)
      · exact hsafe ⟨hroot, hfreed⟩
      · have hfrees := hfreed.2
        rw [frees, hsb] at hfrees
        dsimp only at hfrees
        rw [h.boot.2] at hfrees
        cases hfrees
    rw [heq]
    refine h1.dead hlive (by rw [hself]; exact hobjs) (fun hcon => hstays ?_)
      (hsolo.resolve_left hstays)
    exact hcon.frame (by rw [hself]; rfl) rfl rfl
  · rw [vfsRelease_kept hfreed]
    exact h1

/-- **A call under the condition** keeps the invariant. -/
theorem Inv.access (h : Inv s) (a : Access) (hsafe : AccessSafe s a) : Inv (Mounts.access s a) := by
  cases a with
  | lookup t k path cwd w m =>
    unfold Mounts.access
    dsimp only
    split
    · exact h
    obtain ⟨hinv, hfds, hlooked⟩ := vfsLookup_spec h w m path cwd
    split
    case h_1 s1 heq =>
      rw [heq] at hinv
      exact hinv
    case h_2 s1 n heq =>
      rw [heq] at hinv hfds hlooked
      obtain ⟨hlive, hfresh⟩ := hlooked n rfl
      refine hinv.setFd t k ?_ ?_
      · rintro _ ⟨⟩
        exact hlive
      · rintro _ ⟨⟩
        refine hfresh.imp_right fun hnew t' k' hn => hnew (h.refs t' k' n ?_)
        rw [← show s1.fds = s.fds from hfds]
        exact hn
  | list path cwd w m => exact (vfsLookup_spec h w m path cwd).1
  | release t k =>
    unfold Mounts.access
    dsimp only
    split
    case h_1 => exact h
    case h_2 n hn =>
      have h1 : Inv (s.setFd t k none) := h.setFd t k nofun nofun
      refine h1.release (h.refs t k n hn) (hsafe n hn) ?_
      by_cases hstays : Stays s n
      · exact .inl hstays
      · refine .inr fun t' k' hn' => ?_
        rw [setFd_eq] at hn'
        split at hn'
        · cases hn'
        case isFalse hslot =>
          obtain hsame | hst := h.solo t k t' k' n hn hn'
          · exact hslot ⟨hsame.1.symm, hsame.2.symm⟩
          · exact hstays hst

/-! ### The roots -/

/-- The cached root of each mount, its private object and the private state of the mount are
allocated. -/
def Rooted (s : State) : Prop :=
  ∀ i < s.nmounts, ∃ r, (s.table i).root = some r ∧ r ∈ s.vnodes ∧
    (∀ p, (s.vnode r).priv.ptr = some p → p ∈ s.objs) ∧
    ∀ p, (s.table i).priv = some p → p ∈ s.objs

theorem Inv.rooted (h : Inv s) : Rooted s := by
  intro i hi
  obtain ⟨r, hr, hlive, -⟩ := h.root i hi
  exact ⟨r, hr, hlive, h.obj r hlive, fun p hp => (h.priv i hi p hp).1⟩

/-- Giving up the last reference frees a root that its superblock does not keep. -/
theorem not_rooted_of_last (hn : s.fds t k = some n) (hlast : LastOfRoot s n) :
    ¬ Rooted (access s (.release t k)) := by
  obtain ⟨⟨i, hi, hr⟩, hfreed⟩ := hlast
  obtain ⟨objs, -, heq⟩ := vfsRelease_freed (s := s.setFd t k none) hfreed
  have hrelease : access s (.release t k) = vfsRelease (s.setFd t k none) n := by
    unfold access
    dsimp only
    rw [hn]
  rw [hrelease, heq]
  intro hrooted
  obtain ⟨r, hr', hlive, -⟩ := hrooted i hi
  cases hr.symm.trans hr'
  exact Finset.notMem_erase _ _ hlive

end Release

/-! ### Mounting -/

section Mount

variable {s : State} {r : ℕ} {v : Vnode} {objs : Finset ℕ} {mp : List Char} {type : FsType}
  {priv : Option ℕ}

/-- **A new mount**, with a new root and new private objects. -/
theorem Inv.enter (h : Inv s) (hr : r ∉ s.vnodes) (hsub : s.objs ⊆ objs)
    (hfs : v.fs = s.nextId) (hchildren : v.children = []) (hparent : v.parent = none)
    (hptr : ∀ p, v.priv.ptr = some p → p ∉ s.objs ∧ p ∈ objs)
    (hpriv : ∀ p, priv = some p → p ∉ s.objs ∧ p ∈ objs ∧ v.priv.ptr ≠ some p) :
    Inv ((s.born r v objs).enter mp type priv (some r)) := by
  have hnew : ((s.born r v objs).enter mp type priv (some r)).table s.nmounts =
      ⟨mp.take Vfs.maxName, type, priv, some r, s.nextId⟩ := update_self ..
  have hself : ((s.born r v objs).enter mp type priv (some r)).vnode r = v :=
    s.born_vnode_self r v objs
  refine h.adds (r := r) ⟨Nat.le_succ _, Nat.le_succ _, hsub, rfl, Finset.subset_insert r _, ?_, ?_,
    fun i hi => update_of_ne (Nat.ne_of_lt hi) .., ?_⟩
  · intro m hm
    exact congrArg Vnode.core (s.born_vnode_of_ne v objs fun heq => hr (heq ▸ hm))
  · intro m hm
    refine (Finset.mem_insert.mp hm).symm.imp_right ?_
    rintro rfl
    rw [hself]
    exact ⟨rfl, hchildren, hparent, hfs.trans_lt (Nat.lt_succ_self _), hptr⟩
  · intro i hi
    refine (Nat.lt_succ_iff_lt_or_eq.mp hi).imp_right fun hi => ?_
    rw [hself, show i = s.nmounts from hi, hnew]
    refine ⟨rfl, ⟨rfl, Nat.lt_succ_self _⟩, ⟨r, rfl, Finset.mem_insert_self .., ?_⟩, hpriv⟩
    rw [hself]
    exact hfs

theorem Inv.mountRamfs (h : Inv s) (mp : List Char) (m : Mem) : Inv (vfsMountRamfs s mp m) := by
  unfold vfsMountRamfs
  split
  · exact h
  split
  case h_1 => exact h
  case h_2 r hpick =>
    split
    · exact h
    · exact Inv.enter (s := s) h ((m.vnode 0).fresh _ _ hpick) (Finset.Subset.refl _) rfl rfl rfl
        nofun nofun

theorem Inv.mountVirtual (h : Inv s) (mp : List Char) {priv : ℕ → Priv} (m : Mem)
    (hptr : ∀ p, (priv p).ptr = some p) :
    Inv (mountVirtual s mp type priv m) := by
  unfold Mounts.mountVirtual
  split
  case h_1 r p hpick hobj =>
    split
    · exact h
    · have hp : p ∉ s.objs := (m.obj 0).fresh _ _ hobj
      have hnew : ∀ q, (priv p).ptr = some q → q ∉ s.objs ∧ q ∈ insert p s.objs := by
        intro q hq
        obtain rfl := some.inj ((hptr p).symm.trans hq)
        exact ⟨hp, Finset.mem_insert_self ..⟩
      exact Inv.enter (s := s) h ((m.vnode 0).fresh _ _ hpick) (Finset.subset_insert p s.objs)
        rfl rfl rfl hnew nofun
  case h_2 => exact h

theorem Inv.procfsInit (h : Inv s) (m : Mem) : Inv (procfsInit s m) :=
  h.mountVirtual _ m fun _ => rfl

theorem Inv.devfsInit (h : Inv s) (m : Mem) : Inv (devfsInit s m) :=
  h.mountVirtual _ m fun _ => rfl

/-- A volume is mounted as a whole if there is memory for its root. -/
theorem Inv.mountVolume (h : Inv s) (mp : List Char) (m : Mem)
    (hfs : v.fs = s.nextId) (hchildren : v.children = []) (hparent : v.parent = none)
    (hptr : v.priv.ptr = none)
    (hroot : ((m.obj 0).pick s.objs).isSome → s.nmounts < maxMounts →
      ((m.vnode 0).pick s.vnodes).isSome) : Inv (mountVolume s mp type v m) := by
  unfold Mounts.mountVolume
  split
  case h_1 => exact h
  case h_2 st hst =>
    split
    · exact h
    case isFalse hroom =>
      have hsome := hroot (by rw [hst]; rfl) (Nat.lt_of_not_le hroom)
      split
      case h_1 hnone =>
        rw [hnone] at hsome
        cases hsome
      case h_2 r hpick =>
        have hst' : st ∉ s.objs := (m.obj 0).fresh _ _ hst
        have hnew : ∀ p, v.priv.ptr = some p → p ∉ s.objs ∧ p ∈ insert st s.objs := by
          rw [hptr]
          exact nofun
        have hpriv : ∀ p, some st = some p → p ∉ s.objs ∧ p ∈ insert st s.objs ∧
            v.priv.ptr ≠ some p := by
          intro p hp
          cases hp
          refine ⟨hst', Finset.mem_insert_self .., ?_⟩
          rw [hptr]
          exact nofun
        exact Inv.enter (s := s) h ((m.vnode 0).fresh _ _ hpick) (Finset.subset_insert st s.objs)
          hfs hchildren hparent hnew hpriv

end Mount

/-! ### Unmounting -/

section Umount

variable {s : State} {i n : ℕ}

/-- Of the vnodes only some of the mount were freed, and of the objects only its private one. -/
structure Cut (s s' : State) (i : ℕ) : Prop where
  rest : s' = { s with vnodes := s'.vnodes, objs := s'.objs }
  sub : s'.vnodes ⊆ s.vnodes
  keep : ∀ n ∈ s.vnodes, (s.vnode n).fs ≠ (s.table i).id → n ∈ s'.vnodes
  objs : ∀ p ∈ s.objs, p ∈ s'.objs ∨ (s.table i).priv = some p

theorem Cut.refl (s : State) (i : ℕ) : Cut s s i :=
  ⟨rfl, Finset.Subset.refl _, fun _ hn _ => hn, fun _ hp => .inl hp⟩

theorem Cut.freeVnode {s' : State} (h : Cut s s' i) (hn : (s.vnode n).fs = (s.table i).id) :
    Cut s (s'.freeVnode n) i := by
  refine ⟨?_, fun m hm => h.sub (Finset.mem_of_mem_erase hm), fun m hm hne => ?_, h.objs⟩
  · rw [State.freeVnode, h.rest]
  · refine Finset.mem_erase_of_ne_of_mem ?_ (h.keep m hm hne)
    rintro rfl
    exact hne hn

/-- **The tree of a mount** is freed without touching the vnodes of the others. -/
theorem ramfsDestroy_cut (h : Inv s) (hi : i < s.nmounts) (depth : ℕ) :
    ∀ {s' : State}, Cut s s' i → ∀ {n}, Node s i n → Cut s (ramfsDestroy depth s' n) i := by
  induction depth with
  | zero => exact fun hcut _ _ => hcut
  | succ depth ih =>
    intro s' hcut n hn
    have hchildren := (h.links i hi n hn).1
    have hloop : ∀ cs : List ℕ, (∀ c ∈ cs, Node s i c) → ∀ {s' : State}, Cut s s' i →
        Cut s (cs.foldl (ramfsDestroy depth) s') i := by
      intro cs
      induction cs with
      | nil => exact fun _ _ hcut => hcut
      | cons c cs ihcs =>
        exact fun hcs _ hcut => ihcs (fun c' hc' => hcs c' (mem_cons_of_mem c hc'))
          (ih hcut (hcs c mem_cons_self))
    unfold ramfsDestroy
    rw [hcut.rest]
    exact (hloop _ hchildren (hcut.rest ▸ hcut)).freeVnode hn.fs

theorem destroy_cut (h : Inv s) (hi : i < s.nmounts) : Cut s (destroy s i) i := by
  have hobj : Cut s (s.freeObj (s.table i).priv) i := by
    cases hp : (s.table i).priv with
    | none => exact .refl s i
    | some p =>
      refine ⟨rfl, Finset.Subset.refl _, fun _ hn _ => hn, fun q hq => ?_⟩
      by_cases hqp : q = p
      · exact .inr (hp.trans (congrArg some hqp.symm))
      · exact .inl (Finset.mem_erase_of_ne_of_mem hqp hq)
  unfold destroy
  split
  case h_1 r _ hr => exact ramfsDestroy_cut h hi _ (.refl s i) (h.root_node hi hr)
  case h_2 r _ hr => exact hobj.freeVnode (h.root_node hi hr).fs
  case h_3 => exact hobj
  case h_4 => exact .refl s i

/-- Where the mount in the place `j` stood before the gap was closed. -/
def shift (i j : ℕ) : ℕ := if j < i then j else j + 1

theorem compact_table (s : State) {j : ℕ} (hj : j < s.nmounts - 1) :
    (s.compact i).table j = s.table (shift i j) := by
  unfold State.compact shift
  dsimp only
  by_cases hij : j < i
  · rw [if_neg (by omega), if_pos hij]
  · rw [if_pos (by omega), if_neg hij]

/-- **Unmounting** keeps the invariant if no descriptor refers into the mount. -/
theorem Inv.umount (h : Inv s) (t : ℕ) (mp : List Char)
    (hfds : ∀ i, umountFind s mp = some i → ∀ t k n, s.fds t k = some n →
      (s.vnode n).fs ≠ (s.table i).id) : Inv (vfsUmount s t mp) := by
  unfold vfsUmount
  split
  case h_1 => exact h
  case h_2 i hfind =>
    split
    · exact h
    case isFalse hok =>
      have hi : i < s.nmounts := mem_range.mp (mem_of_find?_eq_some hfind)
      have hpos : i ≠ 0 := fun hzero => hok (.inl hzero)
      have hrefs := hfds i hfind
      have hcut := destroy_cut h hi
      have hobjs := hcut.objs
      have hkeep := hcut.keep
      have hsub := hcut.sub
      rw [hcut.rest]
      generalize (destroy s i).vnodes = V at hsub hkeep ⊢
      generalize (destroy s i).objs = O at hobjs ⊢
      have hold : ∀ {j}, j < s.nmounts - 1 → shift i j < s.nmounts ∧ shift i j ≠ i := by
        intro j hj
        unfold shift
        split <;> omega
      have htable : ∀ {j}, j < s.nmounts - 1 →
          (State.compact { s with vnodes := V, objs := O } i).table j = s.table (shift i j) :=
        fun hj => compact_table _ hj
      have hapart : ∀ {j}, j < s.nmounts - 1 → (s.table (shift i j)).id ≠ (s.table i).id :=
        fun hj heq => (hold hj).2 (h.ids _ (hold hj).1 i hi heq)
      have hshift : ∀ {j k}, shift i j = shift i k → j = k := by
        intro j k heq
        unfold shift at heq
        split at heq <;> split at heq <;> omega
      have hnode : ∀ {j m}, j < s.nmounts - 1 → Node s (shift i j) m →
          Node (State.compact { s with vnodes := V, objs := O } i) j m := fun hj hm =>
        hm.frame (hkeep _ hm.live (by rw [hm.fs]; exact hapart hj)) rfl (htable hj)
      constructor
      case boot =>
        refine ⟨show 0 < s.nmounts - 1 by omega, ?_⟩
        rw [show gRamfsSb = 0 from rfl, htable (show 0 < s.nmounts - 1 by omega), shift,
          if_pos (by omega)]
        exact h.boot.2
      case root =>
        intro j hj
        obtain ⟨r, hr, hlive, hfs⟩ := h.root _ (hold hj).1
        rw [htable hj]
        exact ⟨r, hr, hkeep r hlive (by rw [hfs]; exact hapart hj), hfs⟩
      case ids =>
        intro j hj k hk heq
        rw [htable hj, htable hk] at heq
        exact hshift (h.ids _ (hold hj).1 _ (hold hk).1 heq)
      case idLt =>
        intro j hj
        rw [htable hj]
        exact h.idLt _ (hold hj).1
      case fsLt => exact fun m hm => h.fsLt m (hsub hm)
      case obj =>
        intro m hm p hp
        refine (hobjs p (h.obj m (hsub hm) p hp)).resolve_right fun hpriv => ?_
        exact (h.priv i hi p hpriv).2 m (hsub hm) hp
      case objInj => exact fun m hm k hk => h.objInj m (hsub hm) k (hsub hk)
      case priv =>
        intro j hj p hp
        rw [htable hj] at hp
        obtain ⟨hmem, hne⟩ := h.priv _ (hold hj).1 p hp
        refine ⟨(hobjs p hmem).resolve_right fun hpriv => ?_, fun m hm => hne m (hsub hm)⟩
        exact (hold hj).2 (h.privInj _ (hold hj).1 i hi p hp hpriv)
      case privInj =>
        intro j hj k hk p hp hp'
        rw [htable hj] at hp
        rw [htable hk] at hp'
        exact hshift (h.privInj _ (hold hj).1 _ (hold hk).1 p hp hp')
      case links =>
        intro j hj m hm
        obtain ⟨hc, hq⟩ := h.links _ (hold hj).1 m (hm.frame (hsub hm.live) rfl (htable hj).symm)
        exact ⟨fun c hc' => hnode hj (hc c hc'), fun q hq' => hnode hj (hq q hq')⟩
      case refs => exact fun t k n hn => hkeep n (h.refs t k n hn) (hrefs t k n hn)
      case solo =>
        intro t k t' k' n hn hn'
        refine (h.solo t k t' k' n hn hn').imp_right (Or.imp_left ?_)
        rintro ⟨j, hj, hr⟩
        -- the root of another mount, which has moved
        have hne : j ≠ i := by
          rintro rfl
          exact hrefs t k n hn (h.root_node hj hr).fs
        have hplace : ∃ j' < s.nmounts - 1, shift i j' = j := by
          by_cases hji : j < i
          · exact ⟨j, by omega, if_pos hji⟩
          · exact ⟨j - 1, by omega, by rw [shift, if_neg (by omega)]; omega⟩
        obtain ⟨j', hj', rfl⟩ := hplace
        exact ⟨j', hj', by rw [htable hj']; exact hr⟩

end Umount

/-! ### The system -/

/-- **The roots stay** exactly as long as no call gives up the last reference to one that its
superblock does not keep. -/
theorem roots_stay_iff {s : State} (h : Inv s) (calls : List Access) :
    (∀ pre, pre <+: calls → Rooted (pre.foldl access s)) ↔
      ∀ pre a, pre ++ [a] <+: calls → AccessSafe (pre.foldl access s) a := by
  refine Runs.foldl_property_iff (fun s hs => hs.rooted) ?_ (fun s a hs hsafe => hs.access a hsafe)
    h calls
  intro s a hs hrooted
  cases a with
  | lookup => trivial
  | list => trivial
  | release t k => exact fun n hn hlast => not_rooted_of_last hn hlast hrooted

/-- The table after `vfs_init`: the ramfs at `/`, with an empty root. -/
def boot : State where
  vnodes := {0}
  vnode := fun _ => ⟨['/'], .dir, some 0, .null, 0, [], none, 0⟩
  objs := ∅
  table := fun _ => ⟨['/'], .ramfs, none, some 0, 0⟩
  nmounts := 1
  fds := fun _ _ => none
  nextId := 1

theorem inv_boot : Inv boot where
  boot := ⟨Nat.one_pos, rfl⟩
  root i hi := by
    obtain rfl : i = 0 := Nat.lt_one_iff.mp hi
    exact ⟨0, rfl, Finset.mem_singleton_self 0, rfl⟩
  ids i hi j hj _ := by
    rw [Nat.lt_one_iff.mp hi, Nat.lt_one_iff.mp hj]
  idLt _ _ := Nat.one_pos
  fsLt _ _ := Nat.one_pos
  obj _ _ _ hp := by cases hp
  objInj _ _ _ _ _ hp := by cases hp
  priv _ _ _ hp := by cases hp
  privInj _ _ _ _ _ hp := by cases hp
  links _ _ _ _ := ⟨nofun, nofun⟩
  refs _ _ _ hf := by cases hf
  solo _ _ _ _ _ hf := by cases hf

/-- An allocator that always has memory. -/
def plenty : Mem := ⟨fun _ => .above, fun _ => .above⟩

/-- A machine without threads, devices and disks. -/
def quiet : World := ⟨fun _ => false, none, fun _ => none, fun _ _ _ => none, fun _ _ _ => none,
  fun _ _ => false⟩

/-- `/boot` -/
def bootPath : List Char := ['/', 'b', 'o', 'o', 't']

/-- The table after the boot: ramfs, procfs, devfs, and a FAT32 and an axiomefs volume. -/
def booted : State :=
  axiomefsMountPart (fat32TryMount (devfsInit (procfsInit boot plenty) plenty) bootPath 2 plenty)
    ['/'] 5 true plenty

theorem Inv.fat32TryMount {s : State} (h : Inv s) (mp : List Char) (rootClus : ℕ) (m : Mem)
    (hroot : ((m.obj 0).pick s.objs).isSome → s.nmounts < maxMounts →
      ((m.vnode 0).pick s.vnodes).isSome) : Inv (fat32TryMount s mp rootClus m) :=
  h.mountVolume mp m rfl rfl rfl rfl hroot

theorem Inv.axiomefsMountPart {s : State} (h : Inv s) (mp : List Char) (rootInode : ℕ)
    (isDir : Bool) (m : Mem) (hroot : ((m.obj 0).pick s.objs).isSome → s.nmounts < maxMounts →
      ((m.vnode 0).pick s.vnodes).isSome) : Inv (axiomefsMountPart s mp rootInode isDir m) :=
  h.mountVolume mp m rfl rfl rfl rfl hroot

theorem inv_booted : Inv booted :=
  (((inv_boot.procfsInit plenty).devfsInit plenty).fat32TryMount _ _ plenty
    fun _ _ => rfl).axiomefsMountPart _ _ _ plenty fun _ _ => rfl

/-- The table after the procfs was unmounted: the root of the FAT32 volume names the superblock that
is now that of the axiomefs volume. -/
def unmounted : State := vfsUmount booted 1 processPath

theorem inv_unmounted : Inv unmounted :=
  inv_booted.umount 1 processPath fun _ _ _ _ _ hn => nomatch hn

/-- Looking up `/boot` twice and giving back one of the two references. -/
def lookedTwice : List Access :=
  [.lookup 1 0 bootPath ['/'] quiet plenty, .lookup 1 1 bootPath ['/'] quiet plenty, .release 1 0]

theorem roots_stay_iff_unmounted : Rooted (lookedTwice.foldl access unmounted) := by
  refine (roots_stay_iff inv_unmounted lookedTwice).mpr ?_ lookedTwice (prefix_refl _)
  have hfd : ((lookedTwice.take 2).foldl access unmounted).fds 1 0 = some 3 := by decide +kernel
  have hcount : (((lookedTwice.take 2).foldl access unmounted).vnode 3).refcount = 2 := by
    decide +kernel
  refine Runs.forall_snoc_prefix_cons.mpr ⟨trivial, Runs.forall_snoc_prefix_cons.mpr ⟨trivial,
    Runs.forall_snoc_prefix_cons.mpr ⟨?_, ?_⟩⟩⟩
  · intro n hn
    cases hfd.symm.trans hn
    rintro ⟨-, hle, -⟩
    have hle' : (((lookedTwice.take 2).foldl access unmounted).vnode 3).refcount ≤ 1 := hle
    rw [hcount] at hle'
    omega
  · intro pre a hpre
    exact absurd (prefix_nil.mp hpre) (by simp)

/-- **The root of the procfs is freed** when a process looks it up and gives it back. -/
theorem proc_root_freed :
    Rooted booted ∧ ¬ Rooted ([Access.lookup 1 0 processPath ['/'] quiet plenty,
      .release 1 0].foldl access booted) := by
  refine ⟨inv_booted.rooted, fun hrooted => ?_⟩
  obtain ⟨r, hr, hlive, -⟩ := hrooted 1 (by decide +kernel)
  have hroot : (([Access.lookup 1 0 processPath ['/'] quiet plenty,
      .release 1 0].foldl access booted).table 1).root = some 1 := by decide +kernel
  cases hroot.symm.trans hr
  exact absurd hlive (by decide +kernel)

/-! ### The mount of a path -/

/-- The mount point is a prefix of the path that ends where a component ends. -/
def WholePrefix (mountpoint abs : List Char) : Prop :=
  mountpoint <+: abs ∧ (mountpoint = abs ∨ mountpoint.getLast? = some '/' ∨
    (abs.drop mountpoint.length).head? = some '/')

theorem mountMatches_iff {mountpoint : List Char} (h : mountpoint.head? = some '/')
    (abs : List Char) : mountMatches abs mountpoint = true ↔ WholePrefix mountpoint abs := by
  have hone : mountpoint.length = 1 → mountpoint.getLast? = some '/' := by
    intro hlen
    obtain ⟨c, rfl⟩ := length_eq_one_iff.mp hlen
    exact h
  have hself : mountpoint = abs → mountpoint <+: abs := fun heq => heq ▸ prefix_refl _
  simp only [mountMatches, WholePrefix, Bool.or_eq_true, Bool.and_eq_true, decide_eq_true_eq,
    isPrefixOf_iff_prefix, eq_comm (a := abs)]
  tauto

section MountOf

variable (s : State) (abs : List Char)

/-- Of the first `n` mounts, `i` is the one for the path: the longest of those on the way to it, and
the last of these. -/
structure MountOf (n i : ℕ) : Prop where
  lt : i < n
  onWay : WholePrefix (s.table i).mountpoint abs
  best : ∀ j < n, WholePrefix (s.table j).mountpoint abs →
    (s.table j).mountpoint.length < (s.table i).mountpoint.length ∨
      (s.table j).mountpoint.length = (s.table i).mountpoint.length ∧ j ≤ i

/-- What `best` and `bestlen` hold after `n` rounds of the loop of `mount_find`. -/
def Best (n : ℕ) : Option ℕ × ℕ → Prop
  | (none, len) => len = 0 ∧ ∀ i < n, ¬ WholePrefix (s.table i).mountpoint abs
  | (some i, len) => len = (s.table i).mountpoint.length ∧ MountOf s abs n i

variable {s abs} {n i j : ℕ}

theorem MountOf.unique (hi : MountOf s abs n i) (hj : MountOf s abs n j) : i = j := by
  have hij := hi.best j hj.lt hj.onWay
  have hji := hj.best i hi.lt hi.onWay
  omega

/-- **One round.** -/
theorem Best.step {best : Option ℕ × ℕ} (h : Best s abs n best)
    (hslash : (s.table n).mountpoint.head? = some '/') :
    Best s abs (n + 1)
      (if mountMatches abs (s.table n).mountpoint ∧ best.2 ≤ (s.table n).mountpoint.length then
        (some n, (s.table n).mountpoint.length)
      else best) := by
  have hiff := mountMatches_iff hslash abs
  obtain ⟨_ | i, len⟩ := best
  · obtain ⟨rfl, hnone⟩ := h
    split
    case isTrue hn =>
      refine ⟨rfl, Nat.lt_succ_self n, hiff.mp hn.1, fun j hj hmatch => .inr ?_⟩
      obtain rfl : j = n := by
        by_contra hne
        exact hnone j (by omega) hmatch
      exact ⟨rfl, Nat.le_refl _⟩
    case isFalse hn =>
      refine ⟨rfl, fun j hj hmatch => ?_⟩
      obtain rfl | hlt := Nat.eq_or_lt_of_le (Nat.le_of_lt_succ hj)
      · exact hn ⟨hiff.mpr hmatch, Nat.zero_le _⟩
      · exact hnone j hlt hmatch
  · obtain ⟨rfl, hi⟩ := h
    split
    case isTrue hn =>
      refine ⟨rfl, Nat.lt_succ_self n, hiff.mp hn.1, fun j hj hmatch => ?_⟩
      obtain rfl | hlt := Nat.eq_or_lt_of_le (Nat.le_of_lt_succ hj)
      · exact .inr ⟨rfl, Nat.le_refl _⟩
      · have hbest := hi.best j hlt hmatch
        omega
    case isFalse hn =>
      refine ⟨rfl, Nat.lt_succ_of_lt hi.lt, hi.onWay, fun j hj hmatch => ?_⟩
      obtain rfl | hlt := Nat.eq_or_lt_of_le (Nat.le_of_lt_succ hj)
      · exact .inl (Nat.lt_of_not_le fun hle => hn ⟨hiff.mpr hmatch, hle⟩)
      · exact hi.best j hlt hmatch

/-- **`mount_find`** answers the longest mount on the way to the path, of these the last, and none
exactly if there is no mount on the way. -/
theorem mountFind_longest (s : State) (abs : List Char)
    (hslash : ∀ i < s.nmounts, (s.table i).mountpoint.head? = some '/') :
    (∀ i, mountFind s abs = some i ↔ MountOf s abs s.nmounts i) ∧
      (mountFind s abs = none ↔ ∀ i < s.nmounts, ¬ WholePrefix (s.table i).mountpoint abs) := by
  have hloop : ∀ n ≤ s.nmounts, Best s abs n ((range n).foldl (fun best i =>
      if mountMatches abs (s.table i).mountpoint ∧ best.2 ≤ (s.table i).mountpoint.length then
        (some i, (s.table i).mountpoint.length)
      else best) (none, 0)) := by
    intro n hn
    induction n with
    | zero => exact ⟨rfl, fun i hi => absurd hi (Nat.not_lt_zero i)⟩
    | succ n ih =>
      rw [range_succ, foldl_append]
      exact (ih (Nat.le_of_succ_le hn)).step (hslash n hn)
  have hbest := hloop s.nmounts (Nat.le_refl _)
  unfold mountFind
  revert hbest
  generalize (range s.nmounts).foldl _ _ = best
  obtain ⟨_ | i, len⟩ := best
  · rintro ⟨-, hnone⟩
    exact ⟨fun i => ⟨nofun, fun hi => absurd hi.onWay (hnone i hi.lt)⟩, fun _ => hnone,
      fun _ => rfl⟩
  · rintro ⟨-, hi⟩
    refine ⟨fun j => ⟨?_, fun hj => congrArg some (hi.unique hj)⟩, nofun, fun hnone => ?_⟩
    · rintro ⟨⟩
      exact hi
    · exact absurd hi.onWay (hnone i hi.lt)

end MountOf

theorem mountFind_longest_booted :
    MountOf booted ['/', 'b', 'o', 'o', 't', '/', 'x'] booted.nmounts 3 :=
  ((mountFind_longest booted _ (by decide +kernel)).1 3).mp (by decide +kernel)

end AxiomeOS.Mounts
