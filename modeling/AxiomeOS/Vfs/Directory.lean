import AxiomeOS.Vfs.Moves

/-!
# Creating, removing and writing

The operations of the ramfs keep the invariant of the files: creating a vnode and hanging it into
its directory (`Inv.create`), removing one that no entry refers to (`Inv.remove`), mounting and
unmounting (`Inv.mount`, `Inv.umount`), and writing and truncating (`Inv.write`, `Inv.truncate`).
Removing and unmounting ask for no open descriptor themselves; that is the premise of the two rules.
-/

namespace AxiomeOS.Vfs

open Tally Function Finset

variable {r root : ℕ}

variable {s s' : Files} {T : ℕ → Option ℕ} {hand : List File} {e : Prop}

/-! ### Creating -/

/-- The FIFO brings a pipe that no FIFO of a tree has. -/
def OwnPipe (s : Files) (T : ℕ → Option ℕ) (n : ℕ) : Prop :=
  (s.vnode n).type = .fifo → ∃ p ∈ s.pipes, (s.vnode n).priv = some p ∧
    (s.pipe p).shared = true ∧ (s.pipe p).dead = false ∧
    ∀ m r, T m = some r → (s.vnode m).type = .fifo → (s.vnode m).priv ≠ some p

variable {n : ℕ} {α : Type*} {type : VType}

theorem Fifos.hang (h : Fifos s T) (hn : OwnPipe s T n) : Fifos s (update T n (some r)) := by
  have hold : ∀ m x, update T n (some r) m = some x → m ≠ n → T m = some x := by
    intro m x hm hmn
    rwa [update_of_ne hmn] at hm
  constructor
  case pipe =>
    intro m x hm hfifo
    by_cases hmn : m = n
    · subst hmn
      obtain ⟨p, hp, hpriv, hsh, hd, -⟩ := hn hfifo
      exact ⟨p, hp, hpriv, hsh, hd⟩
    · exact h.pipe m x (hold m x hm hmn) hfifo
  case inj =>
    intro m x k y hm hk hmf hkf heq
    by_cases hmn : m = n <;> by_cases hkn : k = n
    · rw [hmn, hkn]
    · subst hmn
      obtain ⟨p, -, hpriv, -, -, hfresh⟩ := hn hmf
      exact absurd (heq.symm.trans hpriv) (hfresh k y (hold k y hk hkn) hkf)
    · subst hkn
      obtain ⟨p, -, hpriv, -, -, hfresh⟩ := hn hkf
      exact absurd (heq.trans hpriv) (hfresh m x (hold m x hm hmn) hmf)
    · exact h.inj m x k y (hold m x hm hmn) (hold k y hk hkn) hmf hkf heq

/-- The state with `n` hung into the directory `d`. -/
def hung (s : Files) (d n cap : ℕ) : Files :=
  (s.modifyVnode n fun c => { c with parent := some d }).modifyVnode d (Vnode.append n cap)

theorem ramfsAddChild_cases (s : Files) (d n : ℕ) (m : Mem) :
    ramfsAddChild s d n m = s ∨ ∃ cap, ramfsAddChild s d n m = hung s d n cap := by
  rw [ramfsAddChild]
  split_ifs
  · exact .inl rfl
  · exact .inr ⟨4, rfl⟩
  · exact .inr ⟨_, rfl⟩
  · exact .inr ⟨_, rfl⟩

theorem hung_proj (π : Vnode → α) (s : Files) (d n cap : ℕ)
    (hparent : ∀ (v : Vnode) q, π { v with parent := q } = π v)
    (happend : ∀ v : Vnode, π (v.append n cap) = π v) (k : ℕ) :
    π ((hung s d n cap).vnode k) = π (s.vnode k) := by
  rw [hung, modifyVnode_proj π _ d happend, modifyVnode_proj π s n (fun v => hparent v _)]

/-- **Hanging a new vnode into a directory**, if there is memory for it. -/
theorem Inv.addChild (h : Inv e s T hand) {d : ℕ} (m : Mem) (hd : T d = some r)
    (hdir : (s.vnode d).type = .dir) (hn : T n = none) (hlive : n ∈ s.live) {name : List Char}
    {q : Option ℕ} (hv : s.vnode n = { Vnode.blank name type with priv := q })
    (htype : type ≠ .pipeR ∧ type ≠ .pipeW) (hown : OwnPipe s T n) :
    ∃ T', Inv e (ramfsAddChild s d n m) T' hand := by
  rcases ramfsAddChild_cases s d n m with heq | ⟨cap, heq⟩
  · rw [heq]
    exact ⟨T, h⟩
  rw [heq]
  have hty := hung_proj Vnode.type s d n cap (fun _ _ => rfl) (fun _ => rfl)
  have hpr := hung_proj Vnode.priv s d n cap (fun _ _ => rfl) (fun _ => rfl)
  have hda := hung_proj Vnode.data s d n cap (fun _ _ => rfl) (fun _ => rfl)
  have hrc := hung_proj Vnode.refcount s d n cap (fun _ _ => rfl) (fun _ => rfl)
  have hre : Recount s (hung s d n cap) := ⟨rfl, rfl, rfl, rfl, hty, hpr⟩
  refine ⟨update T n (some r), ?_⟩
  exact
    { tree := h.tree.hang hd hdir hn hlive (by rw [hv]; rfl) (by rw [hv]; exact htype)
        (by rw [hv]; rfl)
      bufs := h.bufs.frame (Subset.refl _) fun k hk b hb => ⟨hk, by rw [← hda]; exact hb⟩
      table := h.table.recount hre (fun k _ => (hrc k).ge) (fun _ _ _ => rfl)
      fifos := (h.fifos.hang hown).frame (fun k _ _ => hty k) (fun k _ _ => hpr k)
        fun p hp hsh hdead => ⟨hp, hsh, hdead⟩ }

theorem not_mem_live_of_none (h : Tree s T) (hn : n ∉ s.live) : T n = none := by
  cases hT : T n with
  | none => rfl
  | some r => exact absurd (h.mem n r hT).2 hn

/-- A fresh file or directory is hung in. -/
theorem Inv.addPlain (h : Inv e s T hand) {d : ℕ} (m : Mem) (hd : T d = some r)
    (hdir : (s.vnode d).type = .dir) (hn : n ∉ s.live) (name : List Char)
    (htype : type ≠ .pipeR ∧ type ≠ .pipeW) (hfifo : type ≠ .fifo) :
    ∃ T', Inv e (ramfsAddChild (s.newVnode n (Vnode.blank name type)) d n m) T' hand := by
  have hTn := not_mem_live_of_none h.tree hn
  have hdn := ne_of_eq_none hTn hd
  have hvn := newVnode_vnode_self s n (Vnode.blank name type)
  refine (h.newVnode hn rfl).addChild m hd ?_ hTn (mem_insert_self ..) hvn htype ?_
  · rw [newVnode_vnode_of_ne s _ hdn]
    exact hdir
  · intro hf
    rw [hvn] at hf
    exact absurd hf hfifo

/-- A fresh FIFO with its pipe. -/
def withFifo (s : Files) (n p : ℕ) (name : List Char) : Files :=
  (s.newVnode n { Vnode.blank name .fifo with priv := some p }).newPipe p fifoPipe

/-- A fresh FIFO is hung in. -/
theorem Inv.addFifo (h : Inv e s T hand) {d p : ℕ} (m : Mem) (hd : T d = some r)
    (hdir : (s.vnode d).type = .dir) (hn : n ∉ s.live) (hp : p ∉ s.pipes) (name : List Char) :
    ∃ T', Inv e (ramfsAddChild (withFifo s n p name) d n m) T' hand := by
  have hTn := not_mem_live_of_none h.tree hn
  have hne : ∀ k x, T k = some x → k ≠ n := fun _ _ => ne_of_eq_none hTn
  have hvn : (withFifo s n p name).vnode n = { Vnode.blank name .fifo with priv := some p } :=
    newVnode_vnode_self ..
  have hvk : ∀ k x, T k = some x → (withFifo s n p name).vnode k = s.vnode k :=
    fun k x hk => newVnode_vnode_of_ne s _ (hne k x hk)
  have hpp : (withFifo s n p name).pipe p = fifoPipe := update_self ..
  have h1 : Inv e (withFifo s n p name) T hand := (h.newVnode hn rfl).newPipe hp rfl rfl
  refine h1.addChild m hd ?_ hTn (mem_insert_self ..) hvn (by decide) ?_
  · rw [hvk d r hd]
    exact hdir
  · intro _
    refine ⟨p, mem_insert_self .., by rw [hvn], by rw [hpp]; rfl, by rw [hpp]; rfl, ?_⟩
    intro k x hk hkf hkp
    rw [hvk k x hk] at hkf hkp
    -- the pipes of the FIFOs there are were allocated before
    obtain ⟨q, hq, hqp, -⟩ := h.fifos.pipe k x hk hkf
    rw [hkp, Option.some.injEq] at hqp
    rw [← hqp] at hq
    exact hp hq

/-- **Creating** a file, a directory or a FIFO. -/
theorem Inv.create (h : Inv e s T hand) (hroot : root ∈ s.roots) (rel : List Char)
    (htype : type ≠ .pipeR ∧ type ≠ .pipeW) (m : Mem) :
    ∃ T', Inv e (ramfsCreate s root rel type m).1 T' hand := by
  rw [ramfsCreate]
  cases hw : ramfsWalk s root (components (dirname rel)) with
  | none => exact ⟨T, h⟩
  | some d =>
    have hd := h.tree.walk _ (h.tree.root root hroot).1 hw
    dsimp only
    by_cases hdir : (s.vnode d).type = .dir
    · rw [if_neg (not_not.mpr hdir)]
      by_cases hexists : (ramfsFindChild s d (basename rel)).isSome = true
      · rw [if_pos hexists]
        exact ⟨T, h⟩
      rw [if_neg hexists]
      cases hpick : m.vnode.pick s.live with
      | none => exact ⟨T, h⟩
      | some n =>
        have hn := m.vnode.fresh _ _ hpick
        dsimp only
        by_cases hfifo : type = .fifo
        · subst hfifo
          rw [if_pos rfl]
          cases hpp : m.pipe.pick s.pipes with
          | none => exact ⟨T, h⟩
          | some p =>
            cases m.pipeBuf with
            | false => exact ⟨T, h⟩
            | true => exact h.addFifo m hd hdir hn (m.pipe.fresh _ _ hpp) (basename rel)
        · rw [if_neg hfifo]
          exact h.addPlain m hd hdir hn (basename rel) htype hfifo
    · rw [if_pos hdir]
      exact ⟨T, h⟩

/-! ### Removing -/

/-- A vnode that nothing refers to may change. -/
theorem Table.modifyVnode (h : Table e s hand) (hn : total s hand (File.refers n) = 0)
    (φ : Vnode → Vnode) : Table e (s.modifyVnode n φ) hand := by
  have hsame : ∀ P, total (s.modifyVnode n φ) hand P = total s hand P :=
    fun P => total_state rfl rfl
  refine h.frame (fun g hg _ => (has_state rfl rfl).mp hg) ?_ ?_ ?_ ?_
  · intro g hg k hk hr
    have hkn : k ≠ n := by
      rintro rfl
      have := total_pos hg hr
      rw [hsame, hn] at this
      exact Nat.lt_irrefl 0 this
    rw [modifyVnode_vnode_of_ne s φ hkn]
    exact ⟨hk, rfl, rfl⟩
  · intro g hg p type hr
    exact (h.good g ((has_state rfl rfl).mp hg)).pipe_live hr
  · intro k hk
    rw [hsame]
    by_cases hkn : k = n
    · rw [hkn, hn]
      exact Nat.zero_le _
    · rw [modifyVnode_vnode_of_ne s φ hkn]
      exact h.held k hk
  · intro p hp type htype
    rw [hsame]
    exact h.counts p hp type htype

theorem dropFifo_frame (s : Files) (n : ℕ) :
    (dropFifo s n).live = s.live ∧ (dropFifo s n).bufs = s.bufs ∧ (dropFifo s n).roots = s.roots ∧
      (dropFifo s n).gRoot = s.gRoot ∧ (dropFifo s n).fds = s.fds ∧
      (dropFifo s n).threads = s.threads ∧ ((dropFifo s n).vnode n).data = (s.vnode n).data ∧
      ∀ k, k ≠ n → (dropFifo s n).vnode k = s.vnode k := by
  rw [dropFifo]
  split
  · split_ifs
    all_goals
      refine ⟨rfl, rfl, rfl, rfl, rfl, rfl, ?_, fun k hk => modifyVnode_vnode_of_ne _ _ hk⟩
      rw [modifyVnode_vnode_self]
      rfl
  · exact ⟨rfl, rfl, rfl, rfl, rfl, rfl, rfl, fun _ _ => rfl⟩

theorem Table.loseFifo (h : Table e s hand) (hn : total s hand (File.refers n) = 0) :
    Table e (dropFifo s n) hand := by
  rw [dropFifo]
  split
  · rename_i p _ _
    split_ifs with hzero
    · exact .modifyVnode (h.freePipe hzero.1 hzero.2) hn _
    · have hre : Recount s (s.modifyPipe p fun x => { x with dead := true }) :=
        ⟨rfl, rfl, rfl, rfl, fun _ => rfl, fun _ => rfl⟩
      have h1 := h.recount hre (fun _ _ => le_refl _) fun q _ type =>
        modifyPipe_proj (fun x => x.count type) s p (fun x => by cases type <;> rfl) q
      exact h1.modifyVnode hn _
  · exact h

/-- The pipes of the other FIFOs stay as they are. -/
theorem Fifos.cut (h : Fifos s T) (hn : T n = some r) : Fifos (dropFifo s n) (update T n none) := by
  have hother := (dropFifo_frame s n).2.2.2.2.2.2.2
  have hpipes : ∀ m x p, T m = some x → m ≠ n → (s.vnode m).type = .fifo →
      (s.vnode m).priv = some p →
      p ∈ s.pipes → (s.pipe p).shared = true → (s.pipe p).dead = false →
      p ∈ (dropFifo s n).pipes ∧ ((dropFifo s n).pipe p).shared = true ∧
        ((dropFifo s n).pipe p).dead = false := by
    intro m x p hm hmn hmf hmp hp hsh hd
    rw [dropFifo]
    split
    · rename_i q hnf hnq
      have hpq : p ≠ q := by
        rintro rfl
        exact hmn (h.inj m x n r hm hn hmf hnf (hmp.trans hnq.symm))
      split_ifs
      · exact ⟨mem_erase_of_ne_of_mem hpq hp, hsh, hd⟩
      · have hsame : (s.modifyPipe q fun x => { x with dead := true }).pipe p = s.pipe p :=
          modifyPipe_pipe_of_ne s _ hpq
        exact ⟨hp, (congrArg Pipe.shared hsame).trans hsh, (congrArg Pipe.dead hsame).trans hd⟩
    · exact ⟨hp, hsh, hd⟩
  constructor
  case pipe =>
    intro m x hm hmf
    obtain ⟨hmn, hTm⟩ := update_none_eq_some.mp hm
    rw [hother m hmn] at hmf ⊢
    obtain ⟨p, hp, hmp, hsh, hd⟩ := h.pipe m x hTm hmf
    obtain ⟨hp', hsh', hd'⟩ := hpipes m x p hTm hmn hmf hmp hp hsh hd
    exact ⟨p, hp', hmp, hsh', hd'⟩
  case inj =>
    intro m x k y hm hk hmf hkf heq
    obtain ⟨hmn, hTm⟩ := update_none_eq_some.mp hm
    obtain ⟨hkn, hTk⟩ := update_none_eq_some.mp hk
    rw [hother m hmn] at hmf heq
    rw [hother k hkn] at hkf heq
    exact h.inj m x k y hTm hTk hmf hkf heq

theorem removeTarget_eq {d : ℕ} {rel : List Char} (h : removeTarget s root rel = some (d, n)) :
    ramfsWalk s root (components (dirname rel)) = some d ∧
      ramfsFindChild s d (basename rel) = some n ∧
      ¬((s.vnode n).type = .dir ∧ (s.vnode n).children ≠ []) := by
  rw [removeTarget] at h
  cases hw : ramfsWalk s root (components (dirname rel)) with
  | none => rw [hw] at h; cases h
  | some d' =>
    rw [hw] at h
    dsimp only at h
    cases hc : ramfsFindChild s d' (basename rel) with
    | none => rw [hc] at h; cases h
    | some n' =>
      rw [hc] at h
      dsimp only at h
      split_ifs at h with hg hne
      cases h
      exact ⟨rfl, hc, hne⟩

theorem freeBuf_eq (s : Files) (b : Option ℕ) :
    s.freeBuf b = { s with bufs := (s.freeBuf b).bufs } := by
  cases b <;> rfl

theorem mem_freeBuf {b : Option ℕ} {c : ℕ} (hc : c ∈ s.bufs) (hb : b ≠ some c) :
    c ∈ (s.freeBuf b).bufs := by
  cases b with
  | none => exact hc
  | some b => exact mem_erase_of_ne_of_mem (fun he => hb (by rw [he])) hc

/-- **Removing** a vnode that no entry refers to. -/
theorem Inv.remove (h : Inv e s T hand) (hroot : root ∈ s.roots) (rel : List Char)
    (hclosed : ∀ d n, removeTarget s root rel = some (d, n) → total s hand (File.refers n) = 0) :
    ∃ T', Inv e (ramfsRemove s root rel).1 T' hand := by
  rw [ramfsRemove]
  cases hr : removeTarget s root rel with
  | none => exact ⟨T, h⟩
  | some dn =>
    obtain ⟨d, n⟩ := dn
    obtain ⟨hw, hc, hempty⟩ := removeTarget_eq hr
    have hd := h.tree.walk _ (h.tree.root root hroot).1 hw
    have hmem : n ∈ (s.vnode d).children := List.mem_of_find?_eq_some hc
    have hTn := (h.tree.child d root hd n hmem).1
    have hlive := (h.tree.mem n root hTn).2
    have hleaf : (s.vnode n).children = [] := by
      by_contra hne
      by_cases hdir : (s.vnode n).type = .dir
      · exact hempty ⟨hdir, hne⟩
      · exact hne (h.tree.leaf n root hTn hdir)
    -- the vnode leaves its directory: the tables and the FIFOs do not see that
    have hre : Recount s (s.modifyVnode d (Vnode.without n)) := ⟨rfl, rfl, rfl, rfl,
      modifyVnode_proj Vnode.type s d fun _ => rfl, modifyVnode_proj Vnode.priv s d fun _ => rfl⟩
    have hdata := modifyVnode_proj Vnode.data s d (f := Vnode.without n) fun _ => rfl
    have hnone : total (s.modifyVnode d (Vnode.without n)) hand (File.refers n) = 0 :=
      (total_state rfl rfl).trans (hclosed d n hr)
    have ht1 := h.table.recount hre
      (fun k _ => (modifyVnode_proj Vnode.refcount s d (f := Vnode.without n) (fun _ => rfl) k).ge)
      fun _ _ _ => rfl
    have hf1 := h.fifos.frame (fun k _ _ => hre.type k) (fun k _ _ => hre.priv k)
      fun p hp hsh hdead => ⟨hp, hsh, hdead⟩
    have hcut := h.tree.cut hd hmem hleaf
    -- its pipe goes, if it is a FIFO
    have ht2 := ht1.loseFifo hnone
    have hf2 := hf1.cut hTn
    obtain ⟨hl2, hb2, hr2, hg2, hfds2, hth2, hda2, hv2⟩ :=
      dropFifo_frame (s.modifyVnode d (Vnode.without n)) n
    show ∃ T', Inv e ((Files.freeBuf (dropFifo (s.modifyVnode d (Vnode.without n)) n)
      ((dropFifo (s.modifyVnode d (Vnode.without n)) n).vnode n).data).freeVnode n) T' hand
    generalize dropFifo _ n = s2 at ht2 hf2 hl2 hb2 hr2 hg2 hfds2 hth2 hda2 hv2 ⊢
    -- and then its buffer
    have hbufs : ∀ c ∈ s.bufs, (s.vnode n).data ≠ some c →
        c ∈ (s2.freeBuf (s2.vnode n).data).bufs := by
      intro c hc hne
      refine mem_freeBuf (by rw [hb2]; exact hc) ?_
      rw [hda2, hdata]
      exact hne
    rw [freeBuf_eq]
    generalize (s2.freeBuf _).bufs = bufs at hbufs ⊢
    refine ⟨update T n none, ?_, ?_, ?_, ?_⟩
    · refine hcut.frame hr2 hg2 (fun k x hk => ?_) fun k x hk => ?_
      · rw [hl2]
        exact (hcut.mem k x hk).2
      · exact congrArg Vnode.links (hv2 k (update_none_eq_some.mp hk).1)
    · refine h.bufs.change hlive (fun k hk hkn => ⟨?_, ?_⟩) hbufs
        fun hmem' => absurd hmem' (notMem_erase n _)
      · have hk2 : k ∈ s2.live := mem_of_mem_erase hk
        rwa [hl2] at hk2
      · show (s2.vnode k).data = _
        rw [hv2 k hkn, hdata]
    · have ht3 : Table e { s2 with bufs := bufs } hand :=
        ht2.recount ⟨rfl, rfl, rfl, rfl, fun _ => rfl, fun _ => rfl⟩ (fun _ _ => le_refl _)
          fun _ _ _ => rfl
      exact ht3.freeVnode ((total_state hfds2 hth2).trans hnone)
    · exact hf2.frame (fun _ _ _ => rfl) (fun _ _ _ => rfl) fun _ hp hsh hdead => ⟨hp, hsh, hdead⟩

/-! ### Mounting and unmounting -/

theorem Inv.mount (h : Inv e s T hand) (m : Mem) : ∃ T', Inv e (vfsMountRamfs s m) T' hand := by
  rw [vfsMountRamfs]
  cases hpick : m.vnode.pick s.live with
  | none => exact ⟨T, h⟩
  | some n =>
    have hn := m.vnode.fresh _ _ hpick
    have h1 : Inv e (s.newVnode n (Vnode.blank ['/'] .dir)) T hand := h.newVnode hn rfl
    have hown : OwnPipe (s.newVnode n (Vnode.blank ['/'] .dir)) T n := by
      intro hf
      rw [newVnode_vnode_self] at hf
      cases hf
    have hre : Recount (s.newVnode n (Vnode.blank ['/'] .dir))
        { s.newVnode n (Vnode.blank ['/'] .dir) with roots := insert n s.roots } :=
      ⟨rfl, rfl, rfl, rfl, fun _ => rfl, fun _ => rfl⟩
    refine ⟨update T n (some n), ?_⟩
    exact
      { tree := h.tree.mount hn rfl rfl rfl rfl
        bufs := h1.bufs.frame (Subset.refl _) fun _ hk _ hb => ⟨hk, hb⟩
        table := h1.table.recount hre (fun _ _ => le_refl _) (fun _ _ _ => rfl)
        fifos := (h1.fifos.hang hown).frame (fun _ _ _ => rfl) (fun _ _ _ => rfl)
          fun _ hp hsh hd => ⟨hp, hsh, hd⟩ }

/-- **Unmounting** a tree that no entry refers to. -/
theorem Inv.umount (h : Inv e s T hand)
    (hclosed : root ∈ s.roots → root ≠ s.gRoot → ∀ n, Under s root n →
      total s hand (File.refers n) = 0) : ∃ T', Inv e (vfsUmount s root) T' hand := by
  rw [vfsUmount]
  split_ifs with hroot
  · obtain ⟨hr, hg⟩ := hroot
    have hd := ramfsDestroy_spec (s.live.card + 1) s root
    generalize ramfsDestroy _ s root = s1 at hd ⊢
    have hfds : s1.fds = s.fds := by rw [hd.rest]
    have hthreads : s1.threads = s.threads := by rw [hd.rest]
    have hpipe : s1.pipe = s.pipe := by rw [hd.rest]
    have hpipes : s1.pipes = s.pipes := by rw [hd.rest]
    have hb := h.bufs.destroyed h.tree hr hd
    refine ⟨unmounted T root, ?_⟩
    exact
      { tree := h.tree.umount hr hg hd
        bufs := hb.frame (Subset.refl _) fun _ hk _ hb => ⟨hk, hb⟩
        table := h.table.shrink hfds hthreads hd.vnode hpipe hd.live_sub
          (by show s1.pipes ⊆ s.pipes; rw [hpipes])
          (fun n hn hn' => hclosed hr hg n (hd.freed n hn hn'))
          (fun p hp hp' => absurd (by show p ∈ s1.pipes; rw [hpipes]; exact hp) hp')
        fifos := (h.fifos.sub fun n r hn => (unmounted_eq_some hn).1).frame
          (fun _ _ _ => by show (s1.vnode _).type = _; rw [hd.vnode])
          (fun _ _ _ => by show (s1.vnode _).priv = _; rw [hd.vnode])
          fun p hp hsh hdead => by
            rw [hpipes, hpipe]
            exact ⟨hp, hsh, hdead⟩ }
  · exact ⟨T, h⟩

/-! ### Writing -/

/-- Steps that change file contents, sizes and buffers only. -/
structure Content (s s' : Files) : Prop extends Recount s s' where
  roots : s'.roots = s.roots
  gRoot : s'.gRoot = s.gRoot
  pipe : s'.pipe = s.pipe
  links : ∀ n, (s'.vnode n).links = (s.vnode n).links
  refcount : ∀ n, (s'.vnode n).refcount = (s.vnode n).refcount

theorem Inv.content (h : Inv e s T hand) (hs : Content s s') (hb : Bufs s') : Inv e s' T hand where
  tree := h.tree.frame hs.roots hs.gRoot 
    (fun n r hn => by rw [hs.live]; exact (h.tree.mem n r hn).2)
    (fun n _ _ => hs.links n)
  bufs := hb
  table := h.table.recount hs.toRecount (fun n _ => (hs.refcount n).ge)
    (fun _ _ _ => by rw [hs.pipe])
  fifos := h.fifos.frame (fun n _ _ => hs.type n) (fun n _ _ => hs.priv n) fun p hp hsh hd => by
    rw [hs.pipes, hs.pipe]
    exact ⟨hp, hsh, hd⟩

/-- The vnode with other contents. -/
def Vnode.withData (d : Option ℕ) (size cap : ℕ) (v : Vnode) : Vnode :=
  { v with data := d, size := size, cap := cap }

/-- The state in which one file has other contents. -/
def Files.refill (s : Files) (n : ℕ) (d : Option ℕ) (size cap : ℕ) (bufs : Finset ℕ)
    (bytes : ℕ → ℕ → UInt8) : Files :=
  { s.modifyVnode n (Vnode.withData d size cap) with bufs := bufs, bytes := bytes }

section Refill

variable {n size cap : ℕ} {d : Option ℕ} {bufs : Finset ℕ} {bytes : ℕ → ℕ → UInt8}

theorem refill_vnode_self :
    (s.refill n d size cap bufs bytes).vnode n = (s.vnode n).withData d size cap :=
  modifyVnode_vnode_self ..

theorem refill_vnode_of_ne {m : ℕ} (h : m ≠ n) :
    (s.refill n d size cap bufs bytes).vnode m = s.vnode m :=
  modifyVnode_vnode_of_ne s _ h

theorem refill_proj (π : Vnode → α) (hπ : ∀ v : Vnode, π (v.withData d size cap) = π v) (m : ℕ) :
    π ((s.refill n d size cap bufs bytes).vnode m) = π (s.vnode m) :=
  modifyVnode_proj π s n hπ m

theorem content_refill : Content s (s.refill n d size cap bufs bytes) where
  fds := rfl
  threads := rfl
  live := rfl
  pipes := rfl
  roots := rfl
  gRoot := rfl
  pipe := rfl
  type := refill_proj Vnode.type fun _ => rfl
  priv := refill_proj Vnode.priv fun _ => rfl
  links := refill_proj Vnode.links fun _ => rfl
  refcount := refill_proj Vnode.refcount fun _ => rfl

theorem Inv.refill_same (h : Inv e s T hand) :
    Inv e (s.refill n (s.vnode n).data size cap s.bufs bytes) T hand := by
  refine h.content content_refill (h.bufs.frame (Subset.refl _) ?_)
  intro m hm b hb
  refine ⟨hm, ?_⟩
  by_cases hmn : m = n
  · rw [hmn, refill_vnode_self] at hb
    rw [hmn]
    exact hb
  · rwa [refill_vnode_of_ne hmn] at hb

theorem Inv.refill (h : Inv e s T hand) (hn : n ∈ s.live)
    (hbufs : ∀ b ∈ s.bufs, (s.vnode n).data ≠ some b → b ∈ bufs)
    (hd : ∀ b, d = some b → b ∈ bufs ∧ b ∉ s.bufs) :
    Inv e (s.refill n d size cap bufs bytes) T hand := by
  refine h.content content_refill (h.bufs.change hn ?_ hbufs ?_)
  · intro m hm hmn
    rw [refill_vnode_of_ne hmn]
    exact ⟨hm, rfl⟩
  · intro _ b hb
    rw [refill_vnode_self] at hb
    exact hd b hb

end Refill

section

variable (h : Inv e s T hand) (hn : n ∈ s.live)
include h hn

/-- **Truncating** a file. -/
theorem Inv.trunc : Inv e (truncate s n) T hand := by
  have heq : truncate s n = s.refill n none 0 0 (s.freeBuf (s.vnode n).data).bufs s.bytes := by
    rw [truncate, freeBuf_eq]
    rfl
  rw [heq]
  refine h.refill hn (fun b hb hne => mem_freeBuf hb hne) ?_
  exact nofun

/-- Making room gives the file a fresh buffer, if it does anything. -/
theorem Inv.ensureCap {need : ℕ} {m : Mem} (heq : ramfsEnsureCap s n need m = some s') :
    Inv e s' T hand ∧ s'.live = s.live := by
  rw [ramfsEnsureCap] at heq
  split_ifs at heq with hcap
  · rw [← Option.some.inj heq]
    exact ⟨h, rfl⟩
  · cases hpick : m.buf.pick s.bufs with
    | none => rw [hpick] at heq; cases heq
    | some b =>
      rw [hpick] at heq
      have hb := m.buf.fresh _ _ hpick
      have hs' := (Option.some.inj heq).symm
      rw [freeBuf_eq] at hs'
      have hown : ∀ c, (s.vnode n).data = some c → c ≠ b := by
        rintro c hc rfl
        exact hb (h.bufs.own n hn c hc)
      refine ⟨?_, by rw [hs']; rfl⟩
      rw [hs']
      refine h.refill hn ?_ ?_
      · intro c hc hne
        exact mem_freeBuf (mem_insert_of_mem hc) hne
      · intro c hc
        rw [← Option.some.inj hc]
        exact ⟨mem_freeBuf (mem_insert_self ..) fun he => hown b he rfl, hb⟩

/-- **Writing** into a file. -/
theorem Inv.write (off : ℕ) (bytes : List UInt8) (m : Mem) :
    Inv e (ramfsWrite s n off bytes m).1 T hand := by
  rw [ramfsWrite]
  split_ifs with htype
  · exact h
  · cases hcap : ramfsEnsureCap s n (off + bytes.length) m with
    | none => exact h
    | some s1 =>
      obtain ⟨h1, -⟩ := h.ensureCap hn hcap
      dsimp only
      cases (s1.vnode n).data with
      | none | some => exact h1.refill_same

end

end AxiomeOS.Vfs
