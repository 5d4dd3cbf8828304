import AxiomeOS.Vfs.Table

/-!
# What the elementary steps of a call keep

`Inv e s T hand` collects what holds of the files between the elementary steps of a system call: the
trees, the data buffers, the counts against the tables and the hand, and the FIFOs in the trees,
each of which has a pipe of its own.

This file says for the elementary steps of the system calls on descriptors that they keep the
invariant: taking and giving up a reference to a vnode or to the end of a pipe, copying and closing
an entry, inheriting and closing a whole table.
-/

namespace AxiomeOS.Vfs

open Tally Function List Bool Finset Files

variable {n p t : ℕ} {type : VType}

variable {s s' : Files} {T : ℕ → Option ℕ} {hand hand' : List File} {e : Prop} {f g : File}

/-! ### The invariant -/

/-- Each FIFO of a tree has a pipe of its own, which is marked as shared and not as dead. -/
structure Fifos (s : Files) (T : ℕ → Option ℕ) : Prop where
  pipe : ∀ n r, T n = some r → (s.vnode n).type = .fifo → ∃ p ∈ s.pipes,
    (s.vnode n).priv = some p ∧ (s.pipe p).shared = true ∧ (s.pipe p).dead = false
  inj : ∀ n r m r', T n = some r → T m = some r' → (s.vnode n).type = .fifo →
    (s.vnode m).type = .fifo → (s.vnode n).priv = (s.vnode m).priv → n = m

structure Inv (e : Prop) (s : Files) (T : ℕ → Option ℕ) (hand : List File) : Prop where
  tree : Tree s T
  bufs : Bufs s
  table : Table e s hand
  fifos : Fifos s T

theorem Fifos.frame (h : Fifos s T)
    (htype : ∀ n r, T n = some r → (s'.vnode n).type = (s.vnode n).type)
    (hpriv : ∀ n r, T n = some r → (s'.vnode n).priv = (s.vnode n).priv)
    (hpipe : ∀ p ∈ s.pipes, (s.pipe p).shared = true → (s.pipe p).dead = false →
      p ∈ s'.pipes ∧ (s'.pipe p).shared = true ∧ (s'.pipe p).dead = false) : Fifos s' T where
  pipe := by
    intro n r hn hfifo
    rw [htype n r hn] at hfifo
    obtain ⟨p, hp, hpr, hsh, hdead⟩ := h.pipe n r hn hfifo
    obtain ⟨hp', hsh', hdead'⟩ := hpipe p hp hsh hdead
    exact ⟨p, hp', (hpriv n r hn).trans hpr, hsh', hdead'⟩
  inj := by
    intro n r m r' hn hm hnf hmf heq
    rw [htype n r hn] at hnf
    rw [htype m r' hm] at hmf
    rw [hpriv n r hn, hpriv m r' hm] at heq
    exact h.inj n r m r' hn hm hnf hmf heq

theorem Fifos.sub {T' : ℕ → Option ℕ} (h : Fifos s T) (hT : ∀ n r, T' n = some r → T n = some r) :
    Fifos s T' where
  pipe := fun n r hn => h.pipe n r (hT n r hn)
  inj := fun n r m r' hn hm => h.inj n r m r' (hT n r hn) (hT m r' hm)

theorem Inv.tables (h : Inv e s T hand) (hs : s' = { s with fds := s'.fds, threads := s'.threads })
    (ht : Table e s' hand') : Inv e s' T hand' where
  tree := h.tree.congr (by rw [hs]) (by rw [hs]) (by rw [hs]) (by rw [hs])
  bufs := h.bufs.frame (by rw [hs]) fun n hn b hb => by
    rw [hs] at hn hb
    exact ⟨hn, hb⟩
  table := ht
  fifos := h.fifos.frame (fun n _ _ => by rw [hs]) (fun n _ _ => by rw [hs]) fun p hp hsh hd => by
    rw [hs]
    exact ⟨hp, hsh, hd⟩

/-- Steps that change counts, and pipes otherwise than by their flags. -/
structure Quiet (s s' : Files) : Prop extends Recount s s' where
  roots : s'.roots = s.roots
  gRoot : s'.gRoot = s.gRoot
  bufs : s'.bufs = s.bufs
  links : ∀ n, (s'.vnode n).links = (s.vnode n).links
  data : ∀ n, (s'.vnode n).data = (s.vnode n).data
  shared : ∀ p, (s'.pipe p).shared = (s.pipe p).shared
  dead : ∀ p, (s'.pipe p).dead = (s.pipe p).dead

theorem Inv.quiet (h : Inv e s T hand) (hs : Quiet s s') (ht : Table e s' hand') :
    Inv e s' T hand' where
  tree := h.tree.frame hs.roots hs.gRoot 
    (fun n r hn => by rw [hs.live]; exact (h.tree.mem n r hn).2)
    (fun n _ _ => hs.links n)
  bufs := h.bufs.frame (by rw [hs.bufs]) fun n hn b hb => by
    rw [hs.live] at hn
    rw [hs.data] at hb
    exact ⟨hn, hb⟩
  table := ht
  fifos := h.fifos.frame (fun n _ _ => hs.type n) (fun n _ _ => hs.priv n) fun p hp hsh hd => by
    rw [hs.pipes, hs.shared, hs.dead]
    exact ⟨hp, hsh, hd⟩

/-! ### Counting -/

/-- A change inside a vnode that keeps all but its count and its size. -/
structure KeepsVnode (φ : Vnode → Vnode) : Prop where
  links : ∀ v, (φ v).links = v.links
  priv : ∀ v, (φ v).priv = v.priv
  data : ∀ v, (φ v).data = v.data

theorem keeps_ref : KeepsVnode Vnode.ref := ⟨fun _ => rfl, fun _ => rfl, fun _ => rfl⟩

theorem keeps_id : KeepsVnode id := ⟨fun _ => rfl, fun _ => rfl, fun _ => rfl⟩

theorem keeps_unref : KeepsVnode Vnode.unref := ⟨fun _ => rfl, fun _ => rfl, fun _ => rfl⟩

theorem Quiet.refl (s : Files) : Quiet s s where
  fds := rfl
  threads := rfl
  live := rfl
  pipes := rfl
  roots := rfl
  gRoot := rfl
  bufs := rfl
  type := fun _ => rfl
  priv := fun _ => rfl
  links := fun _ => rfl
  data := fun _ => rfl
  shared := fun _ => rfl
  dead := fun _ => rfl

theorem quiet_modifyVnode (s : Files) (n : ℕ) {φ : Vnode → Vnode} (hφ : KeepsVnode φ) :
    Quiet s (s.modifyVnode n φ) :=
  { Quiet.refl s with
    type := fun m => congrArg Links.type (modifyVnode_proj Vnode.links s n hφ.links m)
    priv := modifyVnode_proj Vnode.priv s n hφ.priv
    links := modifyVnode_proj Vnode.links s n hφ.links
    data := modifyVnode_proj Vnode.data s n hφ.data }

/-- The counts after a change inside a vnode. -/
theorem modifyVnode_refcount (s : Files) (n : ℕ) (φ : Vnode → Vnode) (m : ℕ) :
    ((s.modifyVnode n φ).vnode m).refcount =
      if m = n then (φ (s.vnode n)).refcount else (s.vnode m).refcount := by
  split_ifs with hmn
  · rw [hmn, modifyVnode_vnode_self]
  · rw [modifyVnode_vnode_of_ne s φ hmn]

theorem modifyPipe_pipe_self (s : Files) (p : ℕ) (φ : Pipe → Pipe) :
    (s.modifyPipe p φ).pipe p = φ (s.pipe p) :=
  update_self ..

theorem modifyPipe_pipe_of_ne (s : Files) {q : ℕ} (φ : Pipe → Pipe) (h : q ≠ p) :
    (s.modifyPipe p φ).pipe q = s.pipe q :=
  update_of_ne h ..

variable {φ : Pipe → Pipe} {i : Fin 32}

theorem modifyPipe_proj {α : Type*} (π : Pipe → α) (s : Files) (p : ℕ)
    (hφ : ∀ x, π (φ x) = π x) (q : ℕ) : π ((s.modifyPipe p φ).pipe q) = π (s.pipe q) := by
  by_cases h : q = p
  · rw [h, modifyPipe_pipe_self, hφ]
  · rw [modifyPipe_pipe_of_ne s φ h]

theorem quiet_modifyPipe (s : Files) (p : ℕ) (hsh : ∀ x, (φ x).shared = x.shared)
    (hdead : ∀ x, (φ x).dead = x.dead) : Quiet s (s.modifyPipe p φ) :=
  { Quiet.refl s with
    shared := modifyPipe_proj Pipe.shared s p hsh
    dead := modifyPipe_proj Pipe.dead s p hdead }

theorem Quiet.trans {s₁ s₂ : Files} (h₁ : Quiet s s₁) (h₂ : Quiet s₁ s₂) : Quiet s s₂ where
  fds := h₂.fds.trans h₁.fds
  threads := h₂.threads.trans h₁.threads
  live := h₂.live.trans h₁.live
  pipes := h₂.pipes.trans h₁.pipes
  roots := h₂.roots.trans h₁.roots
  gRoot := h₂.gRoot.trans h₁.gRoot
  bufs := h₂.bufs.trans h₁.bufs
  type := fun n => (h₂.type n).trans (h₁.type n)
  priv := fun n => (h₂.priv n).trans (h₁.priv n)
  links := fun n => (h₂.links n).trans (h₁.links n)
  data := fun n => (h₂.data n).trans (h₁.data n)
  shared := fun p => (h₂.shared p).trans (h₁.shared p)
  dead := fun p => (h₂.dead p).trans (h₁.dead p)

theorem Inv.modifyPipe (h : Inv e s T hand) (p : ℕ)
    (hφ : ∀ x, (φ x).nreaders = x.nreaders ∧ (φ x).nwriters = x.nwriters ∧
      (φ x).shared = x.shared ∧ (φ x).dead = x.dead) : Inv e (s.modifyPipe p φ) T hand := by
  have hq := quiet_modifyPipe s p (fun x => (hφ x).2.2.1) fun x => (hφ x).2.2.2
  refine h.quiet hq (h.table.recount hq.toRecount (fun n _ => le_refl _) ?_)
  intro q _ type
  refine modifyPipe_proj (fun x => x.count type) s p (fun x => ?_) q
  simp only [Pipe.count, hφ]

theorem Inv.leak (h : Inv e s T hand) (n : ℕ) : Inv e (s.modifyVnode n Vnode.ref) T hand := by
  have hq := quiet_modifyVnode s n keeps_ref
  refine h.quiet hq (h.table.recount hq.toRecount ?_ (fun _ _ _ => rfl))
  intro m _
  rw [modifyVnode_refcount]
  split_ifs with hmn
  · rw [hmn]
    exact Nat.le_succ _
  · exact le_refl _

theorem Inv.freeVnode (h : Inv e s T hand) (hT : T n = none)
    (hnone : total s hand (File.refers n) = 0) : Inv e (s.freeVnode n) T hand where
  tree := h.tree.freeVnode hT
  bufs := h.bufs.frame (Subset.refl _) fun _ hm _ hb => ⟨mem_of_mem_erase hm, hb⟩
  table := h.table.freeVnode hnone
  fifos := h.fifos.frame (fun _ _ _ => rfl) (fun _ _ _ => rfl) fun _ hp hsh hd => ⟨hp, hsh, hd⟩

/-! ### References to vnodes -/

/-- The entry refers to the vnode, which is not the end of a pipe. -/
def File.IsVnode (f : File) (n : ℕ) : Prop := f.used = true ∧ f.kind = .vnode ∧ f.node = some n

theorem File.refers_eq_decide (hu : f.used = true) (hk : f.kind = .vnode ∨ f.kind = .pipe)
    (hn : f.node = some n) (m : ℕ) : f.refers m = decide (m = n) := by
  by_cases hmn : m = n
  · rw [decide_eq_true hmn, hmn]
    exact File.refers_eq_true.mpr ⟨hu, hk, hn⟩
  · rw [decide_eq_false hmn, eq_false_iff]
    intro hr
    have hm := (File.refers_eq_true.mp hr).2.2
    rw [hn, Option.some.injEq] at hm
    exact hmn hm.symm

theorem File.IsVnode.refers (hf : f.IsVnode n) (m : ℕ) : f.refers m = decide (m = n) :=
  File.refers_eq_decide hf.1 (.inl hf.2.1) hf.2.2 m

theorem File.IsVnode.atEnd (hf : f.IsVnode n) : s.atEnd type p f = false := by
  rw [eq_false_iff]
  intro hr
  have hk := (atEnd_eq_true.mp hr).2.1
  rw [hf.2.1] at hk
  cases hk

theorem File.IsVnode.good (hf : f.IsVnode n) (hn : n ∈ s.live) : Good s f := by
  refine ⟨fun _ _ => ⟨n, hn, hf.2.2⟩, fun _ hk => ?_⟩
  rw [hf.2.1] at hk
  cases hk

/-- Taking a reference to a vnode. -/
theorem Inv.ref (h : Inv e s T hand) (hn : n ∈ s.live) (hf : f.IsVnode n) :
    Inv e (s.modifyVnode n Vnode.ref) T (f :: hand) := by
  have hq := quiet_modifyVnode s n keeps_ref
  refine h.quiet hq (h.table.take hq.toRecount (hf.good hn) ?_ ?_)
  · intro m hm
    have hle := h.table.held m hm
    rw [hf.refers, modifyVnode_refcount]
    split_ifs with hmn
    · subst hmn
      simpa [Vnode.ref] using hle
    · simpa [hmn] using hle
  · intro p _ type _
    rw [hf.atEnd]
    exact (Int.add_zero _).symm

theorem unref_refcount (s : Files) (n m : ℕ) : (s.vnode m).refcount ≤
    ((s.modifyVnode n Vnode.unref).vnode m).refcount + (decide (m = n)).toNat := by
  rw [modifyVnode_refcount]
  split_ifs with hmn
  · subst hmn
    simp only [Vnode.unref, decide_true, Bool.toNat_true]
    omega
  · exact Nat.le_add_right _ _

/-- **Giving up a reference to a vnode**, which may free it. -/
theorem Inv.release (h : Inv e s T (f :: hand)) (hf : f.IsVnode n) :
    Inv e (vfsRelease s n) T hand := by
  have hq := quiet_modifyVnode s n keeps_unref
  have hmid : Inv e (s.modifyVnode n Vnode.unref) T hand := by
    refine h.quiet hq (h.table.untake hq.toRecount ?_ ?_)
    · exact fun m _ => hf.refers m ▸ unref_refcount s n m
    · intro p _ type _
      rw [hf.atEnd]
      exact (Int.sub_zero _).symm
  rw [vfsRelease]
  split_ifs with hlast
  · obtain ⟨hzero, hforeign⟩ := hlast
    have hT : T n = none := by
      refine Option.eq_none_iff_forall_ne_some.mpr fun r hT => ?_
      cases hforeign.symm.trans (hmid.tree.kind n r hT).1
    have hnone : total (s.modifyVnode n Vnode.unref) hand (File.refers n) = 0 := by
      by_cases hn : n ∈ s.live
      · have := hmid.table.held n hn
        omega
      · exact hmid.table.refers_fresh hn
    exact hmid.freeVnode hT hnone
  · exact hmid

/-! ### References to the ends of pipes -/

theorem addCount_eq (s : Files) (n : ℕ) (d : ℤ) :
    addCount s n d = { s with pipe := (addCount s n d).pipe } := by
  rw [addCount]
  split <;> rfl

/-- Only the pipe behind the end is counted anew. -/
theorem addCount_count (s : Files) (n : ℕ) (d : ℤ) (p : ℕ) (htype : type.IsEnd) :
    ((addCount s n d).pipe p).count type =
      (s.pipe p).count type + if (s.vnode n).isEnd type p then d else 0 := by
  have hpriv : ∀ q, (s.vnode n).priv = some q → ((s.vnode n).priv = some p ↔ p = q) := by
    intro q hq
    rw [hq, Option.some.injEq]
    exact eq_comm
  rw [addCount]
  split
  case h_3 hr hw =>
    have hno : (s.vnode n).isEnd type p = false := by
      rw [eq_false_iff]
      intro hend
      simp only [Vnode.isEnd, and_eq_true, decide_eq_true_eq] at hend
      rcases htype with rfl | rfl
      · exact hr p hend.1 hend.2
      · exact hw p hend.1 hend.2
    simp [hno]
  all_goals
    rename_i q ht hq
    by_cases hpq : p = q
    · subst hpq
      rw [modifyPipe_pipe_self]
      rcases htype with rfl | rfl <;> simp [Pipe.count, Vnode.isEnd, ht, hq]
    · rw [modifyPipe_pipe_of_ne s _ hpq]
      simp [Vnode.isEnd, hpriv q hq, hpq]

theorem quiet_addCount (s : Files) (n : ℕ) (d : ℤ) : Quiet s (addCount s n d) := by
  rw [addCount]
  split
  case h_3 => exact .refl s
  all_goals exact quiet_modifyPipe s _ (fun _ => rfl) (fun _ => rfl)

/-- The entry refers to the vnode as to the end of a pipe. -/
def File.IsPipe (f : File) (n : ℕ) : Prop := f.used = true ∧ f.kind = .pipe ∧ f.node = some n

theorem File.IsPipe.refers (hf : f.IsPipe n) (m : ℕ) : f.refers m = decide (m = n) :=
  File.refers_eq_decide hf.1 (.inr hf.2.1) hf.2.2 m

theorem File.IsPipe.atEnd (hf : f.IsPipe n) : s.atEnd type p f = (s.vnode n).isEnd type p := by
  obtain ⟨hu, hk, hn⟩ := hf
  simp only [Files.atEnd, hu, hk, hn, decide_true, Bool.and_self, Bool.true_and, Option.any_some]

/-- Counting an end that has just got its first entry, or one more. -/
theorem Inv.takeEnd (h : Inv e s T hand) (hf : f.IsPipe n) (hgood : Good s f)
    {φ : Vnode → Vnode} (hφ : KeepsVnode φ)
    (href : total s hand (File.refers n) + 1 ≤ (φ (s.vnode n)).refcount) :
    Inv e ((addCount s n 1).modifyVnode n φ) T (f :: hand) := by
  have hq : Quiet s ((addCount s n 1).modifyVnode n φ) :=
    (quiet_addCount s n 1).trans (quiet_modifyVnode _ n hφ)
  have hvnode : (addCount s n 1).vnode = s.vnode := by rw [addCount_eq]
  refine h.quiet hq (h.table.take hq.toRecount hgood ?_ ?_)
  · intro m hm
    rw [hf.refers, modifyVnode_refcount, hvnode]
    split_ifs with hmn
    · subst hmn
      simpa using href
    · simpa [hmn] using h.table.held m hm
  · intro p _ type htype
    rw [hf.atEnd]
    show ((addCount s n 1).pipe p).count type = _
    rw [addCount_count s n 1 p htype]
    cases (s.vnode n).isEnd type p <;> rfl

theorem Inv.freePipe (h : Inv e s T hand) (hp : (s.pipe p).unused = true) :
    Inv e (s.freePipe p) T hand := by
  simp only [Pipe.unused, and_eq_true, decide_eq_true_eq, or_eq_true, not_eq_true'] at hp
  obtain ⟨⟨hr, hw⟩, hflags⟩ := hp
  exact
    { tree := h.tree.congr rfl rfl rfl rfl
      bufs := h.bufs.frame (Subset.refl _) fun _ hn _ hb => ⟨hn, hb⟩
      table := h.table.freePipe hr hw
      fifos := h.fifos.frame (fun _ _ _ => rfl) (fun _ _ _ => rfl) fun q hq hsh hd => by
        -- the pipe of a FIFO is shared and not dead, so it is not the one that goes
        have hqp : q ≠ p := by
          rintro rfl
          rw [hsh, hd] at hflags
          rcases hflags with hflags | hflags <;> cases hflags
        exact ⟨mem_erase_of_ne_of_mem hqp hq, hsh, hd⟩ }

/-- **Giving up a reference to an end**, which may free the end and the pipe. -/
theorem Inv.drop (h : Inv e s T (f :: hand)) (hf : f.IsPipe n) : Inv e (dropEnd s n) T hand := by
  have hgood := h.table.good f (.inl mem_cons_self)
  obtain ⟨m, hlive, hnode, hend, p, hp, hpriv⟩ := hgood.pipe hf.1 hf.2.1
  rw [hf.2.2, Option.some.injEq] at hnode
  subst hnode
  have hvnode : (addCount s n (-1)).vnode = s.vnode := by rw [addCount_eq]
  obtain ⟨s1, hs1⟩ : ∃ s1, s1 = (addCount s n (-1)).modifyVnode n Vnode.unref := ⟨_, rfl⟩
  have hq : Quiet s s1 := by
    rw [hs1]
    exact (quiet_addCount s n (-1)).trans (quiet_modifyVnode _ n keeps_unref)
  have h1 : Inv e s1 T hand := by
    refine h.quiet hq (h.table.untake hq.toRecount ?_ ?_)
    · intro m _
      rw [hf.refers, hs1, ← hvnode]
      exact unref_refcount _ n m
    · intro q _ type htype
      rw [hf.atEnd, hs1]
      show ((addCount s n (-1)).pipe q).count type = _
      rw [addCount_count s n (-1) q htype]
      cases (s.vnode n).isEnd type q
      · exact (Int.add_zero _).trans (Int.sub_zero _).symm
      · rfl
  have hT : T n = none := by
    refine Option.eq_none_iff_forall_ne_some.mpr fun r hT => ?_
    obtain ⟨-, hR, hW⟩ := h.tree.kind n r hT
    exact hend.elim hR hW
  obtain ⟨s2, hs2⟩ : ∃ s2, s2 = (if (s1.vnode n).refcount = 0 then s1.freeVnode n else s1) :=
    ⟨_, rfl⟩
  have h2 : Inv e s2 T hand := by
    rw [hs2]
    split_ifs with hzero
    · have hnone : total s1 hand (File.refers n) = 0 := by
        have := h1.table.held n (by rw [hq.live]; exact hlive)
        omega
      exact h1.freeVnode hT hnone
    · exact h1
  have heq : dropEnd s n =
      if (s2.pipe p).unused then s2.freePipe p
      else if (s2.pipe p).shared then s2 else s2.modifyPipe p Pipe.wake := by
    rw [dropEnd, hpriv, hs2, hs1]
  rw [heq]
  split_ifs with hun hsh
  · exact h2.freePipe hun
  · exact h2
  · exact h2.modifyPipe p fun _ => ⟨rfl, rfl, rfl, rfl⟩

/-! ### Entries -/

theorem addCount_setFd (s : Files) (n : ℕ) (d : ℤ) (t : ℕ) (i : Fin 32) (f : File) :
    addCount (s.setFd t i f) n d = (addCount s n d).setFd t i f := by
  simp only [addCount, show (s.setFd t i f).vnode = s.vnode from rfl]
  split <;> rfl

theorem threadRefFd_setFd (s : Files) (g : File) (t : ℕ) (i : Fin 32) (f : File) :
    threadRefFd (s.setFd t i f) g = (threadRefFd s g).setFd t i f := by
  simp only [threadRefFd]
  split
  · split
    · rfl
    · rw [addCount_setFd]
      rfl
    · rfl
  · rfl

theorem vfsRelease_setFd (s : Files) (n t : ℕ) (i : Fin 32) (f : File) :
    vfsRelease (s.setFd t i f) n = (vfsRelease s n).setFd t i f := by
  simp only [vfsRelease,
    show ((s.setFd t i f).modifyVnode n Vnode.unref).vnode =
      (s.modifyVnode n Vnode.unref).vnode from rfl]
  split_ifs <;> rfl

theorem dropEnd_setFd (s : Files) (n t : ℕ) (i : Fin 32) (f : File) :
    dropEnd (s.setFd t i f) n = (dropEnd s n).setFd t i f := by
  obtain ⟨s1, hs1⟩ : ∃ s1, s1 = (addCount s n (-1)).modifyVnode n Vnode.unref := ⟨_, rfl⟩
  have hs1' : (addCount (s.setFd t i f) n (-1)).modifyVnode n Vnode.unref = s1.setFd t i f := by
    rw [addCount_setFd, hs1]
    rfl
  simp only [dropEnd, hs1', ← hs1, show (s.setFd t i f).vnode = s.vnode from rfl,
    show (s1.setFd t i f).vnode = s1.vnode from rfl]
  by_cases hzero : (s1.vnode n).refcount = 0
  · simp only [if_pos hzero]
    cases (s.vnode n).priv with
    | none => rfl
    | some p =>
      simp only [show ((s1.setFd t i f).freeVnode n).pipe = (s1.freeVnode n).pipe from rfl]
      split_ifs <;> rfl
  · simp only [if_neg hzero]
    cases (s.vnode n).priv with
    | none => rfl
    | some p =>
      simp only [show (s1.setFd t i f).pipe = s1.pipe from rfl]
      split_ifs <;> rfl

/-- **Counting a copy** of an entry. -/
theorem Inv.threadRef (h : Inv e s T hand) (hf : Has s hand f) :
    Inv e (threadRefFd s f) T (f :: hand) := by
  have hgood := h.table.good f hf
  -- an entry that refers to nothing is in hand without more ado
  have hnothing : (∀ n, f.refers n = false) → (∀ type p, s.atEnd type p f = false) →
      Inv e s T (f :: hand) := by
    intro href hend
    refine h.quiet (Quiet.refl s) (h.table.take (Quiet.refl s).toRecount hgood ?_ ?_)
    · intro n hn
      rw [href]
      exact h.table.held n hn
    · intro p _ type _
      rw [hend]
      exact (Int.add_zero _).symm
  cases hu : f.used with
  | false =>
    rw [threadRefFd, hu]
    exact hnothing (fun n => File.refers_of_unused hu) (fun type p => atEnd_of_unused hu)
  | true =>
    cases hk : f.kind with
    | vnode =>
      obtain ⟨n, hn, hnode⟩ := hgood.vnode hu hk
      rw [threadRefFd, if_pos hu, hk, hnode]
      exact h.ref hn ⟨hu, hk, hnode⟩
    | pipe =>
      obtain ⟨n, hn, hnode, -⟩ := hgood.pipe hu hk
      rw [threadRefFd, if_pos hu, hk, hnode]
      exact h.takeEnd ⟨hu, hk, hnode⟩ hgood keeps_ref (Nat.succ_le_succ (h.table.held n hn))
    | _ =>
      rw [threadRefFd, if_pos hu, hk]
      refine hnothing ?_ ?_
      · intro n
        simp [File.refers, hk]
      · intro type p
        simp [atEnd, hk]

theorem Inv.put (h : Inv e s T (f :: hand)) (ht : t ∈ s.threads) (hi : (s.fds t i).used = false) :
    Inv e (s.setFd t i f) T hand :=
  h.tables rfl (h.table.put ht hi)

theorem threadRefFd_tables (s : Files) (f : File) :
    (threadRefFd s f).fds = s.fds ∧ (threadRefFd s f).threads = s.threads := by
  rw [threadRefFd]
  split_ifs
  · split
    · exact ⟨rfl, rfl⟩
    · rw [addCount_eq]
      exact ⟨rfl, rfl⟩
    · exact ⟨rfl, rfl⟩
  · exact ⟨rfl, rfl⟩

/-- **Copying** an entry into a free place. -/
theorem Inv.copy (h : Inv e s T hand) (hf : Has s hand f) (ht : t ∈ s.threads)
    (hi : (s.fds t i).used = false) : Inv e (copyFd s f t i) T hand := by
  rw [copyFd, threadRefFd_setFd]
  refine (h.threadRef hf).put ?_ ?_
  · rw [(threadRefFd_tables s f).2]
    exact ht
  · rw [(threadRefFd_tables s f).1]
    exact hi

theorem Inv.forget (h : Inv e s T (f :: hand))
    (hend : ∀ type p, s.atEnd type p f = false) : Inv e s T hand := by
  refine h.quiet (Quiet.refl s) (h.table.untake (Quiet.refl s).toRecount ?_ ?_)
  · intro n _
    exact Nat.le_add_right _ _
  · intro p _ type _
    rw [hend]
    exact (Int.sub_zero _).symm

section

variable (h : Inv e s T hand)
include h

/-- **Closing** an entry in use. -/
theorem Inv.close (ht : t ∈ s.threads) (hu : (s.fds t i).used = true) :
    Inv e (closeEntry s t i) T hand := by
  have hpull : Inv e (s.setFd t i (s.fds t i).closed) T (s.fds t i :: hand) :=
    h.tables rfl (h.table.pull ht rfl)
  have hgood := h.table.good _ (has_table ht i)
  cases hk : (s.fds t i).kind with
  | vnode =>
    obtain ⟨n, -, hnode⟩ := hgood.vnode hu hk
    simp only [closeEntry, hk, hnode]
    rw [← vfsRelease_setFd]
    exact hpull.release ⟨hu, hk, hnode⟩
  | pipe =>
    obtain ⟨n, -, hnode, -⟩ := hgood.pipe hu hk
    simp only [closeEntry, hk, hnode]
    rw [← dropEnd_setFd]
    exact hpull.drop ⟨hu, hk, hnode⟩
  | _ =>
    simp only [closeEntry, hk]
    refine hpull.forget ?_
    intro type p
    simp [atEnd, hk]

/-- A new vnode that is in no tree yet. -/
theorem Inv.newVnode (hn : n ∉ s.live) {v : Vnode} (hd : v.data = none) :
    Inv e (s.newVnode n v) T hand where
  tree := h.tree.newVnode hn v
  bufs := by
    refine h.bufs.frame (Subset.refl _) ?_
    intro m hm b hb
    by_cases hmn : m = n
    · rw [hmn, newVnode_vnode_self, hd] at hb
      cases hb
    · rw [newVnode_vnode_of_ne s v hmn] at hb
      exact ⟨(mem_insert.mp hm).resolve_left hmn, hb⟩
  table := h.table.newVnode hn v
  fifos := by
    have hne : ∀ m r, T m = some r → m ≠ n := by
      rintro m r hm rfl
      exact hn (h.tree.mem m r hm).2
    exact h.fifos.frame (fun m r hm => by rw [newVnode_vnode_of_ne s v (hne m r hm)])
      (fun m r hm => by rw [newVnode_vnode_of_ne s v (hne m r hm)])
      fun p hp hsh hd => ⟨hp, hsh, hd⟩

theorem Inv.newPipe (hp : p ∉ s.pipes) {x : Pipe} (hr : x.nreaders = 0) (hw : x.nwriters = 0) :
    Inv e (s.newPipe p x) T hand where
  tree := h.tree.congr rfl rfl rfl rfl
  bufs := h.bufs.frame (Subset.refl _) fun _ hn _ hb => ⟨hn, hb⟩
  table := h.table.newPipe hp hr hw
  fifos := h.fifos.frame (fun _ _ _ => rfl) (fun _ _ _ => rfl) fun q hq hsh hd => by
    have hqp : q ≠ p := by
      rintro rfl
      exact hp hq
    rw [show (s.newPipe p x).pipe q = s.pipe q from update_of_ne hqp ..]
    exact ⟨mem_insert_of_mem hq, hsh, hd⟩

/-- **A new end** of a pipe, counted and in hand. -/
theorem Inv.newEnd (hn : n ∉ s.live) (hp : p ∈ s.pipes) (htype : type.IsEnd) (hf : f.IsPipe n) :
    Inv e (addCount (s.newVnode n (Vnode.pipeEnd type p)) n 1) T (f :: hand) := by
  have h1 : Inv e (s.newVnode n (Vnode.pipeEnd type p)) T hand := h.newVnode hn rfl
  have hgood : Good (s.newVnode n (Vnode.pipeEnd type p)) f := by
    refine ⟨fun _ hk => ?_, fun _ _ => ⟨n, mem_insert_self .., hf.2.2, ?_, p, hp, ?_⟩⟩
    · rw [hf.2.1] at hk
      cases hk
    · rw [newVnode_vnode_self]
      exact htype
    · rw [newVnode_vnode_self]
      rfl
  have hid : ∀ s : Files, s.modifyVnode n id = s := by
    intro s
    rw [modifyVnode, id, update_eq_self]
  have hzero : total (s.newVnode n (Vnode.pipeEnd type p)) hand (File.refers n) = 0 :=
    h.table.refers_fresh hn
  have := h1.takeEnd hf hgood keeps_id (by rw [hzero, id, newVnode_vnode_self]; exact le_refl 1)
  rwa [hid] at this

end

/-! ### Loops over a table -/

theorem copyFd_fds (s : Files) (f : File) (t : ℕ) (i : Fin 32) :
    (copyFd s f t i).fds = setEntry s.fds t i f := by
  rw [copyFd, (threadRefFd_tables _ f).1]
  rfl

theorem copyFd_threads (s : Files) (f : File) (t : ℕ) (i : Fin 32) :
    (copyFd s f t i).threads = s.threads := by
  rw [copyFd, (threadRefFd_tables _ f).2]
  rfl

/-- **Inheriting** a table into an empty one. -/
theorem Inv.inherit (h : Inv e s T hand) {parent : ℕ} (ht : t ∈ s.threads)
    (hparent : parent ∈ s.threads) (hempty : ∀ i, (s.fds t i).used = false) :
    Inv e (threadInheritVfs s t parent) T hand := by
  -- the entries that the loop has still to write are free
  have hloop : ∀ (l : List (Fin 32)) (s : Files), l.Nodup → Inv e s T hand → t ∈ s.threads →
      parent ∈ s.threads → (∀ i ∈ l, (s.fds t i).used = false) →
      Inv e (l.foldl (fun s i => copyFd s (s.fds parent i) t i) s) T hand := by
    intro l
    induction l with
    | nil =>
      intro s _ h _ _ _
      exact h
    | cons i l ih =>
      intro s hnd h ht hparent hfree
      obtain ⟨hi, hnd⟩ := nodup_cons.mp hnd
      refine ih _ hnd (h.copy (has_table hparent i) ht (hfree i mem_cons_self)) ?_ ?_ ?_
      · rw [copyFd_threads]
        exact ht
      · rw [copyFd_threads]
        exact hparent
      · intro j hj
        have hji : j ≠ i := by
          rintro rfl
          exact hi hj
        rw [copyFd_fds, setEntry_of_ne _ _ (.inr hji)]
        exact hfree j (mem_cons_of_mem i hj)
  exact hloop _ s (nodup_finRange 32) h ht hparent (fun i _ => hempty i)

theorem vfsRelease_tables (s : Files) (n : ℕ) :
    (vfsRelease s n).fds = s.fds ∧ (vfsRelease s n).threads = s.threads := by
  rw [vfsRelease]
  split_ifs <;> exact ⟨rfl, rfl⟩

theorem dropEnd_tables (s : Files) (n : ℕ) :
    (dropEnd s n).fds = s.fds ∧ (dropEnd s n).threads = s.threads := by
  have hcount : (addCount s n (-1)).fds = s.fds ∧ (addCount s n (-1)).threads = s.threads := by
    rw [addCount_eq]
    exact ⟨rfl, rfl⟩
  simp only [dropEnd]
  cases (s.vnode n).priv with
  | none | some =>
    dsimp only
    split_ifs <;> exact hcount

theorem closeEntry_tables (s : Files) (t : ℕ) (i : Fin 32) :
    (closeEntry s t i).fds = setEntry s.fds t i (s.fds t i).closed ∧
      (closeEntry s t i).threads = s.threads := by
  simp only [closeEntry]
  split
  · rename_i n _ _
    obtain ⟨hfds, hthreads⟩ := dropEnd_tables s n
    exact ⟨by rw [setFd, hfds], hthreads⟩
  · rename_i n _ _
    obtain ⟨hfds, hthreads⟩ := vfsRelease_tables s n
    exact ⟨by rw [setFd, hfds], hthreads⟩
  · exact ⟨rfl, rfl⟩

/-- **Closing a table** leaves no entry in use. -/
theorem Inv.closeAll (h : Inv e s T hand) (ht : t ∈ s.threads) :
    Inv e (threadCloseFds s t) T hand ∧ (threadCloseFds s t).threads = s.threads ∧
      ∀ i, ((threadCloseFds s t).fds t i).used = false := by
  have hloop : ∀ (l : List (Fin 32)) (s : Files), Inv e s T hand → t ∈ s.threads →
      ∀ s', s' = l.foldl (fun s i => if (s.fds t i).used then closeEntry s t i else s) s →
      Inv e s' T hand ∧ s'.threads = s.threads ∧
        ∀ i, (i ∈ l ∨ (s.fds t i).used = false) → (s'.fds t i).used = false := by
    intro l
    induction l with
    | nil =>
      rintro s h _ s' rfl
      refine ⟨h, rfl, fun i hi => ?_⟩
      rcases hi with hi | hi
      · cases hi
      · exact hi
    | cons j l ih =>
      intro s h ht s' hs'
      rw [foldl_cons] at hs'
      cases hu : (s.fds t j).used with
      | false =>
        rw [hu] at hs'
        obtain ⟨hinv, hthreads, hfree⟩ := ih s h ht s' hs'
        refine ⟨hinv, hthreads, fun i hi => hfree i ?_⟩
        rcases hi with hi | hi
        · rcases mem_cons.mp hi with rfl | hi
          · exact .inr hu
          · exact .inl hi
        · exact .inr hi
      | true =>
        rw [hu, if_pos rfl] at hs'
        obtain ⟨hfds, hth⟩ := closeEntry_tables s t j
        obtain ⟨hinv, hthreads, hfree⟩ := ih _ (h.close ht hu) (by rw [hth]; exact ht) s' hs'
        refine ⟨hinv, hthreads.trans hth, fun i hi => hfree i ?_⟩
        rw [hfds]
        by_cases hij : i = j
        · subst hij
          rw [setEntry_self]
          exact .inr rfl
        · rw [setEntry_of_ne _ _ (.inr hij)]
          rcases hi with hi | hi
          · exact .inl ((mem_cons.mp hi).resolve_left hij)
          · exact .inr hi
  obtain ⟨hinv, hthreads, hfree⟩ := hloop (finRange 32) s h ht _ rfl
  exact ⟨hinv, hthreads, fun i => hfree i (.inl (mem_finRange i))⟩

end AxiomeOS.Vfs
