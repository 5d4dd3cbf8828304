import AxiomeOS.Vfs.Directory

/-!
# What the system calls keep

Each system call on files keeps the invariant of the files, with nothing in hand before and after
it, under two conditions on the state it is made in.  The vnodes that it removes are referred to by
no descriptor (`Removes`, `Closed`); and, where exact counts are asked for, `vfs_ensure_proc` does
not overwrite the end of a pipe (`EnsureSafe`).  `inv_call` is the step lemma for all calls.
-/

namespace AxiomeOS.Vfs

open Tally Function

variable {i : Fin 32} {n : ℕ}

variable {s s' : Files} {T : ℕ → Option ℕ} {hand : List File} {e : Prop} {f : File} {t : ℕ}

/-! ### Setting up the standard descriptors -/

/-- If `vfs_ensure_proc` sets up the descriptors 0, 1 and 2, none of them is the end of a pipe. -/
def EnsureSafe (s : Files) (t : ℕ) : Prop :=
  ((s.fds t 0).used && (s.fds t 1).used && (s.fds t 2).used) = false →
    ∀ i : Fin 32, i.val < 3 → (s.fds t i).used = true → (s.fds t i).kind ≠ .pipe

instance (s : Files) (t : ℕ) : Decidable (EnsureSafe s t) := by
  unfold EnsureSafe
  infer_instance

theorem vfsEnsureProc_eq (s : Files) (t : ℕ) :
    vfsEnsureProc s t = { s with fds := (vfsEnsureProc s t).fds } := by
  rw [vfsEnsureProc]
  split_ifs <;> rfl

variable {j : Fin 32} {fd : ℤ} {off r : ℕ} {flags' : OpenFlags} {c : Call}

theorem setFd_fds_of_ne (s : Files) (t : ℕ) (f : File) (h : i ≠ j) :
    (s.setFd t j f).fds t i = s.fds t i :=
  setEntry_of_ne _ _ (.inr h)

theorem vfsEnsureProc_cases (s : Files) (t : ℕ) : vfsEnsureProc s t = s ∨
    ((s.fds t 0).used && (s.fds t 1).used && (s.fds t 2).used) = false ∧
      vfsEnsureProc s t = (((s.setFd t 0 ((s.fds t 0).std .ttyIn)).setFd t 1
        ((s.fds t 1).std .consoleOut)).setFd t 2 ((s.fds t 2).std .consoleOut)) := by
  cases hu : (s.fds t 0).used && (s.fds t 1).used && (s.fds t 2).used with
  | true => exact .inl (if_pos hu)
  | false =>
    refine .inr ⟨rfl, ?_⟩
    rw [vfsEnsureProc, hu, if_neg Bool.false_ne_true]
    dsimp only
    rw [setFd_fds_of_ne s t _ (show (1 : Fin 32) ≠ 0 by decide),
      setFd_fds_of_ne _ t _ (show (2 : Fin 32) ≠ 1 by decide), setFd_fds_of_ne s t _ (by decide)]

/-- **Setting up** loses references, but under the condition no end of a pipe. -/
theorem inv_ensure (h : Inv e s T hand) (ht : t ∈ s.threads) (hsafe : e → EnsureSafe s t) :
    Inv e (vfsEnsureProc s t) T hand := by
  rcases vfsEnsureProc_cases s t with heq | ⟨hu, heq⟩
  · rw [heq]
    exact h
  · rw [heq]
    have hold : ∀ i : Fin 32, i.val < 3 → e → (s.fds t i).used = true → (s.fds t i).kind ≠ .pipe :=
      fun i hi he => hsafe he hu i hi
    have hstd : ∀ (kind : FdKind) (g : File), kind ≠ .vnode ∧ kind ≠ .pipe →
        (g.std kind).kind ≠ .vnode ∧ (g.std kind).kind ≠ .pipe := fun _ _ hk => hk
    have h0 := h.table.overwrite ht (hstd .ttyIn (s.fds t 0) (by decide)) (hold 0 (by decide))
    have h1 := h0.overwrite ht (i := 1) (hstd .consoleOut (s.fds t 1) (by decide)) (by
      rw [setFd_fds_of_ne s t _ (by decide)]
      exact hold 1 (by decide))
    have h2 := h1.overwrite ht (i := 2) (hstd .consoleOut (s.fds t 2) (by decide)) (by
      rw [setFd_fds_of_ne _ t _ (by decide), setFd_fds_of_ne s t _ (by decide)]
      exact hold 2 (by decide))
    exact h.tables rfl h2

theorem vfsEnsureProc_idem (s : Files) (t : ℕ) :
    vfsEnsureProc (vfsEnsureProc s t) t = vfsEnsureProc s t := by
  rcases vfsEnsureProc_cases s t with h | ⟨-, h⟩ <;> rw [h]
  · exact h
  · rw [vfsEnsureProc, if_pos (by simp [Files.setFd, setEntry, File.std])]

/-- An entry is as it was, or one of the three that have been set up. -/
theorem vfsEnsureProc_entry (s : Files) (t u : ℕ) (i : Fin 32) :
    (vfsEnsureProc s t).fds u i = s.fds u i ∨
      ((s.fds t 0).used && (s.fds t 1).used && (s.fds t 2).used) = false ∧ i.val < 3 ∧
        ((vfsEnsureProc s t).fds u i).kind ≠ .vnode ∧
        ((vfsEnsureProc s t).fds u i).kind ≠ .pipe := by
  rcases vfsEnsureProc_cases s t with h | ⟨hu, h⟩
  · exact .inl (by rw [h])
  · rw [h]
    have hset : ∀ (s : Files) (j : Fin 32) (g : File) (kind : FdKind),
        j.val < 3 ∧ kind ≠ .vnode ∧ kind ≠ .pipe →
        (s.setFd t j (g.std kind)).fds u i = s.fds u i ∨ i.val < 3 ∧
          ((s.setFd t j (g.std kind)).fds u i).kind ≠ .vnode ∧
            ((s.setFd t j (g.std kind)).fds u i).kind ≠ .pipe := by
      intro s j g kind hk
      by_cases hui : u = t ∧ i = j
      · obtain ⟨rfl, rfl⟩ := hui
        rw [show (s.setFd u i (g.std kind)).fds u i = g.std kind from setEntry_self ..]
        exact .inr hk
      · exact .inl (setEntry_of_ne _ _ (not_and_or.mp hui))
    rcases hset _ 2 (s.fds t 2) .consoleOut (by decide) with h2 | h2
    · rw [h2]
      rcases hset _ 1 (s.fds t 1) .consoleOut (by decide) with h1 | h1
      · rw [h1]
        exact (hset s 0 (s.fds t 0) .ttyIn (by decide)).imp_right fun h0 => ⟨hu, h0⟩
      · exact .inr ⟨hu, h1⟩
    · exact .inr ⟨hu, h2⟩

/-! ### Numbers of descriptors -/

theorem fdAlloc_free (h : fdAlloc s t = some i) : (s.fds t i).used = false := by
  have := List.find?_some h
  simpa using this

theorem usedFd_used (h : usedFd s t fd = some i) : toFd fd = some i ∧ (s.fds t i).used = true :=
  Option.filter_eq_some_iff.mp h

theorem usedFd_of_toFd (h : toFd fd = some i) (hu : (s.fds t i).used = true) :
    usedFd s t fd = some i :=
  Option.filter_eq_some_iff.mpr ⟨h, hu⟩

/-! ### Closing, copying and pipes

The calls are looked at after `vfs_ensure_proc`, which changes nothing more (`Ensured`). -/

/-- The standard descriptors of the thread are set up. -/
def Ensured (s : Files) (t : ℕ) : Prop := vfsEnsureProc s t = s

theorem inv_sysClose (h : Inv e s T []) (ht : t ∈ s.threads) (hens : Ensured s t) (fd : ℤ) :
    Inv e (sysClose s t fd).1 T [] := by
  rw [sysClose, hens]
  cases hfd : usedFd s t fd with
  | none => exact h
  | some i => exact h.close ht (usedFd_used hfd).2

theorem inv_sysDup2 (h : Inv e s T []) (ht : t ∈ s.threads) (hens : Ensured s t)
    (oldfd newfd : ℤ) : Inv e (sysDup2 s t oldfd newfd).1 T [] := by
  rw [sysDup2, hens]
  cases hold : usedFd s t oldfd with
  | none => exact h
  | some i =>
    cases hnew : toFd newfd with
    | none => exact h
    | some j =>
      dsimp only
      by_cases hij : i = j
      · rw [if_pos hij]
        exact h
      rw [if_neg hij]
      cases hu : (s.fds t j).used with
      | false =>
        rw [if_neg Bool.false_ne_true]
        exact h.copy (has_table ht i) ht hu
      | true =>
        -- the descriptor that is overwritten is closed first, and the other one is still there
        have hclose : (sysClose s t newfd).1 = closeEntry s t j := by
          rw [sysClose, hens, usedFd_of_toFd hnew hu]
        obtain ⟨hfds, hthreads⟩ := closeEntry_tables s t j
        have ht2 : t ∈ (closeEntry s t j).threads := by
          rw [hthreads]
          exact ht
        rw [if_pos rfl, hclose]
        refine (h.close ht hu).copy (has_table ht2 i) ht2 ?_
        rw [hfds, setEntry_self]
        rfl

/-- A new pipe with both ends is a pipe that counts nothing, whose ends are then counted. -/
theorem newPipe_ends (s : Files) (p r w : ℕ) :
    ((s.newPipe p newPipe).newVnode r (Vnode.pipeEnd .pipeR p)).newVnode w
        (Vnode.pipeEnd .pipeW p) =
      addCount ((addCount ((s.newPipe p { newPipe with nreaders := 0, nwriters := 0 }).newVnode r
        (Vnode.pipeEnd .pipeR p)) r 1).newVnode w (Vnode.pipeEnd .pipeW p)) w 1 := by
  have hR : ∀ s : Files, addCount (s.newVnode r (Vnode.pipeEnd .pipeR p)) r 1 =
      (s.newVnode r (Vnode.pipeEnd .pipeR p)).modifyPipe p fun x =>
        { x with nreaders := x.nreaders + 1 } := by
    intro s
    rw [addCount, newVnode_vnode_self]
    rfl
  have hW : ∀ s : Files, addCount (s.newVnode w (Vnode.pipeEnd .pipeW p)) w 1 =
      (s.newVnode w (Vnode.pipeEnd .pipeW p)).modifyPipe p fun x =>
        { x with nwriters := x.nwriters + 1 } := by
    intro s
    rw [addCount, newVnode_vnode_self]
    rfl
  rw [hW, hR]
  simp only [Files.newPipe, Files.newVnode, Files.modifyPipe, update_self,
    update_idem, newPipe, zero_add]

theorem setFd_comm (s : Files) (t : ℕ) (hij : j ≠ i) (f g : File) :
    (s.setFd t i f).setFd t j g = (s.setFd t j g).setFd t i f := by
  simp only [Files.setFd, setEntry, update_self, update_idem, update_comm hij]

theorem inv_sysPipe (h : Inv e s T []) (ht : t ∈ s.threads) (hens : Ensured s t) (m : Mem) :
    Inv e (sysPipe s t m).1 T [] := by
  rw [sysPipe, hens]
  cases hp : m.pipe.pick s.pipes with
  | none => exact h
  | some p =>
  cases hr : m.vnode.pick s.live with
  | none => exact h
  | some r =>
  dsimp only
  cases hw : m.vnode.pick (insert r s.live) with
  | none => exact h
  | some w =>
  cases hi : fdAlloc s t with
  | none => exact h
  | some i =>
  dsimp only
  cases hj : fdAlloc (s.setFd t i { s.fds t i with used := true }) t with
  | none => exact h
  | some j =>
  dsimp only
  cases m.pipeBuf with
  | false => exact h
  | true =>
  have hpf := m.pipe.fresh _ _ hp
  have hrf := m.vnode.fresh _ _ hr
  have hwf := m.vnode.fresh _ _ hw
  have hfi := fdAlloc_free hi
  have hfj := fdAlloc_free hj
  have hij : j ≠ i := by
    rintro rfl
    rw [show (s.setFd t j { s.fds t j with used := true }).fds t j =
      { s.fds t j with used := true } from setEntry_self ..] at hfj
    cases hfj
  have hfj' : (s.fds t j).used = false := by
    rwa [setFd_fds_of_ne s t _ hij] at hfj
  rw [if_pos rfl, newPipe_ends s p r w]
  -- both ends are made and counted, and are in hand until they are put into the table
  have h2 := h.newPipe hpf (x := { newPipe with nreaders := 0, nwriters := 0 }) rfl rfl
  have h3 := h2.newEnd hrf (Finset.mem_insert_self ..) (.inl rfl)
    (show ((s.fds t i).pipeEnd r).IsPipe r from ⟨rfl, rfl, rfl⟩)
  generalize hs1 : addCount (Files.newVnode _ r _) r 1 = s1 at h3 ⊢
  obtain ⟨hlive, hpipes, hfds1, hth1⟩ : s1.live = insert r s.live ∧ s1.pipes = insert p s.pipes ∧
      s1.fds = s.fds ∧ s1.threads = s.threads := by
    rw [← hs1, addCount_eq]
    exact ⟨rfl, rfl, rfl, rfl⟩
  have h4 := h3.newEnd (by rw [hlive]; exact hwf) (by rw [hpipes]; exact Finset.mem_insert_self ..)
    (.inr rfl) (show ((s.fds t j).pipeEnd w).IsPipe w from ⟨rfl, rfl, rfl⟩)
  generalize hs2 : addCount (s1.newVnode w _) w 1 = s2 at h4 ⊢
  obtain ⟨hfds2, hth2⟩ : s2.fds = s.fds ∧ s2.threads = s.threads := by
    rw [← hs2, addCount_eq]
    exact ⟨hfds1, hth1⟩
  rw [setFd_fds_of_ne s2 t _ hij, hfds2, setFd_comm s2 t hij]
  have h5 := h4.put (by rw [hth2]; exact ht) (by rw [hfds2]; exact hfj')
  refine h5.put (by rw [← hth2] at ht; exact ht) ?_
  rw [setFd_fds_of_ne s2 t _ hij.symm, hfds2]
  exact hfi

/-! ### Opening -/

/-- A file or directory found by its path is in the tree, and a reference to it has been taken. -/
theorem vfsLookup_cases (h : Tree s T) (root : ℕ) (rel : List Char) :
    vfsLookup s root rel = (s, none) ∨ ∃ n, T n = some root ∧
      ramfsWalk s root (components rel) = some n ∧
      vfsLookup s root rel = (s.modifyVnode n Vnode.ref, some n) := by
  rw [vfsLookup]
  split_ifs with hroot
  · cases hw : ramfsWalk s root (components rel) with
    | none => exact .inl rfl
    | some n => exact .inr ⟨n, h.walk _ (h.root root hroot).1 hw, rfl, rfl⟩
  · exact .inl rfl

/-- The entry that stands for a reference taken by a lookup. -/
def File.ofVnode (n : ℕ) (off : ℕ) (flags : OpenFlags) : File :=
  { used := true, kind := .vnode, node := some n, off := off, flags := flags }

/-- An entry of the hand for which there is no flag to know. -/
def File.held (n : ℕ) : File := File.ofVnode n 0 ⟨false, false, false, false, false⟩

theorem File.held_isVnode (n : ℕ) : (File.held n).IsVnode n := ⟨rfl, rfl, rfl⟩

theorem Inv.lookup (h : Inv e s T hand) (hn : T n = some r) :
    Inv e (s.modifyVnode n Vnode.ref) T (File.held n :: hand) :=
  h.ref (h.tree.mem n r hn).2 (File.held_isVnode n)

theorem Inv.unhold (h : Inv e s T (File.held n :: hand)) : Inv e (vfsRelease s n) T hand :=
  h.release (File.held_isVnode n)

/-- **Installing** a file whose reference is in hand, with whatever offset and flags. -/
theorem inv_installFile (h : ∀ f : File, f.IsVnode n → Inv e s T [f]) (ht : t ∈ s.threads)
    (flags : OpenFlags) : Inv e (installFile s t n flags).1 T [] := by
  rw [installFile]
  cases hi : fdAlloc s t with
  | none => exact (h _ (File.held_isVnode n)).unhold
  | some i => exact (h (File.ofVnode n _ flags) ⟨rfl, rfl, rfl⟩).put ht (fdAlloc_free hi)

/-- **Opening an end of a FIFO.** -/
theorem inv_openFifo (h : Inv e s T (File.held n :: [])) (hn : T n = some r)
    (htype : (s.vnode n).type = .fifo) (ht : t ∈ s.threads) (flags : OpenFlags) (m : Mem) :
    Inv e (openFifo s t n flags m).1 T [] := by
  rw [openFifo]
  cases hp : (s.vnode n).priv with
  | none => exact h.unhold
  | some p =>
    cases hpick : m.vnode.pick s.live with
    | none => exact h.unhold
    | some k =>
      cases hi : fdAlloc s t with
      | none => exact h.unhold
      | some i =>
        dsimp only
        have hk := m.vnode.fresh _ _ hpick
        obtain ⟨q, hq, hqp, -⟩ := h.fifos.pipe n r hn htype
        rw [hp, Option.some.injEq] at hqp
        subst hqp
        generalize htp : (if flags.wronly then VType.pipeW else .pipeR) = type
        have hend : type.IsEnd := by
          rw [← htp]
          cases flags.wronly
          · exact .inl rfl
          · exact .inr rfl
        -- the new end comes into the hand beside the FIFO, which is then given back
        have h1 := h.newEnd hk hq hend (f := ⟨true, .pipe, some k, 0, flags⟩) ⟨rfl, rfl, rfl⟩
        generalize hs1 : addCount (s.newVnode k _) k 1 = s1 at h1 ⊢
        have htables1 : s1.fds = s.fds ∧ s1.threads = s.threads := by
          rw [← hs1, addCount_eq]
          exact ⟨rfl, rfl⟩
        have h2 : Inv e s1 T (File.held n :: [⟨true, .pipe, some k, 0, flags⟩]) :=
          h1.quiet (.refl s1) (h1.table.perm (List.Perm.swap ..))
        obtain ⟨hfds, hthreads⟩ := vfsRelease_tables s1 n
        refine h2.unhold.put ?_ ?_
        · rw [hthreads, htables1.2]
          exact ht
        · rw [hfds, htables1.1]
          exact fdAlloc_free hi

theorem ramfsAddChild_threads (s : Files) (d n : ℕ) (m : Mem) :
    (ramfsAddChild s d n m).threads = s.threads := by
  rcases ramfsAddChild_cases s d n m with h | ⟨cap, h⟩
  · rw [h]
  · rw [h]
    rfl

theorem ramfsCreate_threads (s : Files) (root : ℕ) (rel : List Char) (type : VType) (m : Mem) :
    (ramfsCreate s root rel type m).1.threads = s.threads := by
  rw [ramfsCreate]
  split
  · rfl
  split_ifs
  · rfl
  · rfl
  all_goals split
  all_goals first | rfl | skip
  · split
    · rfl
    · exact ramfsAddChild_threads ..
  · split <;> rfl
  · exact ramfsAddChild_threads ..

/-- **Creating**, if the permission check allows it. -/
theorem inv_vfsCreate (h : Inv e s T hand) (root : ℕ) (rel : List Char) {type : VType}
    (htype : type ≠ .pipeR ∧ type ≠ .pipeW) (a : Access) (m : Mem) :
    ∃ T', Inv e (vfsCreate s root rel type a m).1 T' hand := by
  rw [vfsCreate]
  split_ifs with hgate
  · exact h.create hgate.2 rel htype m
  · exact ⟨T, h⟩

theorem inv_sysOpen (h : Inv e s T []) (ht : t ∈ s.threads) (hens : Ensured s t) (root : ℕ)
    (rel : List Char) (flags : OpenFlags) (a : Access) (m : Mem) :
    ∃ T', Inv e (sysOpen s t root rel flags a m).1 T' [] := by
  rw [sysOpen, hens]
  rcases vfsLookup_cases h.tree root rel with hl | ⟨n, hTn, -, hl⟩
  · rw [hl]
    dsimp only
    cases flags.creat with
    | false => exact ⟨T, h⟩
    | true =>
      obtain ⟨T1, h1⟩ := inv_vfsCreate h root rel
        (show VType.file ≠ .pipeR ∧ VType.file ≠ .pipeW by decide) a m
      have ht1 : t ∈ (vfsCreate s root rel .file a m).1.threads := by
        rw [vfsCreate]
        split_ifs
        · exact (ramfsCreate_threads s root rel .file m).symm ▸ ht
        · exact ht
      rw [if_pos rfl]
      generalize vfsCreate s root rel .file a m = c at h1 ht1 ⊢
      obtain ⟨s1, _ | _⟩ := c
      · exact ⟨T1, h1⟩
      · dsimp only at h1 ht1 ⊢
        rcases vfsLookup_cases h1.tree root rel with hl | ⟨n, hTn, -, hl⟩
        · rw [hl]
          exact ⟨T1, h1⟩
        · rw [hl]
          exact ⟨T1, inv_installFile (fun _ => h1.ref (h1.tree.mem n root hTn).2) ht1 flags⟩
  · have hlive := (h.tree.mem n root hTn).2
    have h1 := h.lookup hTn
    rw [hl]
    dsimp only
    by_cases hfifo : ((s.modifyVnode n Vnode.ref).vnode n).type = .fifo
    · rw [if_pos hfifo]
      exact ⟨T, inv_openFifo h1 hTn hfifo ht flags m⟩
    rw [if_neg hfifo]
    split_ifs
    · exact ⟨T, h1.unhold⟩
    · exact ⟨T, h1.unhold⟩
    · exact ⟨T, h1.unhold⟩
    · have htr : (truncate (s.modifyVnode n Vnode.ref) n).threads = s.threads := by
        rw [truncate, freeBuf_eq]
        rfl
      exact ⟨T, inv_installFile (fun _ hf => (h.ref hlive hf).trunc hlive) (by rw [htr]; exact ht)
        flags⟩
    · exact ⟨T, inv_installFile (fun _ => h.ref hlive) ht flags⟩

theorem inv_openForeign (h : Inv e s T []) (ht : t ∈ s.threads) (hens : Ensured s t)
    (name : List Char) (size : ℕ) (flags : OpenFlags) (m : Mem) :
    Inv e (openForeign s t name size flags m).1 T [] := by
  rw [openForeign, hens]
  cases hpick : m.vnode.pick s.live with
  | none => exact h
  | some n =>
    have hn := m.vnode.fresh _ _ hpick
    generalize hv : ({ Vnode.blank name .file with
      foreign := true, refcount := 1, size := if flags.trunc then 0 else size } : Vnode) = v
    have h2 : Inv e (s.newVnode n v) T [] := h.newVnode hn (by rw [← hv]; rfl)
    -- the vnode comes from the lookup with one reference, which is in hand
    have hzero : total (s.newVnode n v) [] (File.refers n) = 0 := h.table.refers_fresh hn
    have hq := Quiet.refl (s.newVnode n v)
    have h3 : ∀ f : File, f.IsVnode n → Inv e (s.newVnode n v) T [f] := by
      intro f hf
      refine h2.quiet hq (h2.table.take hq.toRecount (hf.good (Finset.mem_insert_self ..)) ?_ ?_)
      · intro k hk
        rw [hf.refers]
        by_cases hkn : k = n
        · rw [decide_eq_true hkn, hkn, hzero, newVnode_vnode_self, ← hv]
          exact le_refl 1
        · rw [decide_eq_false hkn]
          exact h2.table.held k hk
      · intro p _ type _
        rw [hf.atEnd]
        exact (Int.add_zero _).symm
    exact inv_installFile h3 ht flags

theorem inv_sysMknod {type : VType} (htype : type ≠ .pipeR ∧ type ≠ .pipeW) (h : Inv e s T [])
    (hens : Ensured s t) (root : ℕ) (rel : List Char) (a : Access) (m : Mem) :
    ∃ T', Inv e (sysMknod type s t root rel a m).1 T' [] := by
  rw [sysMknod, hens]
  rcases vfsLookup_cases h.tree root rel with hl | ⟨n, hTn, -, hl⟩
  · rw [hl]
    dsimp only
    obtain ⟨T1, h1⟩ := inv_vfsCreate h root rel htype a m
    generalize vfsCreate s root rel type a m = c at h1 ⊢
    obtain ⟨s1, _ | _⟩ := c <;> exact ⟨T1, h1⟩
  · rw [hl]
    exact ⟨T, (h.lookup hTn).unhold⟩

/-! ### Removing -/

/-- What resolving a path reads of a vnode. -/
structure PathView where
  name : List Char
  type : VType
  children : List ℕ
  parent : Option ℕ

def Vnode.pathView (v : Vnode) : PathView := ⟨v.name, v.type, v.children, v.parent⟩

/-- Both states resolve paths alike. -/
structure SamePaths (s s' : Files) : Prop where
  view : ∀ n, (s'.vnode n).pathView = (s.vnode n).pathView
  gRoot : s'.gRoot = s.gRoot

section SamePaths

variable (h : SamePaths s s')
include h

theorem SamePaths.name (n : ℕ) : (s'.vnode n).name = (s.vnode n).name :=
  congrArg PathView.name (h.view n)

theorem SamePaths.type (n : ℕ) : (s'.vnode n).type = (s.vnode n).type :=
  congrArg PathView.type (h.view n)

theorem SamePaths.children (n : ℕ) : (s'.vnode n).children = (s.vnode n).children :=
  congrArg PathView.children (h.view n)

theorem SamePaths.parent (n : ℕ) : (s'.vnode n).parent = (s.vnode n).parent :=
  congrArg PathView.parent (h.view n)

theorem SamePaths.findChild (d : ℕ) (name : List Char) :
    ramfsFindChild s' d name = ramfsFindChild s d name := by
  simp only [ramfsFindChild, h.children, h.name]

theorem SamePaths.walk (cur : ℕ) (comps : List (List Char)) :
    ramfsWalk s' cur comps = ramfsWalk s cur comps := by
  induction comps generalizing cur with
  | nil => rfl
  | cons seg rest ih => simp only [ramfsWalk, h.parent, h.type, h.findChild, ih]

theorem SamePaths.removeTarget (root : ℕ) (rel : List Char) :
    removeTarget s' root rel = removeTarget s root rel := by
  simp only [Vfs.removeTarget, h.walk, h.findChild, h.gRoot, h.type, h.children]

end SamePaths

theorem samePaths_ensure (s : Files) (t : ℕ) : SamePaths s (vfsEnsureProc s t) := by
  rw [vfsEnsureProc_eq]
  exact ⟨fun _ => rfl, rfl⟩

/-- A lookup that has been given back: only reference counts can have changed. -/
structure Undone (s s' : Files) : Prop extends SamePaths s s' where
  roots : s'.roots = s.roots
  fds : s'.fds = s.fds
  threads : s'.threads = s.threads

theorem Undone.trans {s₁ s₂ : Files} (h₁ : Undone s s₁) (h₂ : Undone s₁ s₂) : Undone s s₂ :=
  ⟨⟨fun n => (h₂.view n).trans (h₁.view n), h₂.gRoot.trans h₁.gRoot⟩, h₂.roots.trans h₁.roots,
    h₂.fds.trans h₁.fds, h₂.threads.trans h₁.threads⟩

theorem undone_ref (s : Files) (n : ℕ) : Undone s (s.modifyVnode n Vnode.ref) :=
  ⟨⟨modifyVnode_proj Vnode.pathView s n fun _ => rfl, rfl⟩, rfl, rfl, rfl⟩

theorem undone_release (s : Files) (n : ℕ) : Undone s (vfsRelease s n) := by
  have h := modifyVnode_proj Vnode.pathView s n (f := Vnode.unref) fun _ => rfl
  rw [vfsRelease]
  split_ifs <;> exact ⟨⟨h, rfl⟩, rfl, rfl, rfl⟩

/-- No descriptor of a thread refers to the vnode. -/
def Closed (s : Files) (n : ℕ) : Prop := ∀ t ∈ s.threads, ∀ i, (s.fds t i).refers n = false

instance (s : Files) (n : ℕ) : Decidable (Closed s n) := by
  unfold Closed
  infer_instance

theorem Closed.total (h : Closed s n) : total s [] (File.refers n) = 0 := by
  refine total_eq_zero fun f hf => ?_
  rcases hf with hf | ⟨t, ht, i, rfl⟩
  · cases hf
  · exact h t ht i

theorem Closed.state (h : Closed s n) (hfds : s'.fds = s.fds) (hth : s'.threads = s.threads) :
    Closed s' n := by
  intro t ht i
  rw [hth] at ht
  rw [hfds]
  exact h t ht i

theorem Closed.ensure (h : Closed s n) (t : ℕ) : Closed (vfsEnsureProc s t) n := by
  intro u hu i
  have hu' : u ∈ s.threads := by
    rw [vfsEnsureProc_eq] at hu
    exact hu
  rcases vfsEnsureProc_entry s t u i with heq | ⟨-, -, hv, hp⟩
  · rw [heq]
    exact h u hu' i
  · rw [Bool.eq_false_iff]
    intro hr
    obtain ⟨-, hk | hk, -⟩ := File.refers_eq_true.mp hr
    · exact hv hk
    · exact hp hk

/-- A directory that lists as empty. -/
def listsEmpty (s : Files) (n : ℕ) : Bool :=
  !(s.vnode n).children.any fun c => (s.vnode c).name ≠ ['.'] && (s.vnode c).name ≠ ['.', '.']

/-- **The vnodes that a call removes.** -/
def Removes (s : Files) : Call → ℕ → Prop
  | .unlink root rel a, n => a.gate = true ∧ root ∈ s.roots ∧
      (∃ m, ramfsWalk s root (components rel) = some m ∧ (s.vnode m).type ≠ .dir) ∧
      ∃ d, removeTarget s root rel = some (d, n)
  | .rmdir root rel a, n => a.gate = true ∧ root ∈ s.roots ∧
      (∃ m, ramfsWalk s root (components rel) = some m ∧ (s.vnode m).type = .dir ∧
        listsEmpty s m = true) ∧
      ∃ d, removeTarget s root rel = some (d, n)
  | .umount root, n => root ∈ s.roots ∧ root ≠ s.gRoot ∧ Under s root n
  | _, _ => False

theorem inv_vfsRemove (h : Inv e s' T []) (hu : Undone s s') (root : ℕ) (rel : List Char)
    (a : Access) (hclosed : a.gate = true → root ∈ s.roots →
      ∀ d n, removeTarget s root rel = some (d, n) → Closed s n) :
    ∃ T', Inv e (vfsRemove s' root rel a).1 T' [] := by
  rw [vfsRemove]
  split_ifs with hgate
  · refine h.remove hgate.2 rel fun d n hr => ?_
    rw [hu.removeTarget] at hr
    rw [hu.roots] at hgate
    exact ((hclosed hgate.1 hgate.2 d n hr).state hu.fds hu.threads).total
  · exact ⟨T, h⟩

theorem inv_sysUnlink (h : Inv e s T []) (hens : Ensured s t) (root : ℕ) (rel : List Char)
    (a : Access) (hclosed : ∀ n, Removes s (.unlink root rel a) n → Closed s n) :
    ∃ T', Inv e (sysUnlink s t root rel a).1 T' [] := by
  rw [sysUnlink, hens]
  rcases vfsLookup_cases h.tree root rel with hl | ⟨n, hTn, hw, hl⟩
  · rw [hl]
    exact ⟨T, h⟩
  rw [hl]
  dsimp only
  have hu := (undone_ref s n).trans (undone_release _ n)
  have h1 := (h.lookup hTn).unhold
  by_cases hdir : ((vfsRelease (s.modifyVnode n Vnode.ref) n).vnode n).type = .dir
  · rw [if_pos hdir]
    exact ⟨T, h1⟩
  rw [if_neg hdir]
  rw [hu.type] at hdir
  obtain ⟨T', h'⟩ := inv_vfsRemove h1 hu root rel a fun hgate hroot d k hr =>
    hclosed k ⟨hgate, hroot, ⟨n, hw, hdir⟩, d, hr⟩
  generalize vfsRemove _ root rel a = r at h' ⊢
  obtain ⟨s', _ | _⟩ := r <;> exact ⟨T', h'⟩

theorem inv_sysRmdir (h : Inv e s T []) (hens : Ensured s t) (root : ℕ) (rel : List Char)
    (a : Access) (hclosed : ∀ n, Removes s (.rmdir root rel a) n → Closed s n) :
    ∃ T', Inv e (sysRmdir s t root rel a).1 T' [] := by
  rw [sysRmdir, hens]
  rcases vfsLookup_cases h.tree root rel with hl | ⟨n, hTn, hw, hl⟩
  · rw [hl]
    exact ⟨T, h⟩
  rw [hl]
  dsimp only
  have h1 := h.lookup hTn
  by_cases hdir : ((s.modifyVnode n Vnode.ref).vnode n).type = .dir
  swap
  · rw [if_pos hdir]
    exact ⟨T, h1.unhold⟩
  rw [if_neg (not_not.mpr hdir)]
  rw [(undone_ref s n).type] at hdir
  -- the reference that listing the directory takes is never given back
  have h2 := (h1.leak n).unhold
  have hu := (undone_ref s n).trans ((undone_ref _ n).trans (undone_release _ n))
  generalize vfsRelease _ n = s2 at h2 hu ⊢
  by_cases hempty : ((s2.vnode n).children.any fun c =>
      (s2.vnode c).name ≠ ['.'] && (s2.vnode c).name ≠ ['.', '.']) = true
  · rw [if_pos hempty]
    exact ⟨T, h2⟩
  rw [if_neg hempty]
  have hlists : listsEmpty s n = true := by
    simp only [hu.children, hu.name] at hempty
    rw [listsEmpty, Bool.eq_false_iff.mpr hempty]
    rfl
  obtain ⟨T', h'⟩ := inv_vfsRemove h2 hu root rel a fun hgate hroot d k hr =>
    hclosed k ⟨hgate, hroot, ⟨n, hw, hdir, hlists⟩, d, hr⟩
  generalize vfsRemove s2 root rel a = r at h' ⊢
  obtain ⟨s', _ | _⟩ := r <;> exact ⟨T', h'⟩

/-! ### Reading and writing -/

theorem Inv.reoffset (h : Inv e s T hand) (ht : t ∈ s.threads) (i : Fin 32) (off : ℕ) :
    Inv e (s.setFd t i { s.fds t i with off := off }) T hand :=
  h.tables rfl (h.table.reoffset ht i off)

theorem inv_sysRead (h : Inv e s T []) (ht : t ∈ s.threads) (hens : Ensured s t) (fd : ℤ)
    (len : ℕ) (a : Access) : Inv e (sysRead s t fd len a).1 T [] := by
  rw [sysRead, hens]
  cases usedFd s t fd with
  | none => exact h
  | some i =>
    dsimp only
    split
    · split
      · split_ifs
        · exact h
        all_goals
          dsimp only
          exact h.modifyPipe _ fun _ => ⟨rfl, rfl, rfl, rfl⟩
      · exact h
    · split_ifs
      · exact h
      · exact h.reoffset ht i _
      · exact h.reoffset ht i _
    · exact h
    · exact h

theorem inv_vfsWrite (h : Inv e s T hand) (hn : n ∈ s.live) (off : ℕ) (bytes : List UInt8)
    (a : Access) (m : Mem) : Inv e (vfsWrite s n off bytes a m).1 T hand := by
  rw [vfsWrite]
  split_ifs
  · exact h
  · exact h
  · exact h
  · exact h.write hn off bytes m

theorem ramfsWrite_tables (s : Files) (n off : ℕ) (bytes : List UInt8) (m : Mem) :
    (ramfsWrite s n off bytes m).1.fds = s.fds ∧
    (ramfsWrite s n off bytes m).1.threads = s.threads := by
  rw [ramfsWrite]
  split_ifs
  · exact ⟨rfl, rfl⟩
  · cases hcap : ramfsEnsureCap s n (off + bytes.length) m with
    | none => exact ⟨rfl, rfl⟩
    | some s1 =>
      have htables : s1.fds = s.fds ∧ s1.threads = s.threads := by
        rw [ramfsEnsureCap] at hcap
        split_ifs at hcap
        · rw [← Option.some.inj hcap]
          exact ⟨rfl, rfl⟩
        · cases hpick : m.buf.pick s.bufs with
          | none => rw [hpick] at hcap; cases hcap
          | some b =>
            rw [hpick] at hcap
            rw [← Option.some.inj hcap, freeBuf_eq]
            exact ⟨rfl, rfl⟩
      dsimp only
      cases (s1.vnode n).data <;> exact htables

theorem vfsWrite_tables (s : Files) (n off : ℕ) (bytes : List UInt8) (a : Access) (m : Mem) :
    (vfsWrite s n off bytes a m).1.fds = s.fds ∧
      (vfsWrite s n off bytes a m).1.threads = s.threads := by
  rw [vfsWrite]
  split_ifs
  · exact ⟨rfl, rfl⟩
  · exact ⟨rfl, rfl⟩
  · exact ⟨rfl, rfl⟩
  · exact ramfsWrite_tables s n off bytes m

theorem Inv.entry_live (h : Inv e s T hand) (ht : t ∈ s.threads)
    (hu : (s.fds t i).used = true) (hk : (s.fds t i).kind = .vnode)
    (hn : (s.fds t i).node = some n) : n ∈ s.live :=
  (h.table.good _ (has_table ht i)).live (File.refers_eq_true.mpr ⟨hu, .inl hk, hn⟩)

theorem inv_sysWritePipe (h : Inv e s T hand) (n : ℕ) (bytes : List UInt8) (m : Mem) :
    Inv e (sysWritePipe s n bytes m).1 T hand := by
  rw [sysWritePipe]
  split
  · dsimp only
    split_ifs
    · exact h
    all_goals
      dsimp only
      exact h.modifyPipe _ fun _ => ⟨rfl, rfl, rfl, rfl⟩
  · exact h

section

variable (h : Inv e s T []) (ht : t ∈ s.threads) (hens : Ensured s t)
include h ht hens

theorem inv_sysWrite (fd : ℤ) (bytes : List UInt8) (a : Access) (m : Mem) :
    Inv e (sysWrite s t fd bytes a m).1 T [] := by
  rw [sysWrite, hens]
  cases hfd : usedFd s t fd with
  | none => exact h
  | some i =>
    have hu := (usedFd_used hfd).2
    dsimp only
    split
    · exact h
    · exact inv_sysWritePipe h _ bytes m
    · rename_i n hk hn
      generalize (if (s.fds t i).flags.append then (s.vnode n).size else (s.fds t i).off) = off
      have h2 := inv_vfsWrite h (h.entry_live ht hu hk hn) off bytes a m
      obtain ⟨hfds, hth⟩ := vfsWrite_tables s n off bytes a m
      generalize vfsWrite s n off bytes a m = out at h2 hfds hth ⊢
      rw [← hfds]
      exact h2.reoffset (by rw [hth]; exact ht) i _
    · exact h

theorem inv_sysPwrite (fd : ℤ) (bytes : List UInt8) (off : ℕ) (a : Access) (m : Mem) :
    Inv e (sysPwrite s t fd bytes off a m).1 T [] := by
  rw [sysPwrite, hens]
  cases hfd : usedFd s t fd with
  | none => exact h
  | some i =>
    dsimp only
    split
    · rename_i n hk hn
      exact inv_vfsWrite h (h.entry_live ht (usedFd_used hfd).2 hk hn) off bytes a m
    · exact h

theorem inv_sysLseek (fd offset : ℤ) (whence : Whence) :
    Inv e (sysLseek s t fd offset whence).1 T [] := by
  rw [sysLseek, hens]
  cases usedFd s t fd with
  | none => exact h
  | some i =>
    dsimp only
    split
    · split_ifs
      · exact h
      · exact h.reoffset ht i _
    · exact h

end

/-! ### Threads -/

theorem Inv.initThread (h : Inv e s T hand) {u : ℕ} (hu : u ∉ s.threads) :
    Inv e (threadInitVfs s u) T hand :=
  h.tables rfl (h.table.addThread hu fun _ => rfl)

theorem inv_startThread (h : Inv e s T []) (ht : t ∈ s.threads) (m : Alloc) :
    Inv e (startThread s t m) T [] := by
  rw [startThread]
  cases hpick : m.pick s.threads with
  | none => exact h
  | some u =>
    have hu := m.fresh _ _ hpick
    refine (h.initThread hu).inherit (Finset.mem_insert_self ..) (Finset.mem_insert_of_mem ht) ?_
    intro i
    rw [show (threadInitVfs s u).fds u = fun i => (s.fds u i).closed from update_self ..]
    rfl

theorem inv_startKernelThread (h : Inv e s T []) (m : Alloc) :
    Inv e (startKernelThread s m) T [] := by
  rw [startKernelThread]
  cases hpick : m.pick s.threads with
  | none => exact h
  | some u => exact h.initThread (m.fresh _ _ hpick)

theorem inv_threadExit (h : Inv e s T []) (ht : t ∈ s.threads) : Inv e (threadExit s t) T [] := by
  obtain ⟨h1, hth, hfree⟩ := h.closeAll ht
  exact h1.tables rfl (h1.table.eraseThread (by rw [hth]; exact ht) hfree)

/-! ### All calls -/

/-- Whether the call begins with `vfs_ensure_proc`. -/
def Call.ensures : Call → Bool
  | .fork _ => false
  | .spawn _ => false
  | .kernelThread _ => false
  | .exit => false
  | _ => true

/-- Setting up the descriptors first makes no difference. -/
theorem call_ensure (hc : c.ensures = true) (s : Files) (t : ℕ) :
    call (vfsEnsureProc s t) t c = call s t c := by
  cases c with
  | fork | spawn | kernelThread | exit => cases hc
  | _ =>
    simp only [call, sysPipe, sysDup2, sysClose, sysRead, sysWrite, sysPwrite, sysLseek, sysOpen,
      openForeign, sysMkdir, sysMkfifo, sysMknod, sysUnlink, sysRmdir, vfsEnsureProc_idem]

theorem Removes.of_ensure (h : Removes (vfsEnsureProc s t) c n) : Removes s c n := by
  have hp := samePaths_ensure s t
  have hroots : (vfsEnsureProc s t).roots = s.roots := by rw [vfsEnsureProc_eq]
  cases c with
  | unlink root rel a => simpa only [Removes, hp.walk, hp.type, hp.removeTarget, hroots] using h
  | rmdir root rel a =>
    simpa only [Removes, listsEmpty, hp.walk, hp.type, hp.removeTarget, hp.children, hp.name,
      hroots] using h
  | umount root => simpa only [Removes, Under, hp.children, hp.gRoot, hroots] using h
  | _ => exact h

/-- A call on descriptors that are set up. -/
theorem inv_call_ensured (h : Inv e s T []) (ht : t ∈ s.threads) (hens : Ensured s t)
    (hc : c.ensures = true) (hclosed : ∀ n, Removes s c n → Closed s n) :
    ∃ T', Inv e (call s t c) T' [] := by
  cases c with
  | pipe m => exact ⟨T, inv_sysPipe h ht hens m⟩
  | dup2 oldfd newfd => exact ⟨T, inv_sysDup2 h ht hens oldfd newfd⟩
  | close fd => exact ⟨T, inv_sysClose h ht hens fd⟩
  | read fd len a => exact ⟨T, inv_sysRead h ht hens fd len a⟩
  | write fd bytes a m => exact ⟨T, inv_sysWrite h ht hens fd bytes a m⟩
  | pwrite fd bytes off a m => exact ⟨T, inv_sysPwrite h ht hens fd bytes off a m⟩
  | lseek fd offset whence => exact ⟨T, inv_sysLseek h ht hens fd offset whence⟩
  | openFile root rel flags a m => exact inv_sysOpen h ht hens root rel flags a m
  | openForeign name size flags m => exact ⟨T, inv_openForeign h ht hens name size flags m⟩
  | mkdir root rel a m | mkfifo root rel a m => exact inv_sysMknod (by decide) h hens root rel a m
  | unlink root rel a => exact inv_sysUnlink h hens root rel a hclosed
  | rmdir root rel a => exact inv_sysRmdir h hens root rel a hclosed
  | mount m =>
    rw [call, hens]
    exact h.mount m
  | umount root =>
    rw [call, hens]
    exact h.umount fun hroot hg n hu => (hclosed n ⟨hroot, hg, hu⟩).total
  | fork | spawn | kernelThread | exit => cases hc
  | other =>
    rw [call, hens]
    exact ⟨T, h⟩

/-- **The step lemma.**  A call that removes no open vnode keeps the invariant; exact counts if it
does not overwrite the end of a pipe either. -/
theorem inv_call (h : Inv e s T []) (ht : t ∈ s.threads) (c : Call)
    (hsafe : e → c.ensures = true → EnsureSafe s t) (hclosed : ∀ n, Removes s c n → Closed s n) :
    ∃ T', Inv e (call s t c) T' [] := by
  cases hc : c.ensures with
  | true =>
    have ht1 : t ∈ (vfsEnsureProc s t).threads := by
      rw [vfsEnsureProc_eq]
      exact ht
    rw [← call_ensure hc]
    exact inv_call_ensured (inv_ensure h ht fun he => hsafe he hc) ht1 (vfsEnsureProc_idem s t) hc
      fun n hn => (hclosed n hn.of_ensure).ensure t
  | false =>
    cases c with
    | fork m | spawn m => exact ⟨T, inv_startThread h ht m⟩
    | kernelThread m => exact ⟨T, inv_startKernelThread h m⟩
    | exit => exact ⟨T, inv_threadExit h ht⟩
    | _ => cases hc

end AxiomeOS.Vfs
