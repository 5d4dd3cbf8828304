import AxiomeOS.Lib.Runs
import AxiomeOS.Vfs.Calls

/-!
# Open descriptors and counted ends in every run

From boot, with any interleaving of the system calls of any number of threads:

* while no call removes a vnode that a descriptor refers to, every open descriptor refers to an
  allocated vnode with an allocated data buffer (`openAlive_of_run`).  `ramfs_remove` does not look
  at the reference count, so unlinking an open file frees what the descriptor refers to
  (`unlink_frees_open_vnode`);
* while, besides, `vfs_ensure_proc` overwrites no end of a pipe, each pipe counts exactly the
  descriptors at its ends, and a reader of an empty pipe sees the end of file exactly when no
  writing descriptor is left (`counts_of_run`).  A process that has closed one of its descriptors 0,
  1 and 2 loses the others with its next call, and a writing end among them stays counted
  (`ensure_loses_writer`).
-/

namespace AxiomeOS.Vfs

open Tally Runs

variable {t : ℕ}

variable {s : Files} {T : ℕ → Option ℕ} {e : Prop}

/-! ### Boot -/

theorem inv_bareRoot (root t : ℕ) :
    Inv e (bareRoot root t) (fun n => if n = root then some root else none) [] := by
  have hT : ∀ n r, (if n = root then some root else none) = some r → n = root ∧ r = root := by
    intro n r hn
    split_ifs at hn with hroot
    exact ⟨hroot, (Option.some.inj hn).symm⟩
  have hunused : ∀ f, Has (bareRoot root t) [] f → f.used = false := by
    intro f hf
    rcases hf with hf | ⟨u, -, i, rfl⟩
    · cases hf
    · rfl
  constructor
  case tree =>
    constructor
    case gRoot => exact Finset.mem_singleton_self root
    case root =>
      intro r hr
      rw [Finset.mem_singleton.mp hr, if_pos rfl]
      exact ⟨rfl, rfl, rfl⟩
    case mem =>
      intro n r hn
      obtain ⟨rfl, rfl⟩ := hT n r hn
      exact ⟨Finset.mem_singleton_self _, Finset.mem_singleton_self _⟩
    case kind =>
      intro n r _
      show false = false ∧ VType.dir ≠ .pipeR ∧ VType.dir ≠ .pipeW
      decide
    case child =>
      exact nofun
    case up =>
      exact nofun
    case leaf => exact fun _ _ _ _ => rfl
    case nodup => exact fun _ _ _ => List.nodup_nil
    case acyclic => exact ⟨id, nofun⟩
  case bufs =>
    constructor
    · exact nofun
    · exact nofun
  case table =>
    constructor
    · exact fun f hf => good_of_unused (hunused f hf)
    · intro n _
      rw [total_eq_zero fun f hf => File.refers_of_unused (hunused f hf)]
      exact Nat.zero_le _
    · intro p hp
      exact absurd hp (Finset.notMem_empty p)
  case fifos =>
    constructor
    · exact nofun
    · exact nofun

theorem inv_addInitrd (h : Inv e s T []) (m : Mem) (x : List Char × Option (List UInt8)) :
    ∃ T', Inv e (addInitrd m s x) T' [] := by
  rw [addInitrd]
  cases x.2 with
  | none => exact h.create h.tree.gRoot x.1 (by decide) m
  | some bytes =>
    obtain ⟨T1, h1⟩ := h.create h.tree.gRoot x.1
      (show VType.file ≠ .pipeR ∧ VType.file ≠ .pipeW by decide) m
    generalize ramfsCreate s s.gRoot x.1 .file m = c at h1 ⊢
    obtain ⟨s1, _ | _⟩ := c
    · exact ⟨T1, h1⟩
    · dsimp only at h1 ⊢
      rcases vfsLookup_cases h1.tree s1.gRoot x.1 with hl | ⟨n, hTn, -, hl⟩
      · rw [hl]
        exact ⟨T1, h1⟩
      · have h2 := h1.leak n
        rw [hl]
        exact ⟨T1, h2.write (h2.tree.mem n _ hTn).2 0 bytes m⟩

/-- **The invariant holds at boot.** -/
theorem inv_init (root t : ℕ) (ms : ℕ → Mem) : ∃ T, Inv e (vfsInit root t ms) T [] := by
  refine List.foldlRecOn (motive := fun s => ∃ T, Inv e s T []) _ _ ⟨_, inv_bareRoot root t⟩ ?_
  rintro s ⟨T, h⟩ x -
  exact inv_addInitrd h (ms x.2) x.1

/-! ### Runs -/

/-- The call removes no vnode that a descriptor refers to. -/
def RemovesClosed (s : Files) (c : ℕ × Call) : Prop := ∀ n, Removes s c.2 n → Closed s n

/-- The call does not overwrite the end of a pipe by setting up the standard descriptors. -/
def KeepsEnds (s : Files) (c : ℕ × Call) : Prop := c.2.ensures = true → EnsureSafe s c.1

/-- Whether the call removes vnodes. -/
def Call.removing : Call → Bool
  | .unlink .. => true
  | .rmdir .. => true
  | .umount _ => true
  | _ => false

variable {c : Call} {n root : ℕ} {a : Access} {s' : Files} {cs : List (ℕ × Call)} {i : Fin 32}

theorem removesClosed_of_plain (hc : c.removing = false) : RemovesClosed s (t, c) := by
  intro n hn
  cases c with
  | unlink | rmdir | umount => cases hc
  | _ => exact hn.elim

theorem removesClosed_unlink {d : ℕ} {rel : List Char}
    (htarget : removeTarget s root rel = some (d, n)) (hclosed : Closed s n) :
    RemovesClosed s (t, .unlink root rel a) := by
  rintro k ⟨-, -, -, d', hr⟩
  rw [htarget] at hr
  rw [← (Prod.mk.inj (Option.some.inj hr)).2]
  exact hclosed

theorem run_call (ht : t ∈ s.threads) (hrun : Run step (call s t c) cs s') :
    Run step s ((t, c) :: cs) s' :=
  Run.cons ⟨ht, rfl⟩ hrun

theorem runIn_call {G : Files → ℕ × Call → Prop} (hG : G s (t, c)) (ht : t ∈ s.threads)
    (hrun : RunIn G step (call s t c) cs s') : RunIn G step s ((t, c) :: cs) s' :=
  Run.cons ⟨hG, ht, rfl⟩ hrun

/-- **The run lemma.** -/
theorem inv_of_run {ms : ℕ → Mem}
    (hrun : RunIn (fun s c => RemovesClosed s c ∧ (e → KeepsEnds s c)) step (vfsInit root t ms)
      cs s) :
    ∃ T, Inv e s T [] := by
  refine RunIn.invariant (fun s => ∃ T, Inv e s T []) ?_ hrun (inv_init root t ms)
  rintro s ⟨t, c⟩ s' ⟨T, h⟩ ⟨hclosed, hsafe⟩ ⟨ht, rfl⟩
  exact inv_call h ht c hsafe hclosed

/-! ### Open descriptors -/

/-- What the descriptors of the threads refer to has not been freed. -/
def OpenAlive (s : Files) : Prop :=
  ∀ t ∈ s.threads, ∀ i n, (s.fds t i).refers n = true →
    n ∈ s.live ∧ ∀ b, (s.vnode n).data = some b → b ∈ s.bufs

theorem not_openAlive (ht : t ∈ s.threads) (hr : (s.fds t i).refers n = true) (hn : n ∉ s.live) :
    ¬ OpenAlive s :=
  fun h => hn (h t ht i n hr).1

theorem Inv.openAlive (h : Inv e s T []) : OpenAlive s := by
  intro t ht i n hr
  have hlive := (h.table.good _ (has_table ht i)).live hr
  exact ⟨hlive, h.bufs.own n hlive⟩

/-- **Open descriptors refer to allocated memory** in every run in which no call removes an open
vnode. -/
theorem openAlive_of_run {root t : ℕ} {ms : ℕ → Mem} {cs : List (ℕ × Call)}
    (hrun : RunIn RemovesClosed step (vfsInit root t ms) cs s) : OpenAlive s := by
  have hguard : RunIn (fun s c => RemovesClosed s c ∧ (False → KeepsEnds s c)) step
      (vfsInit root t ms) cs s := hrun.mono fun _ _ h => ⟨h, False.elim⟩
  obtain ⟨T, h⟩ := inv_of_run hguard
  exact h.openAlive

/-- Memory without end, for runs on fixed inputs. -/
def Mem.ample : Mem := ⟨Alloc.above, Alloc.above, Alloc.above, true, true⟩

def Access.full : Access := ⟨true, true, true, true, 0⟩

/-- An allocator that has nothing left. -/
def Alloc.exhausted : Alloc := ⟨fun _ => none, nofun⟩

/-- The files at boot, for runs on fixed inputs: the root is the vnode 0, the first thread is 0, and
there was no memory for the initrd. -/
@[irreducible]
def booted : Files :=
  vfsInit 0 0 fun _ => ⟨Alloc.exhausted, Alloc.exhausted, Alloc.exhausted, false, false⟩

theorem booted_eq : booted =
    vfsInit 0 0 fun _ => ⟨Alloc.exhausted, Alloc.exhausted, Alloc.exhausted, false, false⟩ := by
  delta booted
  exact Eq.refl
    (vfsInit 0 0 fun _ => ⟨Alloc.exhausted, Alloc.exhausted, Alloc.exhausted, false, false⟩)

/-- Open the file `f`, which is created if it is not there. -/
def openF : Call := .openFile 0 ['f'] ⟨false, true, true, false, false⟩ .full .ample

def unlinkF : Call := .unlink 0 ['f'] .full

/-- The states of a run in which a file is opened and inherited, and unlinked when both descriptors
have been closed. -/
def opened : Files := call booted 0 openF

def inherited : Files := call opened 0 (.fork Alloc.above)

def closedOnce : Files := call inherited 0 (.close 3)

def closedTwice : Files := call closedOnce 1 (.close 3)

theorem openAlive_of_run_closed : OpenAlive (call closedTwice 1 unlinkF) := by
  have hfacts : (0 ∈ booted.threads ∧ 0 ∈ opened.threads ∧ 0 ∈ inherited.threads ∧
      1 ∈ closedOnce.threads ∧ 1 ∈ closedTwice.threads) ∧
      removeTarget closedTwice 0 ['f'] = some (0, 1) ∧ Closed closedTwice 1 := by
    decide +kernel
  have hthreads := hfacts.1
  have hunlink : RemovesClosed closedTwice (1, unlinkF) :=
    removesClosed_unlink hfacts.2.1 hfacts.2.2
  have hrun : RunIn RemovesClosed step booted [(0, openF), (0, .fork Alloc.above),
      (0, .close 3), (1, .close 3), (1, unlinkF)] (call closedTwice 1 unlinkF) :=
    runIn_call (removesClosed_of_plain rfl) hthreads.1
      (runIn_call (removesClosed_of_plain rfl) hthreads.2.1
        (runIn_call (removesClosed_of_plain rfl) hthreads.2.2.1
          (runIn_call (removesClosed_of_plain rfl) hthreads.2.2.2.1
            (runIn_call hunlink hthreads.2.2.2.2 (.nil _)))))
  rw [booted_eq] at hrun
  exact openAlive_of_run hrun

/-- **Unlinking an open file frees it.** -/
theorem unlink_frees_open_vnode : ∃ s, Run step booted [(0, openF), (0, unlinkF)] s ∧
    ¬ OpenAlive s := by
  have hfacts : 0 ∈ booted.threads ∧ 0 ∈ opened.threads ∧ 0 ∈ (call opened 0 unlinkF).threads ∧
      ((call opened 0 unlinkF).fds 0 3).refers 1 = true ∧
      1 ∉ (call opened 0 unlinkF).live := by
    decide +kernel
  obtain ⟨h0, h1, hthread, hrefers, hfreed⟩ := hfacts
  exact ⟨call opened 0 unlinkF, run_call h0 (run_call h1 (.nil _)),
    not_openAlive hthread hrefers hfreed⟩

/-! ### Counted ends -/

/-- How many descriptors of the threads refer to an end of the pipe. -/
def openEnds (s : Files) (type : VType) (p : ℕ) : ℕ := tally s.threads s.fds (s.atEnd type p)

/-- Each allocated pipe counts the descriptors at its ends. -/
def CountsExact (s : Files) : Prop :=
  ∀ p ∈ s.pipes, (s.pipe p).nreaders = openEnds s .pipeR p ∧
    (s.pipe p).nwriters = openEnds s .pipeW p

/-- A reader of an empty pipe sees the end of file exactly when no writing descriptor is left. -/
def EofExact (s : Files) : Prop :=
  ∀ t ∈ s.threads, ∀ (i : Fin 32) (p len : ℕ) (a : Access), EnsureSafe s t →
    s.atEnd .pipeR p (s.fds t i) = true → (s.pipe p).content = [] →
    ((sysRead s t i.val len a).2 = .bytes [] ↔ openEnds s .pipeW p = 0)

theorem total_nil (s : Files) (P : File → Bool) : total s [] P = tally s.threads s.fds P :=
  Nat.add_zero _

theorem Inv.countsExact (h : Inv True s T []) : CountsExact s := by
  intro p hp
  have hR := (h.table.counts p hp .pipeR (.inl rfl)).2 trivial
  have hW := (h.table.counts p hp .pipeW (.inr rfl)).2 trivial
  rw [total_nil] at hR hW
  exact ⟨hR, hW⟩

theorem vfsEnsureProc_end (hsafe : EnsureSafe s t) (hu : (s.fds t i).used = true)
    (hk : (s.fds t i).kind = .pipe) : (vfsEnsureProc s t).fds t i = s.fds t i := by
  rcases vfsEnsureProc_entry s t t i with heq | ⟨hall, hi, -⟩
  · exact heq
  · exact absurd hk (hsafe hall i hi hu)

theorem toFd_val (i : Fin 32) : toFd (i.val : ℤ) = some i := by
  have hi : (0 : ℤ) ≤ i.val ∧ (i.val : ℤ) < 32 := by omega
  rw [toFd, dif_pos hi, Option.some.injEq]
  exact Fin.ext (Int.toNat_natCast _)

theorem sysRead_empty {p len : ℕ} (hsafe : EnsureSafe s t)
    (hu : (s.fds t i).used = true) (hk : (s.fds t i).kind = .pipe) (hn : (s.fds t i).node = some n)
    (htype : (s.vnode n).type = .pipeR) (hpriv : (s.vnode n).priv = some p)
    (hempty : (s.pipe p).content = []) :
    (sysRead s t i.val len a).2 = if (s.pipe p).nwriters = 0 then .bytes [] else .blocked := by
  have hentry := vfsEnsureProc_end hsafe hu hk
  have hvnode : (vfsEnsureProc s t).vnode = s.vnode := by rw [vfsEnsureProc_eq]
  have hpipe : (vfsEnsureProc s t).pipe = s.pipe := by rw [vfsEnsureProc_eq]
  have hfd : usedFd (vfsEnsureProc s t) t i.val = some i :=
    usedFd_of_toFd (toFd_val i) (by rw [hentry]; exact hu)
  simp only [sysRead, hfd, hentry, hk, hn, hvnode, htype, hpriv, hpipe, hempty, if_true]
  split_ifs <;> rfl

theorem Inv.eofExact (h : Inv True s T []) : EofExact s := by
  intro t ht i p len a hsafe hend hempty
  have hp := (h.table.good _ (has_table ht i)).pipe_live hend
  obtain ⟨hu, hk, n, hn, htype, hpriv⟩ := Files.atEnd_eq_true.mp hend
  have hcount := (h.countsExact p hp).2
  rw [sysRead_empty hsafe hu hk hn htype hpriv hempty, hcount]
  split_ifs with hzero
  · exact ⟨fun _ => by exact_mod_cast hzero, fun _ => rfl⟩
  · constructor
    · exact nofun
    · intro h0
      rw [h0] at hzero
      exact absurd rfl hzero

/-- **Each pipe counts its descriptors** in every run in which no call removes an open vnode or
overwrites an end of a pipe. -/
theorem counts_of_run {root t : ℕ} {ms : ℕ → Mem} {cs : List (ℕ × Call)}
    (hrun : RunIn (fun s c => RemovesClosed s c ∧ KeepsEnds s c) step (vfsInit root t ms) cs s) :
    CountsExact s ∧ EofExact s := by
  have hguard : RunIn (fun s c => RemovesClosed s c ∧ (True → KeepsEnds s c)) step
      (vfsInit root t ms) cs s := hrun.mono fun _ _ h => ⟨h.1, fun _ => h.2⟩
  obtain ⟨T, h⟩ := inv_of_run hguard
  exact ⟨h.countsExact, h.eofExact⟩

/-- The states of a run that makes a pipe, puts its writing end at descriptor 1 and closes
descriptor 0. -/
def piped : Files := call booted 0 (.pipe .ample)

def redirected : Files := call piped 0 (.dup2 4 1)

def withoutInput : Files := call redirected 0 (.close 0)

theorem counts_of_run_redirected : CountsExact redirected ∧ EofExact redirected := by
  have hfacts : (0 ∈ booted.threads ∧ 0 ∈ piped.threads) ∧ EnsureSafe booted 0 ∧
      EnsureSafe piped 0 := by
    decide +kernel
  obtain ⟨⟨h0, h1⟩, hsafe0, hsafe1⟩ := hfacts
  have hrun : RunIn (fun s c => RemovesClosed s c ∧ KeepsEnds s c) step booted
      [(0, .pipe .ample), (0, .dup2 4 1)] redirected :=
    runIn_call ⟨removesClosed_of_plain rfl, fun _ => hsafe0⟩ h0
      (runIn_call ⟨removesClosed_of_plain rfl, fun _ => hsafe1⟩ h1 (.nil _))
  rw [booted_eq] at hrun
  exact counts_of_run hrun

/-- **Setting up the standard descriptors loses a writer.**  One descriptor at the writing end is
left, and the pipe counts two. -/
theorem ensure_loses_writer : ∃ s, Run step booted
    [(0, .pipe .ample), (0, .dup2 4 1), (0, .close 0), (0, .other)] s ∧ ¬ CountsExact s := by
  have hfacts : (0 ∈ booted.threads ∧ 0 ∈ piped.threads ∧ 0 ∈ redirected.threads ∧
      0 ∈ withoutInput.threads) ∧ 1 ∈ (call withoutInput 0 .other).pipes ∧
      ((call withoutInput 0 .other).pipe 1).nwriters = 2 ∧
      openEnds (call withoutInput 0 .other) .pipeW 1 = 1 := by
    decide +kernel
  obtain ⟨⟨h0, h1, h2, h3⟩, hpipe, hcount, hopen⟩ := hfacts
  refine ⟨call withoutInput 0 .other,
    run_call h0 (run_call h1 (run_call h2 (run_call h3 (.nil _)))), ?_⟩
  intro h
  have hexact := (h 1 hpipe).2
  rw [hcount, hopen] at hexact
  cases hexact

end AxiomeOS.Vfs
