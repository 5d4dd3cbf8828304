import AxiomeOS.Signal.Interrupt
import AxiomeOS.Security.Credentials

/-!
# The signal mask of a thread

What can change `sig_mask`: a delivery adds the signal whose handler it starts, and
`sys_sigreturn` replaces the mask by the word that stands in the frame on the user stack.
`SIGKILL` has no handler, so no delivery masks it (`deliverSignalCtx_sigkill`).  But the word on
the user stack is the program's to write: `sigkill_unmasked_iff` says that in a history of
signal calls by any threads the bit stays clear **exactly** as long as every frame that is
restored has it clear.
-/

namespace AxiomeOS.Signal

open Bits Bytes Paging Runs Function Option
open Security (Cred capKillAny capSignalOther negEperm threadInitCred)

variable {t : Thread} {m : Machine} {user : Buffer} {s : Table}

/-- A thread as signals see it. -/
structure Proc where
  sig : Thread
  cred : Cred
  /-- `main_thread` and `idle_thread`. -/
  isProtected : Bool

/-- The threads by their process id. -/
abbrev Table := ℤ → Option Proc

/-! ### The system calls -/

def sigstop : ℕ := 19

/-- `sizeof(struct sigaction)` -/
def sigactionSize : ℕ := 32

def readSigaction (user : Buffer) (a : ℕ) : SigAction :=
  ⟨loadWord user a, loadWord user (a + 8), loadWord user (a + 16), loadWord user (a + 24)⟩

def writeSigaction (user : Buffer) (a : ℕ) (sa : SigAction) : Buffer :=
  let user := storeWord user a sa.saHandler
  let user := storeWord user (a + 8) sa.saFlags
  let user := storeWord user (a + 16) sa.saRestorer
  storeWord user (a + 24) sa.saMask

/-- `sys_sigaction`: the thread and the user memory afterwards, and the value returned.  The cast
of the first argument keeps its low 32 bits. -/
def sysSigaction (m : Machine) (user : Buffer) (t : Thread) (a1 a2 a3 : U64) :
    Thread × Buffer × U64 :=
  let sig := (a1.setWidth 32).toInt
  if sig ≤ 0 ∨ (nsig : ℤ) ≤ sig then (t, user, -1#64)
  else if sig = sigkill ∨ sig = sigstop then (t, user, -1#64)
  else if a2 ≠ 0#64 ∧ t.rangeOk m a2.toNat sigactionSize false = false then (t, user, -14#64)
  else if a3 ≠ 0#64 ∧ t.rangeOk m a3.toNat sigactionSize true = false then (t, user, -14#64)
  else
    -- the new action is copied in before the old one is copied out
    let kact := readSigaction user a2.toNat
    let user := if a3 = 0#64 then user else
      writeSigaction user a3.toNat (t.sigActions sig.toNat)
    let t := if a2 = 0#64 then t else
      { t with sigActions := update t.sigActions sig.toNat kact }
    (t, user, 0#64)

/-- Raise a signal for a thread. -/
def Proc.raise (p : Proc) (sig : ℕ) : Proc :=
  { p with sig := { p.sig with sigPending := p.sig.sigPending ||| 1#64 <<< sig } }

/-- `sched_protected_kill`; `none` is a kernel panic. -/
def schedProtectedKill (victim killer : Proc) : Option U64 :=
  if !victim.isProtected then some 0#64
  else if killer.cred.role ≠ .system then some negEperm
  else none

/-- `sys_kill`, called by the thread `self`; `none` is a kernel panic. -/
def sysKill (s : Table) (self : ℤ) (p : Proc) (a1 a2 : U64) : Option (Table × U64) :=
  let pid := (a1.setWidth 32).toInt
  let sig := (a2.setWidth 32).toInt
  if sig ≤ 0 ∨ (nsig : ℤ) ≤ sig then some (s, -1#64)
  else if 0 < pid then
    match s pid with
    | none => some (s, -3#64)
    | some t =>
      (schedProtectedKill t p).map fun pr =>
        if pr ≠ 0#64 then (s, pr)
        else if t.cred.uid ≠ p.cred.euid ∧ p.cred.role ≠ .system ∧
            ¬ flagSet p.cred.capsPrm (capKillAny ||| capSignalOther) then (s, negEperm)
        else (update s pid (some (t.raise sig.toNat)), 0#64)
  else if pid = 0 then some (update s self (some (p.raise sig.toNat)), 0#64)
  else if pid = -1 then
    if p.cred.role ≠ .system ∧ ¬ flagSet p.cred.capsPrm capKillAny then some (s, negEperm)
    else
      -- `sched_foreach(kill_fn, …)`
      some (fun q => (s q).map fun t =>
        if q = self ∨ t.isProtected then t else t.raise sig.toNat, 0#64)
  else some (s, -1#64)

/-! ### Histories -/

/-- What a thread does.  The page tables and the user memory are what they are at that moment,
and the frame is the one its system call or interrupt has pushed. -/
inductive Act
  | sigaction (m : Machine) (user : Buffer) (a1 a2 a3 : U64)
  | kill (a1 a2 : U64)
  | sigreturn (m : Machine) (user : Buffer) (frame : Frame)
  /-- Signal delivery on the return from a system call. -/
  | leave (m : Machine) (user : Buffer) (frame : Frame)
  /-- Signal delivery by a timer interrupt. -/
  | timer (m : Machine) (user : Buffer) (f : List U64)

/-- The thread `self` acts; a thread that was ended is no longer in the table. -/
def exec (s : Table) (e : ℤ × Act) : Option Table :=
  match s e.1 with
  | none => none
  | some p =>
    match e.2 with
    | .sigaction m user a1 a2 a3 =>
      some (update s e.1 (some { p with sig := (sysSigaction m user p.sig a1 a2 a3).1 }))
    | .kill a1 a2 => (sysKill s e.1 p a1 a2).map Prod.fst
    | .sigreturn m user frame =>
      let t := { p.sig with syscallIret := some frame }
      some (update s e.1 ((sysSigreturn m user (some t)).1.map ({ p with sig := · })))
    | .leave m user frame =>
      let t := { p.sig with syscallIret := some frame }
      some (update s e.1
        ((syscallDeliverSignals m user t).map fun x => { p with sig := x.1 }))
    | .timer m user f =>
      some (update s e.1
        ((kernelDeliverSignalsUser m user p.sig f).map fun x => { p with sig := x.1 }))

/-- The `SIGKILL` bit of the mask is clear. -/
def Thread.Killable (t : Thread) : Prop := t.sigMask.getLsbD sigkill = false

/-- No thread masks `SIGKILL`, and one for which it is pending gets, at its next delivery, this
signal or one that comes before it. -/
def KillNotHeld (s : Table) : Prop :=
  ∀ pid p, s pid = some p → p.sig.Killable ∧
    (p.sig.sigPending.getLsbD sigkill = true → ∃ sig ≤ sigkill, nextSignal p.sig = some sig)

/-- A frame that `sys_sigreturn` restores has the `SIGKILL` bit clear in its mask. -/
def FrameClear (s : Table) (e : ℤ × Act) : Prop :=
  ∀ p m user frame, s e.1 = some p → e.2 = .sigreturn m user frame →
    p.sig.rangeOk m (frame 3).toNat sigframeSize false = true →
    (readSigframe user (frame 3).toNat).oldmask.getLsbD sigkill = false

/-- Threads as they are created: nothing is masked. -/
def Fresh (s : Table) : Prop := ∀ pid p, s pid = some p → p.sig.sigMask = 0#64

/-! ### What each call does to the masks -/

/-- An unmasked pending `SIGKILL` is the next signal, unless a lower one is. -/
theorem nextSignal_of_sigkill (hmask : t.Killable)
    (hpending : t.sigPending.getLsbD sigkill = true) :
    ∃ sig ≤ sigkill, nextSignal t = some sig := by
  have hbit : (t.sigPending &&& ~~~t.sigMask).getLsbD sigkill = true := by
    rw [BitVec.getLsbD_and, BitVec.getLsbD_not, hmask, hpending]
    rfl
  cases hfind : nextSignal t with
  | none =>
    rw [nextSignal, List.find?_eq_none] at hfind
    have hnot := hfind sigkill (by decide)
    rw [hbit] at hnot
    exact absurd rfl hnot
  | some sig =>
    refine ⟨sig, ?_, rfl⟩
    by_contra hlt
    rw [nextSignal, List.find?_range_eq_some] at hfind
    have hnot := hfind.2.2 sigkill (by omega)
    rw [hbit] at hnot
    cases hnot

theorem killNotHeld_iff (s : Table) : KillNotHeld s ↔ ∀ pid p, s pid = some p → p.sig.Killable :=
  ⟨fun h pid p hp => (h pid p hp).1,
    fun h pid p hp => ⟨h pid p hp, nextSignal_of_sigkill (h pid p hp)⟩⟩

variable {user' : Buffer} {t' : Thread} {p : Proc} {s' : Table}

/-- **No delivery masks `SIGKILL`.** -/
theorem deliverSignalCtx_sigkill
    {ctx ctx' : SigFrame} (h : deliverSignalCtx m user t ctx = .consumed t' ctx' user') :
    t'.sigMask.getLsbD sigkill = t.sigMask.getLsbD sigkill := by
  simp only [deliverSignalCtx] at h
  split at h
  · cases h
  · rename_i sig hnext
    split at h
    · cases h
    · rename_i hkill
      -- only the branch that starts a handler changes the mask, by a bit other than `SIGKILL`
      repeat' split at h
      all_goals cases h
      all_goals first | rfl | skip
      have hbit : (1#64 <<< sig).getLsbD sigkill = false := by
        rw [BitVec.getLsbD_shiftLeft]
        unfold sigkill at hkill ⊢
        by_cases hlt : 9 < sig
        · simp [hlt]
        · simp [show 9 - sig ≠ 0 by omega]
      rw [BitVec.getLsbD_or, hbit, Bool.or_false]

theorem syscallDeliverSignals_sigkill (h : syscallDeliverSignals m user t = some (t', user')) :
    t'.sigMask.getLsbD sigkill = t.sigMask.getLsbD sigkill := by
  simp only [syscallDeliverSignals] at h
  split at h
  · cases h
    rfl
  · split at h
    · cases h
      rfl
    · cases h
    · rename_i hdeliver
      have hmask := deliverSignalCtx_sigkill hdeliver
      cases h
      exact hmask

theorem kernelDeliverSignalsUser_sigkill {f : List U64} {x : Thread × Buffer × List U64}
    (h : kernelDeliverSignalsUser m user t f = some x) :
    x.1.sigMask.getLsbD sigkill = t.sigMask.getLsbD sigkill := by
  simp only [kernelDeliverSignalsUser] at h
  split at h
  · cases h
    rfl
  · split at h
    · cases h
      rfl
    · cases h
    · rename_i hdeliver
      cases h
      exact deliverSignalCtx_sigkill hdeliver

theorem sysSigaction_sigMask (m : Machine) (user : Buffer) (t : Thread) (a1 a2 a3 : U64) :
    (sysSigaction m user t a1 a2 a3).1.sigMask = t.sigMask := by
  simp only [sysSigaction]
  repeat' split
  all_goals rfl

/-- The threads of `s'` are those of `s`, with the same masks. -/
def SameMasks (s s' : Table) : Prop :=
  ∀ pid p', s' pid = some p' → ∃ p, s pid = some p ∧ p'.sig.sigMask = p.sig.sigMask

theorem SameMasks.refl (s : Table) : SameMasks s s := fun _ p h => ⟨p, h, rfl⟩

theorem SameMasks.replace {pid : ℤ} {p' : Proc} (hp : s pid = some p)
    (hmask : p'.sig.sigMask = p.sig.sigMask) : SameMasks s (update s pid (some p')) := by
  intro q x hx
  by_cases hq : q = pid
  · subst hq
    rw [update_self] at hx
    cases hx
    exact ⟨p, hp, hmask⟩
  · rw [update_of_ne hq] at hx
    exact ⟨x, hx, rfl⟩

/-- `sys_kill` raises signals and changes no mask. -/
theorem sysKill_sameMasks {self : ℤ} {a1 a2 r : U64}
    (hself : s self = some p) (h : sysKill s self p a1 a2 = some (s', r)) : SameMasks s s' := by
  simp only [sysKill] at h
  split at h
  · cases h
    exact .refl s
  split at h
  · split at h
    · cases h
      exact .refl s
    · rename_i t ht
      obtain ⟨pr, -, hpr⟩ := map_eq_some_iff.mp h
      split at hpr
      · cases hpr
        exact .refl s
      split at hpr
      · cases hpr
        exact .refl s
      · cases hpr
        exact .replace ht rfl
  split at h
  · cases h
    exact .replace hself rfl
  split at h
  · split at h
    · cases h
      exact .refl s
    · cases h
      intro q x hx
      obtain ⟨t, ht, rfl⟩ := map_eq_some_iff.mp hx
      refine ⟨t, ht, ?_⟩
      split
      · rfl
      · rfl
  · cases h
    exact .refl s

theorem SameMasks.killable (h : SameMasks s s') (hs : ∀ pid p, s pid = some p → p.sig.Killable) :
    ∀ pid p, s' pid = some p → p.sig.Killable := by
  intro pid p' hp'
  obtain ⟨p, hp, hmask⟩ := h pid p' hp'
  have hk := hs pid p hp
  unfold Thread.Killable at hk ⊢
  rw [hmask]
  exact hk

theorem killable_update_iff (hs : ∀ pid p, s pid = some p → p.sig.Killable) (pid : ℤ)
    (new : Option Proc) : (∀ q p, update s pid new q = some p → p.sig.Killable) ↔
      ∀ p, new = some p → p.sig.Killable := by
  constructor
  · intro h p hp
    exact h pid p (by rw [update_self, hp])
  · intro h q p hp
    by_cases hq : q = pid
    · subst hq
      rw [update_self] at hp
      exact h p hp
    · rw [update_of_ne hq] at hp
      exact hs q p hp

/-- The mask after `sys_sigreturn`: that of the frame if one was restored. -/
theorem sysSigreturn_killable_iff {frame : Frame} (hp : p.sig.Killable) :
    (∀ q, (sysSigreturn m user (some { p.sig with syscallIret := some frame })).1.map
          ({ p with sig := · }) = some q → q.sig.Killable) ↔
      (p.sig.rangeOk m (frame 3).toNat sigframeSize false = true →
        (readSigframe user (frame 3).toNat).oldmask.getLsbD sigkill = false) := by
  by_cases hrange : p.sig.rangeOk m (frame 3).toNat sigframeSize false = true
  · have hrange' : ({ p.sig with syscallIret := some frame } : Thread).rangeOk m
        (frame 3).toNat sigframeSize false = true := hrange
    simp only [sysSigreturn, hrange', Bool.not_true, Bool.false_eq_true, if_false, map_some,
      some.injEq, forall_eq', hrange, true_implies]
    rfl
  · have hrange' : ({ p.sig with syscallIret := some frame } : Thread).rangeOk m
        (frame 3).toNat sigframeSize false = false := Bool.eq_false_iff.mpr hrange
    simp only [sysSigreturn, hrange', Bool.not_false, if_true, map_some, some.injEq, forall_eq']
    exact iff_of_true hp fun h => absurd h hrange

/-- **One step.**  From a table in which no thread masks `SIGKILL`, a step leads to such a table
exactly when the frame it restores, if it restores one, has the bit clear. -/
theorem exec_killable_iff {e : ℤ × Act}
    (hs : ∀ pid p, s pid = some p → p.sig.Killable) (h : exec s e = some s') :
    (∀ pid p, s' pid = some p → p.sig.Killable) ↔ FrameClear s e := by
  obtain ⟨self, act⟩ := e
  simp only [exec] at h
  split at h
  · cases h
  rename_i p hp
  have hkill := hs self p hp
  -- the calls other than `sys_sigreturn` have nothing to meet
  have hother : (∀ m user frame, act ≠ .sigreturn m user frame) → FrameClear s (self, act) :=
    fun hne _ m user frame _ hact => absurd hact (hne m user frame)
  cases act with
  | sigaction m user a1 a2 a3 =>
    cases h
    refine iff_of_true (SameMasks.killable (SameMasks.replace hp ?_) hs) (hother (by simp))
    exact sysSigaction_sigMask m user p.sig a1 a2 a3
  | kill a1 a2 =>
    obtain ⟨⟨s₁, r⟩, hk, rfl⟩ := map_eq_some_iff.mp h
    exact iff_of_true (SameMasks.killable (sysKill_sameMasks hp hk) hs) (hother (by simp))
  | sigreturn m user frame =>
    cases h
    rw [killable_update_iff hs, sysSigreturn_killable_iff hkill]
    constructor
    · intro hclear q m' user' frame' hq hact hrange
      cases hact
      cases hq.symm.trans hp
      exact hclear hrange
    · intro hclear hrange
      exact hclear p m user frame hp rfl hrange
  | leave m user frame =>
    cases h
    refine iff_of_true ((killable_update_iff hs _ _).mpr ?_) (hother (by simp))
    intro q hq
    obtain ⟨x, hx, rfl⟩ := map_eq_some_iff.mp hq
    exact (syscallDeliverSignals_sigkill hx).trans hkill
  | timer m user f =>
    cases h
    refine iff_of_true ((killable_update_iff hs _ _).mpr ?_) (hother (by simp))
    intro q hq
    obtain ⟨x, hx, rfl⟩ := map_eq_some_iff.mp hq
    exact (kernelDeliverSignalsUser_sigkill hx).trans hkill

/-- **`SIGKILL` stays unmasked exactly as long as no restored frame masks it.**  In every history
of signal calls and deliveries, by any threads and with any user memory, started with nothing
masked: no reached state masks `SIGKILL` or holds a pending one back, if and only if every frame
restored on the way has its bit clear. -/
theorem sigkill_unmasked_iff (s : Table) (hs : Fresh s) (es : List (ℤ × Act)) :
    (∀ pre, pre <+: es → ∀ s', execList exec s pre = some s' → KillNotHeld s') ↔
      ∀ pre e, pre ++ [e] <+: es → ∀ s', execList exec s pre = some s' → FrameClear s' e := by
  simp only [killNotHeld_iff]
  refine execList_property_iff (fun _ h => h) (fun s e s' hI h => iff_iff_implies_and_implies.mp
    (exec_killable_iff hI h)) ?_ ?_ es
  · -- a step that cannot be taken restores nothing
    intro s e _ hnone q m user frame hq hact
    rw [exec, hq, hact] at hnone
    cases hnone
  · intro pid p hp
    unfold Thread.Killable
    rw [hs pid p hp]
    rfl

/-! ### A forged mask -/

/-- A process 7 without pending signals. -/
def oneProcess : Table := fun pid =>
  if pid = 7 then
    some ⟨{ callingThread with syscallIret := none }, threadInitCred, false⟩
  else none

/-- A user stack whose frame has `SIGKILL` masked. -/
def maskingStack : Buffer := fun a => if a = 2 ^ 40 + 145 then 2 else 0

/-- The process restores a forged frame and then raises `SIGKILL`: the signal is pending, and
nothing is delivered. -/
theorem sigkill_held_back : ∃ s' p, execList exec oneProcess
          [(7, .sigreturn onePageMachine maskingStack fun _ => BitVec.ofNat 64 (2 ^ 40)),
            (7, .kill 0#64 9#64)] = some s' ∧
        s' 7 = some p ∧ p.sig.sigMask.getLsbD sigkill = true ∧
        p.sig.sigPending.getLsbD sigkill = true ∧ nextSignal p.sig = none := by
  refine ⟨_, _, rfl, rfl, ?_, ?_, ?_⟩
  · decide +kernel
  · decide +kernel
  · decide +kernel

theorem sigkill_unmasked_iff_kill : KillNotHeld (update oneProcess 7
      (some ((⟨{ callingThread with syscallIret := none }, threadInitCred, false⟩ : Proc).raise
        9))) := by
  have hfresh : Fresh oneProcess := by
    intro pid p hp
    unfold oneProcess at hp
    split at hp
    · cases hp
      rfl
    · cases hp
  have hclear := (sigkill_unmasked_iff oneProcess hfresh [(7, .kill 0#64 9#64)]).mpr ?_
  · exact hclear _ List.prefix_rfl _ rfl
  · intro pre e hpre s' _ p m user frame _ hact
    have hmem : e ∈ [((7 : ℤ), Act.kill 0#64 9#64)] := hpre.subset (by simp)
    rw [List.mem_singleton.mp hmem] at hact
    cases hact

end AxiomeOS.Signal
