import AxiomeOS.Lib.Bytes
import AxiomeOS.Paging.UserRange
import Mathlib.Data.Int.Notation

/-!
# Signal frames and the return to user mode

A system call enters through `syscall_entry` (`arch/x86_64/syscall.S`), which builds an
interrupt-return frame on the kernel stack from the user selectors `0x2B` and `0x33`.  On the way
back `syscall_deliver_signals` may divert the frame to a signal handler, after saving the
interrupted context on the user stack; `sys_sigreturn` (`kernel/syscall.c`) reads such a context
back from user memory.  At the end `iretq` loads the frame, and the processor runs at the
privilege level in the two low bits of its `CS`.

* `syscallDeliverSignals_selectors` — delivering signals keeps `CS` and `SS`, so a frame that
  `syscall_entry` built returns to user mode (`syscallEntry_resumes_user`);
* `sysSigreturn_resumes_user_iff` — a frame that `sys_sigreturn` restored does so **exactly** when
  the context in user memory holds the user selectors: nothing checks them.
-/

namespace AxiomeOS.Signal

open Bits Bytes Paging

/-- `struct sigframe`.  The general registers stand in the order of the kernel stack: `rax`,
`rdi`, `rsi`, `rdx`, `r10`, `r8`, `r9`, `rbx`, `rbp`, `r12`, `r13`, `r14`, `r15`. -/
structure SigFrame where
  gp : Fin 13 → U64
  rip : U64
  cs : U64
  rflags : U64
  rsp : U64
  ss : U64
  oldmask : U64

/-- `sizeof(struct sigframe)` -/
def sigframeSize : ℕ := 152

/-- The word at a user address. -/
def loadWord (user : Buffer) (a : ℕ) : U64 := BitVec.ofNat 64 (getLe user a 8)

/-- Store a word at a user address. -/
def storeWord (user : Buffer) (a : ℕ) (w : U64) : Buffer := setLe user a 8 w.toNat

/-- The structure at a user address. -/
def readSigframe (user : Buffer) (a : ℕ) : SigFrame where
  gp i := loadWord user (a + 8 * i.val)
  rip := loadWord user (a + 104)
  cs := loadWord user (a + 112)
  rflags := loadWord user (a + 120)
  rsp := loadWord user (a + 128)
  ss := loadWord user (a + 136)
  oldmask := loadWord user (a + 144)

/-- Store the structure at a user address. -/
def writeSigframe (user : Buffer) (a : ℕ) (sf : SigFrame) : Buffer :=
  let user := (List.finRange 13).foldl (fun u i => storeWord u (a + 8 * i.val) (sf.gp i)) user
  let user := storeWord user (a + 104) sf.rip
  let user := storeWord user (a + 112) sf.cs
  let user := storeWord user (a + 120) sf.rflags
  let user := storeWord user (a + 128) sf.rsp
  let user := storeWord user (a + 136) sf.ss
  storeWord user (a + 144) sf.oldmask

/-- The words of the kernel stack around the interrupt-return frame: `frame[0]` to `frame[4]` are
`rip`, `cs`, `rflags`, `rsp` and `ss`, and `frame[-1]` down to `frame[-13]` the general
registers. -/
abbrev Frame := ℤ → U64

/-- The context in the frame.  (`oldmask` is not part of it.) -/
def loadContext (frame : Frame) : SigFrame where
  gp i := frame (-1 - i.val)
  rip := frame 0
  cs := frame 1
  rflags := frame 2
  rsp := frame 3
  ss := frame 4
  oldmask := 0#64

/-- Write a context back into the frame. -/
def storeContext (frame : Frame) (c : SigFrame) : Frame := fun k =>
  if k = 0 then c.rip
  else if k = 1 then c.cs
  else if k = 2 then c.rflags
  else if k = 3 then c.rsp
  else if k = 4 then c.ss
  else if h : -13 ≤ k ∧ k ≤ -1 then c.gp ⟨(-1 - k).toNat, by omega⟩
  else frame k

/-- `struct sigaction` -/
structure SigAction where
  saHandler : U64
  saFlags : U64
  saRestorer : U64
  saMask : U64

/-- The fields of `struct thread` that signals use.  `mmu` is 0 and `syscallIret` is `none` for
null pointers. -/
structure Thread where
  mmu : ℕ
  syscallIret : Option Frame
  sigMask : U64
  sigPending : U64
  sigActions : ℕ → SigAction

/-- The current root as `user_range_ok` takes it from the thread. -/
def Thread.rangeOk (t : Thread) (m : Machine) (uptr n : ℕ) (write : Bool) : Bool :=
  userRangeOk m (some t.mmu) uptr n write

/-- `sys_sigreturn`: the current thread afterwards, and the value returned. -/
def sysSigreturn (m : Machine) (user : Buffer) (t : Option Thread) : Option Thread × U64 :=
  match t with
  | none => (none, -1#64)
  | some t =>
    match t.syscallIret with
    | none => (some t, -1#64)
    | some frame =>
      let userRsp := (frame 3).toNat
      if !t.rangeOk m userRsp sigframeSize false then (some t, -14#64)
      else
        let sf := readSigframe user userRsp
        (some { t with syscallIret := some (storeContext frame sf), sigMask := sf.oldmask }, 0#64)

/-! ### Delivery -/

def sigkill : ℕ := 9
def sigchld : ℕ := 17
def sigcont : ℕ := 18
def nsig : ℕ := 32

/-- The lowest pending signal that is not masked. -/
def nextSignal (t : Thread) : Option ℕ :=
  (List.range nsig).find? fun i => decide (1 ≤ i) && (t.sigPending &&& ~~~t.sigMask).getLsbD i

/-- What `deliver_signal_ctx` does: nothing, consume a signal, or end the process. -/
inductive Delivery
  | nothing
  | consumed (t : Thread) (ctx : SigFrame) (user : Buffer)
  | exited (status : ℕ)

/-- `deliver_signal_ctx` -/
def deliverSignalCtx (m : Machine) (user : Buffer) (t : Thread) (ctx : SigFrame) : Delivery :=
  match nextSignal t with
  | none => .nothing
  | some sig =>
    let t := { t with sigPending := t.sigPending &&& ~~~(1#64 <<< sig) }
    let sa := t.sigActions sig
    if sig = sigkill then .exited 137
    else if sa.saHandler = 0#64 then
      if sig ≠ sigchld ∧ sig ≠ sigcont then .exited (128 + sig) else .consumed t ctx user
    else if sa.saHandler = 1#64 then .consumed t ctx user
    else if sa.saRestorer = 0#64 then .consumed t ctx user
    else
      let newRsp := ctx.rsp - BitVec.ofNat 64 sigframeSize - 8#64
      if !t.rangeOk m newRsp.toNat (sigframeSize + 8) true then .exited 139
      else
        let user := writeSigframe user (newRsp.toNat + 8) { ctx with oldmask := t.sigMask }
        let user := storeWord user newRsp.toNat sa.saRestorer
        .consumed { t with sigMask := t.sigMask ||| 1#64 <<< sig }
          { ctx with
            rip := sa.saHandler
            rsp := newRsp
            gp := fun i => if i = 1 then BitVec.ofNat 64 sig else ctx.gp i }
          user

/-- `syscall_deliver_signals`; `none` when the process was ended. -/
def syscallDeliverSignals (m : Machine) (user : Buffer) (t : Thread) : Option (Thread × Buffer) :=
  match t.syscallIret with
  | none => some (t, user)
  | some frame =>
    match deliverSignalCtx m user t (loadContext frame) with
    | .nothing => some (t, user)
    | .exited _ => none
    | .consumed t ctx user =>
      some ({ t with syscallIret := some (storeContext frame ctx) }, user)

/-- The frame that `syscall_entry` builds from the user's `rip`, flags, stack pointer and general
registers. -/
def syscallEntry (rip rflags rsp : U64) (gp : Fin 13 → U64) (below : Frame) : Frame :=
  storeContext below ⟨gp, rip, 0x2B#64, rflags, rsp, 0x33#64, 0#64⟩

/-- The privilege level at which `iretq` resumes: the requested privilege level of `CS`. -/
def iretqLevel (frame : Frame) : ℕ := (frame 1).toNat % 4

/-! ### Delivery keeps the selectors -/

variable {m : Machine} {user user' : Buffer} {t t' : Thread} {frame : Frame}

theorem deliverSignalCtx_selectors
    {ctx ctx' : SigFrame} (h : deliverSignalCtx m user t ctx = .consumed t' ctx' user') :
    ctx'.cs = ctx.cs ∧ ctx'.ss = ctx.ss := by
  simp only [deliverSignalCtx] at h
  split at h
  · cases h
  · -- every branch that consumes the signal passes `cs` and `ss` on
    repeat' split at h
    all_goals cases h
    all_goals exact ⟨rfl, rfl⟩

theorem storeContext_cs (frame : Frame) (c : SigFrame) : storeContext frame c 1 = c.cs := rfl

theorem storeContext_ss (frame : Frame) (c : SigFrame) : storeContext frame c 4 = c.ss := rfl

/-- **Delivering signals keeps the selectors of the frame.** -/
theorem syscallDeliverSignals_selectors (hframe : t.syscallIret = some frame)
    (h : syscallDeliverSignals m user t = some (t', user')) :
    ∃ frame', t'.syscallIret = some frame' ∧ frame' 1 = frame 1 ∧ frame' 4 = frame 4 := by
  simp only [syscallDeliverSignals, hframe] at h
  cases hd : deliverSignalCtx m user t (loadContext frame) with
  | nothing =>
    rw [hd] at h
    obtain ⟨rfl, -⟩ := Prod.mk.inj (Option.some.inj h)
    exact ⟨frame, hframe, rfl, rfl⟩
  | exited status =>
    rw [hd] at h
    cases h
  | consumed t1 ctx user1 =>
    obtain ⟨hcs, hss⟩ := deliverSignalCtx_selectors hd
    rw [hd] at h
    obtain ⟨rfl, -⟩ := Prod.mk.inj (Option.some.inj h)
    exact ⟨_, rfl, by rw [storeContext_cs, hcs]; rfl, by rw [storeContext_ss, hss]; rfl⟩

theorem syscallDeliverSignals_of_none (m : Machine) (user : Buffer) (h : t.sigPending = 0#64) :
    syscallDeliverSignals m user t = some (t, user) := by
  have hnone : nextSignal t = none := by
    rw [nextSignal, List.find?_eq_none]
    intro i _
    simp [h]
  rw [syscallDeliverSignals]
  split
  · rfl
  · simp only [deliverSignalCtx, hnone]

/-- The frame has the user selectors. -/
def UserSelectors (frame : Frame) : Prop := frame 1 = 0x2B#64 ∧ frame 4 = 0x33#64

theorem UserSelectors.level (h : UserSelectors frame) : iretqLevel frame = 3 := by
  rw [iretqLevel, h.1]
  decide

/-- Whatever signal is delivered, the thread returns to user mode. -/
def ResumesUser (m : Machine) (user : Buffer) (t : Thread) : Prop :=
  ∀ t' user' frame', syscallDeliverSignals m user t = some (t', user') →
    t'.syscallIret = some frame' → iretqLevel frame' = 3

theorem UserSelectors.resumesUser (h : UserSelectors frame)
    (ht : t.syscallIret = some frame) (m : Machine) (user : Buffer) : ResumesUser m user t := by
  intro t' user' frame' hdeliver hframe'
  obtain ⟨frame1, h1, hcs, hss⟩ := syscallDeliverSignals_selectors ht hdeliver
  cases h1.symm.trans hframe'
  exact UserSelectors.level ⟨hcs.trans h.1, hss.trans h.2⟩

/-- **A frame of `syscall_entry` returns to user mode.** -/
theorem syscallEntry_resumes_user (m : Machine) (user : Buffer) (t : Thread)
    (rip rflags rsp : U64) (gp : Fin 13 → U64) (below : Frame) :
    ResumesUser m user { t with syscallIret := some (syscallEntry rip rflags rsp gp below) } :=
  UserSelectors.resumesUser ⟨rfl, rfl⟩ rfl m user

/-! ### The restored frame -/

/-- `sys_sigreturn` answers 0 exactly when it restores a frame. -/
theorem sysSigreturn_zero_iff {t : Option Thread} {t' : Option Thread} :
    sysSigreturn m user t = (t', 0#64) ↔
      ∃ th frame, t = some th ∧ th.syscallIret = some frame ∧
        th.rangeOk m (frame 3).toNat sigframeSize false = true ∧
        t' = some { th with
          syscallIret := some (storeContext frame (readSigframe user (frame 3).toNat))
          sigMask := (readSigframe user (frame 3).toNat).oldmask } := by
  constructor
  · intro h
    simp only [sysSigreturn] at h
    split at h
    · exact absurd (Prod.mk.inj h).2 (by decide)
    · rename_i th
      split at h
      · exact absurd (Prod.mk.inj h).2 (by decide)
      · rename_i frame hframe
        split at h
        · exact absurd (Prod.mk.inj h).2 (by decide)
        · rename_i hrange
          exact ⟨th, frame, rfl, hframe, by simpa using hrange, (Prod.mk.inj h).1.symm⟩
  · rintro ⟨th, frame, rfl, hframe, hrange, rfl⟩
    simp [sysSigreturn, hframe, hrange]

/-- What the property asks of a call: if it answers 0, the frame it leaves has the user
selectors, and the thread returns to user mode. -/
def SigreturnSafe (m : Machine) (user : Buffer) (t : Option Thread) : Prop :=
  ∀ t', sysSigreturn m user t = (t', 0#64) →
    ∃ th frame, t' = some th ∧ th.syscallIret = some frame ∧ UserSelectors frame ∧
      ResumesUser m user th

/-- **`sys_sigreturn` is safe exactly when** the context it reads, if it reads one, holds the user
selectors. -/
theorem sysSigreturn_resumes_user_iff (m : Machine) (user : Buffer) (t : Option Thread) :
    SigreturnSafe m user t ↔
      ∀ th frame, t = some th → th.syscallIret = some frame →
        th.rangeOk m (frame 3).toNat sigframeSize false = true →
        (readSigframe user (frame 3).toNat).cs = 0x2B#64 ∧
          (readSigframe user (frame 3).toNat).ss = 0x33#64 := by
  constructor
  · intro hsafe th frame ht hframe hrange
    obtain ⟨th', frame', hth', hframe', hsel, -⟩ :=
      hsafe _ (sysSigreturn_zero_iff.mpr ⟨th, frame, ht, hframe, hrange, rfl⟩)
    cases hth'
    cases hframe'
    exact hsel
  · intro hsel t' hzero
    obtain ⟨th, frame, ht, hframe, hrange, rfl⟩ := sysSigreturn_zero_iff.mp hzero
    have huser : UserSelectors (storeContext frame (readSigframe user (frame 3).toNat)) :=
      hsel th frame ht hframe hrange
    exact ⟨_, _, rfl, rfl, huser, huser.resumesUser rfl m user⟩

/-- A thread in a system call, with the user stack pointer at `2 ^ 40`, and no signals. -/
def callingThread : Thread where
  mmu := 1
  syscallIret := some (syscallEntry 0#64 0#64 (BitVec.ofNat 64 (2 ^ 40)) (fun _ => 0#64)
    fun _ => 0#64)
  sigMask := 0#64
  sigPending := 0#64
  sigActions := fun _ => ⟨0#64, 0#64, 0#64, 0#64⟩

/-- A user stack whose context asks for the kernel selectors `0x08` and `0x10`. -/
def forgedStack : Buffer := fun a =>
  if a = 2 ^ 40 + 112 then 0x08 else if a = 2 ^ 40 + 136 then 0x10 else 0

/-- The forged context is restored, and the following `iretq` resumes at level 0. -/
theorem sysSigreturn_restores_kernel_selectors : ∃ th frame,
      sysSigreturn (onePage (2 ^ 40) tableFlags tableFlags) forgedStack (some callingThread)
          = (some th, 0#64) ∧
        th.syscallIret = some frame ∧ frame 1 = 0x08#64 ∧ frame 4 = 0x10#64 ∧
        syscallDeliverSignals (onePage (2 ^ 40) tableFlags tableFlags) forgedStack th
          = some (th, forgedStack) ∧
        iretqLevel frame = 0 := by
  refine ⟨_, _, sysSigreturn_zero_iff.mpr ⟨callingThread, _, rfl, rfl, by decide +kernel, rfl⟩,
    rfl, by decide +kernel, by decide +kernel, ?_, by decide +kernel⟩
  exact syscallDeliverSignals_of_none _ _ rfl

end AxiomeOS.Signal
