import AxiomeOS.Signal.Sigreturn
import Mathlib.Order.Fin.Basic

/-!
# A signal handler and the registers it interrupts

A handler runs between two switches to user mode.  On the way in, `deliver_signal_ctx` saves a
register context on the user stack; it is given that context on the return from a system call
(`syscall_deliver_signals`) or by a timer interrupt (`kernel_deliver_signals_user`).  On the way
out, the restorer calls `sys_sigreturn`, which puts the context into the frame of that system
call, and the exit code of `syscall.S` loads the registers from the frame.

Three things stand between the registers before and after:

* `syscall.S` does not pop the slot of `rax`: the result of `syscall_dispatch` stays in it;
* the saved context has no place for `rcx` and `r11`;
* `struct isr_frame` lists its fields in the order in which `isr.S` pushes the registers, so in
  memory each field stands where the mirrored register was pushed (`loadIsr_isrTimer`).

`handler_return_restores_iff` says exactly what the registers must be for none of it to show.
-/

namespace AxiomeOS.Signal

open Bits Bytes Paging

/-! ### Registers, and how the two entry paths save them -/

/-- The general registers, without the stack pointer. -/
inductive Reg
  | rax | rcx | rdx | rbx | rbp | rsi | rdi | r8 | r9 | r10 | r11 | r12 | r13 | r14 | r15
  deriving DecidableEq, Repr

/-- The registers of a thread in user mode. -/
structure Regs where
  gp : Reg → U64
  rip : U64
  cs : U64
  rflags : U64
  rsp : U64
  ss : U64

/-- The registers that `syscall_entry` pushes and `struct sigframe` holds, in that order. -/
def savedRegs : List Reg :=
  [.rax, .rdi, .rsi, .rdx, .r10, .r8, .r9, .rbx, .rbp, .r12, .r13, .r14, .r15]

def savedReg (i : Fin 13) : Reg := savedRegs.get i

/-- `syscall_entry`.  `r` are the registers with which the program would go on after the
`syscall` instruction, which hands over `rip` and the flags in `rcx` and `r11`. -/
def enterSyscall (r : Regs) (below : Frame) : Frame :=
  syscallEntry r.rip r.rflags r.rsp (fun i => r.gp (savedReg i)) below

/-- The exit of `syscall_entry`: `ret` is what `syscall_dispatch` left in `rax`, and `left` are the
registers that are not popped, as the kernel left them. -/
def leaveSyscall (frame : Frame) (ret : U64) (left : Reg → U64) : Regs where
  gp
    | .r15 => frame (-13)
    | .r14 => frame (-12)
    | .r13 => frame (-11)
    | .r12 => frame (-10)
    | .rbp => frame (-9)
    | .rbx => frame (-8)
    | .r9 => frame (-7)
    | .r8 => frame (-6)
    | .r10 => frame (-5)
    | .rdx => frame (-4)
    | .rsi => frame (-3)
    | .rdi => frame (-2)
    -- `add rsp, 8` steps over `frame[-1]`
    | .rax => ret
    | .rcx => left .rcx
    | .r11 => left .r11
  rip := frame 0
  cs := frame 1
  rflags := frame 2
  rsp := frame 3
  ss := frame 4

/-- The order in which `isr_common` pushes the registers. -/
def isrPushes : List Reg :=
  [.r15, .r14, .r13, .r12, .r11, .r10, .r9, .r8, .rdi, .rsi, .rbp, .rbx, .rdx, .rcx, .rax]

/-- The register fields of `struct isr_frame` in the order in which they are declared. -/
def isrFields : List Reg :=
  [.r15, .r14, .r13, .r12, .r11, .r10, .r9, .r8, .rdi, .rsi, .rbp, .rbx, .rdx, .rcx, .rax]

/-- The kernel stack when `isr_timer` calls `isr_handler`, upwards from the stack pointer: the
processor pushed the return frame, `isr_timer` an error code and the vector. -/
def isrTimer (r : Regs) : List U64 :=
  isrPushes.foldl (fun stack x => r.gp x :: stack)
    [0x20#64, 0#64, r.rip, r.cs, r.rflags, r.rsp, r.ss]

/-- The context that `kernel_deliver_signals_user` takes from the fields of `struct isr_frame`. -/
def loadIsr (f : List U64) : SigFrame where
  gp i := f.getD (isrFields.idxOf (savedReg i)) 0#64
  rip := f.getD 17 0#64
  cs := f.getD 18 0#64
  rflags := f.getD 19 0#64
  rsp := f.getD 20 0#64
  ss := f.getD 21 0#64
  oldmask := 0#64

/-- Write a context back into the fields. -/
def storeIsr (f : List U64) (c : SigFrame) : List U64 :=
  let f := (List.finRange 13).foldl (fun f i => f.set (isrFields.idxOf (savedReg i)) (c.gp i)) f
  ((((f.set 17 c.rip).set 18 c.cs).set 19 c.rflags).set 20 c.rsp).set 21 c.ss

/-- `kernel_deliver_signals_user`; `none` when the process was ended. -/
def kernelDeliverSignalsUser (m : Machine) (user : Buffer) (t : Thread) (f : List U64) :
    Option (Thread × Buffer × List U64) :=
  if (f.getD 18 0#64).toNat % 4 = 0 then some (t, user, f)
  else
    match deliverSignalCtx m user t (loadIsr f) with
    | .nothing => some (t, user, f)
    | .exited _ => none
    | .consumed t ctx user => some (t, user, storeIsr f ctx)

/-- The register that `isr_common` pushed into the place of a field. -/
def mirror : Reg → Reg
  | .rax => .r15 | .rcx => .r14 | .rdx => .r13 | .rbx => .r12 | .rbp => .r11 | .rsi => .r10
  | .rdi => .r9 | .r8 => .r8 | .r9 => .rdi | .r10 => .rsi | .r11 => .rbp | .r12 => .rbx
  | .r13 => .rdx | .r14 => .rcx | .r15 => .rax

/-- **The fields of `struct isr_frame` are mirrored**: a field holds the register that was pushed
from the other end. -/
theorem getD_isrTimer (r : Regs) (x : Reg) :
    (isrTimer r).getD (isrFields.idxOf x) 0#64 = r.gp (mirror x) := by
  cases x <;> rfl

theorem loadIsr_isrTimer (r : Regs) : loadIsr (isrTimer r) =
      ⟨fun i => r.gp (mirror (savedReg i)), r.rip, r.cs, r.rflags, r.rsp, r.ss, 0#64⟩ := by
  simp only [loadIsr, getD_isrTimer]
  rfl

theorem storeContext_gp (frame : Frame) (c : SigFrame) (i : Fin 13) :
    storeContext frame c (-1 - i.val) = c.gp i := by
  rw [storeContext, if_neg (by omega), if_neg (by omega), if_neg (by omega), if_neg (by omega),
    if_neg (by omega), dif_pos (by omega)]
  congr 1
  apply Fin.ext
  show (-1 - (-1 - (i.val : ℤ))).toNat = i.val
  omega

theorem loadContext_enterSyscall (r : Regs) (below : Frame) : loadContext (enterSyscall r below) =
      ⟨fun i => r.gp (savedReg i), r.rip, 0x2B#64, r.rflags, r.rsp, 0x33#64, 0#64⟩ := by
  have hgp : (loadContext (enterSyscall r below)).gp = fun i => r.gp (savedReg i) := by
    funext i
    exact storeContext_gp below _ i
  show SigFrame.mk (loadContext (enterSyscall r below)).gp _ _ _ _ _ _ = _
  rw [hgp]
  rfl

/-! ### The saved frame is read back -/

theorem loadWord_storeWord (user : Buffer) (a : ℕ) (w : U64) :
    loadWord (storeWord user a w) a = w := by
  rw [loadWord, storeWord, getLe_setLe _ _ _ _ w.isLt, BitVec.ofNat_toNat, BitVec.setWidth_eq]

theorem loadWord_storeWord_of_ne (user : Buffer) {a b : ℕ} (w : U64) (h : b + 8 ≤ a ∨ a + 8 ≤ b) :
    loadWord (storeWord user a w) b = loadWord user b := by
  rw [loadWord, storeWord, getLe_setLe_of_disjoint _ _ _ _ _ _ (by omega), loadWord]

/-- The loop that stores the general registers. -/
theorem loadWord_foldl (a : ℕ) (g : Fin 13 → U64) (l : List (Fin 13)) (user : Buffer) (i : Fin 13) :
    loadWord (l.foldl (fun u i => storeWord u (a + 8 * i.val) (g i)) user) (a + 8 * i.val) =
      if i ∈ l then g i else loadWord user (a + 8 * i.val) := by
  induction l generalizing user with
  | nil => rfl
  | cons j l ih =>
    rw [List.foldl_cons, ih]
    by_cases hl : i ∈ l
    · rw [if_pos hl, if_pos (List.mem_cons_of_mem j hl)]
    · rw [if_neg hl]
      by_cases hij : i = j
      · rw [hij, loadWord_storeWord, if_pos List.mem_cons_self]
      · have hval : i.val ≠ j.val := fun h => hij (Fin.ext h)
        rw [loadWord_storeWord_of_ne _ _ (by omega), if_neg]
        rw [List.mem_cons, not_or]
        exact ⟨hij, hl⟩

/-- **A stored signal frame is read back.** -/
theorem readSigframe_writeSigframe (user : Buffer) (a : ℕ) (sf : SigFrame) :
    readSigframe (writeSigframe user a sf) a = sf := by
  have hgp : (readSigframe (writeSigframe user a sf) a).gp = sf.gp := by
    funext i
    show loadWord (writeSigframe user a sf) (a + 8 * i.val) = _
    rw [writeSigframe]
    simp (disch := omega) only [loadWord_storeWord_of_ne]
    rw [loadWord_foldl, if_pos (List.mem_finRange i)]
  show SigFrame.mk (readSigframe (writeSigframe user a sf) a).gp _ _ _ _ _ _ = _
  rw [hgp]
  simp (disch := omega) only [writeSigframe, loadWord_storeWord_of_ne, loadWord_storeWord]

theorem readSigframe_congr {user user' : Buffer} {a : ℕ}
    (h : ∀ j, j < sigframeSize → user (a + j) = user' (a + j)) :
    readSigframe user a = readSigframe user' a := by
  have hword : ∀ k, k + 8 ≤ sigframeSize → loadWord user (a + k) = loadWord user' (a + k) := by
    intro k hk
    rw [loadWord, loadWord, getLe_congr]
    intro j hj
    rw [Nat.add_assoc]
    exact h (k + j) (by omega)
  unfold sigframeSize at hword
  simp (disch := omega) only [readSigframe, hword]

/-! ### From the interrupted registers to the handler and back -/

/-- Where a signal is delivered: on the return from a system call, with its result, or on a timer
interrupt. -/
inductive Path
  | syscall (ret : U64)
  | timer

/-- The registers that the program had, or was about to have, when the signal was delivered. -/
def Path.interrupted (path : Path) (r : Regs) : Regs :=
  match path with
  | .syscall ret => { r with gp := fun x => if x = .rax then ret else r.gp x }
  | .timer => r

/-- The registers a program may not count on: `syscall` overwrites `rcx` and `r11`. -/
def Path.excepted : Path → Reg → Bool
  | .syscall _, x => x == .rcx || x == .r11
  | .timer, _ => false

/-- The context that is given to `deliver_signal_ctx`. -/
def Path.context (path : Path) (r : Regs) (below : Frame) : SigFrame :=
  match path with
  | .syscall _ => loadContext (enterSyscall r below)
  | .timer => loadIsr (isrTimer r)

/-- Deliver signals on the given path: the thread and the user memory afterwards. -/
def Path.deliver (path : Path) (m : Machine) (user : Buffer) (t : Thread) (r : Regs)
    (below : Frame) : Option (Thread × Buffer) :=
  match path with
  | .syscall _ => syscallDeliverSignals m user { t with syscallIret := some (enterSyscall r below) }
  | .timer => (kernelDeliverSignalsUser m user t (isrTimer r)).map fun x => (x.1, x.2.1)

/-- The stack pointer with which the handler starts; the saved frame stands 8 bytes above. -/
def handlerRsp (r : Regs) : U64 := r.rsp - BitVec.ofNat 64 sigframeSize - 8#64

/-- The whole way of one signal: a thread with a deliverable signal that has a handler and a
restorer, interrupted with registers `regs`, and the same thread when the restorer calls
`sys_sigreturn`. -/
structure Trip where
  path : Path
  regs : Regs
  below : Frame
  m : Machine
  user : Buffer
  t : Thread
  sig : ℕ
  /-- A timer interrupt of kernel mode delivers nothing. -/
  userMode : regs.cs.toNat % 4 ≠ 0
  next : nextSignal t = some sig
  notKill : sig ≠ sigkill
  notDefault : (t.sigActions sig).saHandler ≠ 0#64
  notIgnored : (t.sigActions sig).saHandler ≠ 1#64
  restorer : (t.sigActions sig).saRestorer ≠ 0#64
  room : t.rangeOk m (handlerRsp regs).toNat (sigframeSize + 8) true = true
  delivered : Thread × Buffer
  delivery : path.deliver m user t regs below = some delivered
  /-- The machine, the memory and the thread at the call of `sys_sigreturn`. -/
  m' : Machine
  user' : Buffer
  t' : Thread
  frame : Frame
  calling : t'.syscallIret = some frame
  /-- The handler's `ret` took the address of the restorer from the stack. -/
  stack : frame 3 = handlerRsp regs + 8#64
  readable : t'.rangeOk m' (frame 3).toNat sigframeSize false = true
  unaltered : ∀ j, j < sigframeSize →
    user' ((handlerRsp regs).toNat + 8 + j) = delivered.2 ((handlerRsp regs).toNat + 8 + j)
  /-- No other signal is waiting; it would be delivered before the program goes on. -/
  quiet : nextSignal { t' with sigMask := t.sigMask } = none
  /-- What the kernel leaves in the registers that are not popped. -/
  left : Reg → U64

/-- `syscall_dispatch` of `sys_sigreturn`, and the exit to user mode. -/
def Trip.resumed (trip : Trip) : Option (Thread × Regs) :=
  let (t, ret) := sysSigreturn trip.m' trip.user' (some trip.t')
  t.bind fun t => (syscallDeliverSignals trip.m' trip.user' t).bind fun (t, _) =>
    t.syscallIret.map fun frame => (t, leaveSyscall frame ret trip.left)

/-- The program goes on with the registers and the signal mask it had at delivery. -/
def Trip.Restored (trip : Trip) : Prop :=
  ∃ t r, trip.resumed = some (t, r) ∧
    (∀ x, trip.path.excepted x = false → r.gp x = (trip.path.interrupted trip.regs).gp x) ∧
    r.rip = trip.regs.rip ∧ r.rsp = trip.regs.rsp ∧ r.rflags = trip.regs.rflags ∧
    t.sigMask = trip.t.sigMask

theorem Path.context_eq (path : Path) (r : Regs) (below : Frame) :
    (path.context r below).rip = r.rip ∧ (path.context r below).rsp = r.rsp ∧
      (path.context r below).rflags = r.rflags := by
  cases path with
  | syscall ret =>
    rw [Path.context, loadContext_enterSyscall]
    exact ⟨rfl, rfl, rfl⟩
  | timer =>
    rw [Path.context, loadIsr_isrTimer]
    exact ⟨rfl, rfl, rfl⟩

/-- A signal with a handler and a restorer is delivered by saving the context and the mask on the
user stack. -/
theorem deliverSignalCtx_handler {m : Machine} (user : Buffer) {t : Thread} {ctx : SigFrame}
    {sig : ℕ} (hnext : nextSignal t = some sig) (hkill : sig ≠ sigkill)
    (hdefault : (t.sigActions sig).saHandler ≠ 0#64)
    (hignored : (t.sigActions sig).saHandler ≠ 1#64)
    (hrestorer : (t.sigActions sig).saRestorer ≠ 0#64)
    (hroom : t.rangeOk m (ctx.rsp - BitVec.ofNat 64 sigframeSize - 8#64).toNat (sigframeSize + 8)
      true = true) : ∃ t' ctx', deliverSignalCtx m user t ctx = .consumed t' ctx' (storeWord
        (writeSigframe user ((ctx.rsp - BitVec.ofNat 64 sigframeSize - 8#64).toNat + 8)
          { ctx with oldmask := t.sigMask })
        (ctx.rsp - BitVec.ofNat 64 sigframeSize - 8#64).toNat (t.sigActions sig).saRestorer) := by
  have hroom' : ({ t with sigPending := t.sigPending &&& ~~~(1#64 <<< sig) } : Thread).rangeOk m
      (ctx.rsp - BitVec.ofNat 64 sigframeSize - 8#64).toNat (sigframeSize + 8) true = true := hroom
  simp only [deliverSignalCtx, hnext, if_neg hkill, if_neg hdefault, if_neg hignored,
    if_neg hrestorer, hroom', Bool.not_true, Bool.false_eq_true, if_false]
  exact ⟨_, _, rfl⟩

theorem Thread.rangeOk_le {t : Thread} {m : Machine} {uptr n : ℕ} {write : Bool} (hn : n ≠ 0)
    (h : t.rangeOk m uptr n write = true) : uptr ≤ 2 ^ 64 - 1 - n := by
  by_contra hlt
  rw [Thread.rangeOk, userRangeOk, if_neg hn] at h
  split at h
  · cases h
  · rw [if_pos (by omega)] at h
    cases h

theorem Trip.toNat_frameAddress (trip : Trip) :
    (trip.frame 3).toNat = (handlerRsp trip.regs).toNat + 8 := by
  have hle := Thread.rangeOk_le (by decide) trip.room
  rw [trip.stack, BitVec.toNat_add]
  show ((handlerRsp trip.regs).toNat + 8) % 2 ^ 64 = _
  omega

/-- The frame that the delivery saves. -/
def Trip.saved (trip : Trip) : SigFrame :=
  { trip.path.context trip.regs trip.below with oldmask := trip.t.sigMask }

/-- On either path the context and the mask are on the user stack after the delivery. -/
theorem Trip.delivered_eq (trip : Trip) : trip.delivered.2 =
      storeWord (writeSigframe trip.user ((handlerRsp trip.regs).toNat + 8) trip.saved)
        (handlerRsp trip.regs).toNat (trip.t.sigActions trip.sig).saRestorer := by
  have hdelivery := trip.delivery
  have hrsp := (trip.path.context_eq trip.regs trip.below).2.1
  have hroom := trip.room
  unfold handlerRsp at hroom ⊢
  unfold Trip.saved
  rw [← hrsp] at hroom ⊢
  generalize trip.path = path at hdelivery hroom ⊢
  cases path with
  | syscall ret =>
    let calling : Thread := { trip.t with syscallIret := some (enterSyscall trip.regs trip.below) }
    obtain ⟨t₁, ctx₁, hctx⟩ := deliverSignalCtx_handler (t := calling) trip.user trip.next
      trip.notKill trip.notDefault trip.notIgnored trip.restorer hroom
    simp only [Path.deliver, syscallDeliverSignals] at hdelivery
    rw [Path.context] at hctx
    rw [hctx] at hdelivery
    rw [← Option.some.inj hdelivery]
    rfl
  | timer =>
    obtain ⟨t₁, ctx₁, hctx⟩ := deliverSignalCtx_handler trip.user trip.next trip.notKill
      trip.notDefault trip.notIgnored trip.restorer hroom
    have hcs : ¬ ((isrTimer trip.regs).getD 18 0#64).toNat % 4 = 0 := trip.userMode
    simp only [Path.deliver, kernelDeliverSignalsUser, if_neg hcs] at hdelivery
    rw [Path.context] at hctx
    rw [hctx] at hdelivery
    rw [← Option.some.inj hdelivery]
    rfl

theorem Trip.readSigframe_eq (trip : Trip) :
    readSigframe trip.user' (trip.frame 3).toNat = trip.saved := by
  rw [trip.toNat_frameAddress, readSigframe_congr trip.unaltered, trip.delivered_eq]
  refine (readSigframe_congr ?_).trans (readSigframe_writeSigframe trip.user _ trip.saved)
  -- the address of the restorer stands below the frame
  intro j _
  exact setLe_of_lt _ _ _ _ (.inr (by omega))

/-- **The program goes on** with the old mask and the registers in the saved context, except for
`rax`, `rcx` and `r11`. -/
theorem Trip.resumed_eq (trip : Trip) : ∃ t, trip.resumed =
        some (t, leaveSyscall (storeContext trip.frame trip.saved) 0#64 trip.left) ∧
      t.sigMask = trip.t.sigMask := by
  let t : Thread := { trip.t' with
    syscallIret := some (storeContext trip.frame trip.saved)
    sigMask := trip.t.sigMask }
  have hreturn : sysSigreturn trip.m' trip.user' (some trip.t') = (some t, 0#64) := by
    rw [sysSigreturn_zero_iff]
    refine ⟨trip.t', trip.frame, rfl, trip.calling, trip.readable, ?_⟩
    rw [trip.readSigframe_eq]
    rfl
  have hquiet : syscallDeliverSignals trip.m' trip.user' t = some (t, trip.user') := by
    rw [syscallDeliverSignals]
    split
    · rfl
    · simp only [deliverSignalCtx, show nextSignal t = none from trip.quiet]
  refine ⟨t, ?_, rfl⟩
  rw [Trip.resumed, hreturn]
  simp only [Option.bind_some, hquiet]
  rfl

/-! ### When nothing is lost -/

/-- The register whose value the saved context holds under the name of another. -/
def Path.source : Path → Reg → Reg
  | .syscall _ => id
  | .timer => mirror

theorem Path.context_gp (path : Path) (r : Regs) (below : Frame) (i : Fin 13) :
    (path.context r below).gp i = r.gp (path.source (savedReg i)) := by
  cases path with
  | syscall ret => rw [Path.context, loadContext_enterSyscall]; rfl
  | timer => rw [Path.context, loadIsr_isrTimer]; rfl

/-- `sys_sigreturn` answers 0, and that is what `rax` holds; `rcx` and `r11` are not restored. -/
def lost : Reg → Bool
  | .rax | .rcx | .r11 => true
  | _ => false

theorem lost_cases (x : Reg) : x = .rax ∨ x = .rcx ∨ x = .r11 ∨ lost x = false := by
  cases x <;> simp [lost]

theorem Trip.resumed_gp (trip : Trip) (x : Reg) (hx : lost x = false) :
    (leaveSyscall (storeContext trip.frame trip.saved) 0#64 trip.left).gp x =
      trip.regs.gp (trip.path.source x) := by
  have hgp : ∀ i : Fin 13, storeContext trip.frame trip.saved (-1 - i.val) =
      trip.regs.gp (trip.path.source (savedReg i)) := by
    intro i
    rw [storeContext_gp]
    exact trip.path.context_gp trip.regs trip.below i
  cases x
  case rax => cases hx
  case rcx => cases hx
  case r11 => cases hx
  case rdi => exact hgp 1
  case rsi => exact hgp 2
  case rdx => exact hgp 3
  case r10 => exact hgp 4
  case r8 => exact hgp 5
  case r9 => exact hgp 6
  case rbx => exact hgp 7
  case rbp => exact hgp 8
  case r12 => exact hgp 9
  case r13 => exact hgp 10
  case r14 => exact hgp 11
  case r15 => exact hgp 12

/-- What the registers must be for the return to restore them. -/
def Trip.Unharmed (trip : Trip) : Prop :=
  match trip.path with
  | .syscall ret => ret = 0#64
  | .timer =>
    trip.regs.gp .rax = 0#64 ∧ trip.regs.gp .rcx = trip.left .rcx ∧
      trip.regs.gp .r11 = trip.left .r11 ∧
      ∀ x, lost x = false → trip.regs.gp (mirror x) = trip.regs.gp x

/-- **When a handler's return restores the registers.**  On the return from a system call: exactly
when the interrupted call answered 0.  On a timer interrupt: exactly when `rax` was 0, `rcx` and
`r11` were what the kernel happens to leave in them, and every other register held the same as
its mirror image. -/
theorem handler_return_restores_iff (trip : Trip) : trip.Restored ↔ trip.Unharmed := by
  obtain ⟨t, hresumed, hmask⟩ := trip.resumed_eq
  obtain ⟨hrip, hrsp, hflags⟩ := trip.path.context_eq trip.regs trip.below
  have hgp : trip.Restored ↔ ∀ x, trip.path.excepted x = false →
      (leaveSyscall (storeContext trip.frame trip.saved) 0#64 trip.left).gp x =
        (trip.path.interrupted trip.regs).gp x := by
    constructor
    · rintro ⟨t', r, hr, hgp, -⟩
      cases hresumed.symm.trans hr
      exact hgp
    · intro h
      exact ⟨t, _, hresumed, h, hrip, hrsp, hflags, hmask⟩
  have hsource := trip.resumed_gp
  rw [hgp, Trip.Unharmed]
  generalize trip.path = path at hsource ⊢
  cases path with
  | syscall ret =>
    constructor
    · intro h
      exact (h .rax rfl).symm
    · rintro rfl x hx
      obtain rfl | rfl | rfl | hkept := lost_cases x
      · rfl
      · cases hx
      · cases hx
      · have hrax : x ≠ .rax := fun h => by rw [h] at hkept; cases hkept
        rw [hsource x hkept]
        exact (if_neg hrax).symm
  | timer =>
    constructor
    · intro h
      refine ⟨(h .rax rfl).symm, (h .rcx rfl).symm, (h .r11 rfl).symm, ?_⟩
      intro x hx
      exact (hsource x hx).symm.trans (h x rfl)
    · rintro ⟨hrax, hrcx, hr11, hrest⟩ x -
      obtain rfl | rfl | rfl | hkept := lost_cases x
      · exact hrax.symm
      · exact hrcx.symm
      · exact hr11.symm
      · exact (hsource x hkept).trans (hrest x hkept)

/-- A thread with a pending `SIGUSR1` that has a handler and a restorer. -/
def signalled : Thread where
  mmu := 1
  syscallIret := none
  sigMask := 0#64
  sigPending := 1#64 <<< 10
  sigActions := fun _ => ⟨0x10000001000#64, 0#64, 0x10000002000#64, 0#64⟩

/-- User registers with a stack in the page at `2 ^ 40`. -/
def userRegs (gp : Reg → U64) : Regs where
  gp := gp
  rip := 0x10000000100#64
  cs := 0x2B#64
  rflags := 0x202#64
  rsp := 0x10000000400#64
  ss := 0x33#64

def onePageMachine : Machine := onePage (2 ^ 40) tableFlags tableFlags

/-- Delivery at once followed by the return. -/
def directTrip (path : Path) (gp : Reg → U64)
    (h : (path.deliver onePageMachine (fun _ => 0) signalled (userRegs gp) fun _ => 0#64).isSome) :
    Trip where
  path := path
  regs := userRegs gp
  below := fun _ => 0#64
  m := onePageMachine
  user := fun _ => 0
  t := signalled
  sig := 10
  userMode := by show (0x2B#64).toNat % 4 ≠ 0; decide
  next := by decide
  notKill := by decide
  notDefault := by decide
  notIgnored := by decide
  restorer := by decide
  room := by
    show signalled.rangeOk onePageMachine (handlerRsp (userRegs fun _ => 0#64)).toNat _ _ = true
    decide +kernel
  delivered := (path.deliver _ _ _ _ _).get h
  delivery := (Option.some_get h).symm
  m' := onePageMachine
  user' := ((path.deliver _ _ _ _ _).get h).2
  t' := { signalled with sigPending := 0#64, syscallIret := some fun _ => 0x10000000368#64 }
  frame := fun _ => 0x10000000368#64
  calling := rfl
  stack := by
    show 0x10000000368#64 = handlerRsp (userRegs fun _ => 0#64) + 8#64
    decide
  readable := by
    show ({ signalled with sigPending := 0#64, syscallIret := none } : Thread).rangeOk
      onePageMachine (0x10000000368#64).toNat _ _ = true
    decide +kernel
  unaltered := fun _ _ => rfl
  quiet := by
    decide
  left := fun _ => 0#64

theorem handler_return_restores_iff_zero :
    (directTrip (.syscall 0#64) (fun _ => 5#64) (by decide +kernel)).Restored :=
  (handler_return_restores_iff _).mpr rfl

/-- A call that answered 3 seems to have answered 0 once the handler has returned; and a program
that a timer interrupts with 1 in `rdi` finds it in `r9` instead. -/
theorem handler_return_loses_registers :
    (∃ trip : Trip, trip.path = .syscall 3#64 ∧ ∃ t r, trip.resumed = some (t, r) ∧
      r.gp .rax = 0#64 ∧ ¬ trip.Restored) ∧
    ∃ trip : Trip, trip.path = .timer ∧ trip.regs.gp .rdi = 1#64 ∧ trip.regs.gp .r9 = 0#64 ∧
      ∃ t r, trip.resumed = some (t, r) ∧ r.gp .rdi = 0#64 ∧ r.gp .r9 = 1#64 ∧
        ¬ trip.Restored := by
  have hunique : ∀ (trip : Trip) {t t' r r'}, trip.resumed = some (t, r) →
      trip.resumed = some (t', r') → r' = r := by
    intro trip t t' r r' h h'
    exact (Prod.mk.inj (Option.some.inj (h'.symm.trans h))).2
  constructor
  · let trip := directTrip (.syscall 3#64) (fun _ => 0#64) (by decide +kernel)
    obtain ⟨t, hresumed, -⟩ := trip.resumed_eq
    refine ⟨trip, rfl, t, _, hresumed, rfl, ?_⟩
    rintro ⟨t', r, hr, hgp, -⟩
    have hrax : r.gp .rax = 3#64 := hgp .rax rfl
    rw [hunique trip hresumed hr] at hrax
    cases hrax
  · let trip := directTrip .timer (fun x => if x = .rdi then 1#64 else 0#64) (by decide +kernel)
    obtain ⟨t, hresumed, -⟩ := trip.resumed_eq
    have hrdi := trip.resumed_gp .rdi rfl
    have hr9 := trip.resumed_gp .r9 rfl
    refine ⟨trip, rfl, rfl, rfl, t, _, hresumed, hrdi, hr9, ?_⟩
    rintro ⟨t', r, hr, hgp, -⟩
    have hone : r.gp .rdi = 1#64 := hgp .rdi rfl
    rw [hunique trip hresumed hr, hrdi] at hone
    cases hone

end AxiomeOS.Signal
