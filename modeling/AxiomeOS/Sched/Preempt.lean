import AxiomeOS.Lib.Preempt
import AxiomeOS.Sched.Wait
import Mathlib.Data.List.ReduceOption

/-!
# The scheduler under the timer

A system call starts with interrupts off, but the boot thread, and a call that has been suspended
and resumed, run with interrupts on.  There the timer can interrupt a call of the scheduler, and its
handler calls `sched_yield` itself.

Each call is taken apart here into its single accesses to the structures of the scheduler, under the
name of the call.  `exec_prog` says that the accesses together are the call.
-/

namespace AxiomeOS.Sched

open Preempt Runs Option

variable {s s' : State} {e : Event}

/-- What is left of a call.  It returns what `sys_waitpid` returns, if it is that call and reaps a
child. -/
abbrev Code := Prog State (Option Answer)

namespace Code

/-! ### Creating threads -/

def linkReady (t : ThreadPtr) (k : Code) : Code :=
  .get (fun s => some s.readyHead) fun
    | none =>
      .put (fun s => s.modify t fun x => { x with next := some t, prev := some t }) <|
      .put (fun s => some { s with readyHead := some t }) k
    | some h =>
      .get (fun s => s.thread h) fun head =>
      .put (fun s => s.modify t fun x => { x with next := some h, prev := head.prev }) <|
      .get (fun _ => head.prev) fun p =>
      .put (fun s => s.modify p fun x => { x with next := some t }) <|
      .put (fun s => s.modify h fun x => { x with prev := some t }) k

def newThread (t : ThreadPtr) (kstack : ℕ) (mmu : MmuRoot) (parentPid : Int32) (k : Code) : Code :=
  .get (fun s => some s.nextPid) fun pid =>
  .put (fun s => s.modify t (Thread.fill pid parentPid mmu kstack)) <|
  .put (fun s => some { s with nextPid := pid + 1 }) <|
  linkReady t <|
  .put (fun s => some { s with history := .created t :: s.history }) k

def schedSpawn (m : Mem) (k : Option ThreadPtr → Code) : Code :=
  .act (fun s => allocThread s m) fun
    | none => k none
    | some (t, kstack) => newThread t kstack .kernel 0 (k (some t))

def schedSpawnUserIn (m : Mem) (mmu : MmuRoot) (k : Option ThreadPtr → Code) : Code :=
  .act (fun s => allocThread s m) fun
    | none => k none
    | some (t, kstack) =>
      .get (fun s => s.thread s.current) fun parent =>
      newThread t kstack mmu parent.pid (k (some t))

/-- A new address space. -/
def newRoot (m : Mem) (k : Option ℕ → Code) : Code :=
  .act (fun s => some <|
    match m.root.pick s.roots with
    | none => (s, none)
    | some r => ({ s with roots := insert r s.roots }, some r)) k

def spawnProcessWithArgs (m : Mem) (elf : Bool) (k : Option ThreadPtr → Code) : Code :=
  newRoot m fun
    | none => k none
    | some r =>
      if elf then schedSpawnUserIn m (.user r) k
      else .put (fun s => s.vmmFreeRoot (some (.user r))) (k none)

def forkProcess (m : Mem) (k : Option ThreadPtr → Code) : Code :=
  .get (fun s => s.thread s.current) fun cur =>
  .get (fun s => if s.rootOk cur.mmu then some () else none) fun _ =>
  newRoot m fun
    | none => k none
    | some r => schedSpawnUserIn m (.user r) k

def execUserProgram (m : Mem) (elf : Bool) (k : Code) : Code :=
  spawnProcessWithArgs m elf fun
    | none => k
    | some t => .put (fun s => some (schedMarkInit s t)) k

/-! ### Reaping -/

def freeThread (z : ThreadPtr) (k : Code) : Code :=
  let rest : Code :=
    .get (fun s => s.thread z) fun x =>
    .put (fun s => s.vmmFreeRoot x.mmu) <|
    .put (fun s => s.modify z fun x => { x with mmu := none }) <|
    .put (fun s => s.kfree z) <|
    .put (fun s => some { s with history := .freed z :: s.history }) k
  .get (fun s => s.thread z) fun x =>
    match x.stackBase with
    | none => rest
    | some kstack =>
      .put (fun s => s.pmmFreeFrames kstack) <|
      .put (fun s => s.modify z fun x => { x with stackBase := none }) rest

def reapLoop (k : Code) : ℕ → Option ThreadPtr → Option ThreadPtr → Code
  | _, _, none => k
  | 0, _, some _ => .put (fun _ => none) k
  | fuel + 1, prev, some z =>
      .get (fun s => s.thread z) fun x =>
      .get (fun s => orphan s x) fun o =>
        if o then
          freeThread z <|
          .put (fun s => setZombieLink s x.next prev) <|
          reapLoop k fuel prev x.next
        else reapLoop k fuel (some z) x.next

def reapZombies (k : Code) : Code :=
  .get (fun s => some (s.fuel, s.zombieHead)) fun (fuel, z) => reapLoop k fuel none z

def schedReapZombie (z : ThreadPtr) (k : Code) : Code :=
  .get (fun s => some s.zombieHead) fun
    | none => freeThread z k
    | some h =>
      if h = z then
        .get (fun s => s.thread z) fun x =>
        .put (fun s => setZombieLink s x.next none) <|
        freeThread z k
      else .put (fun s => unlinkZombie s z s.fuel h) <| freeThread z k

def kernelRespawnInit (m : InitMem) (k : Code) : Code :=
  if m.file then execUserProgram m.mem m.elf k else k

def schedCheckInit (m : InitMem) (k : Code) : Code :=
  .get (fun s => some s.initDead) fun dead =>
    if dead then
      .put (fun s => some { s with initDead := false }) <|
      .get (fun s => some s.initThread) fun
        | none => kernelRespawnInit m k
        | some z =>
          schedReapZombie z <|
          .put (fun s => some { s with initThread := none }) <|
          kernelRespawnInit m k
    else k

/-! ### Switching -/

def schedYield (m : InitMem) : Code :=
  reapZombies <|
  schedCheckInit m <|
  .get (fun s => some s.readyHead) fun
    | none => .ret none
    | some _ =>
      .get (fun s => some s.current) fun old =>
      .put (fun s => s.modify old fun x => { x with state := .ready, quantum := threadQuantum }) <|
      .get (fun s => nextReady s old) fun t =>
      .put (fun s => switchTo s old t) (.ret none)

def schedSuspend : Code :=
  .get (fun s => some s.readyHead) fun
    | none => .ret none
    | some _ =>
      .get (fun s => some s.current) fun old =>
      .get (fun s => nextReady s old) fun t =>
      .put (fun s => s.modify old fun x => { x with state := .blocked }) <|
      .put (fun s => switchTo s old t) (.ret none)

def schedSleepNs (now ns : ℕ) : Code :=
  if ns = 0 then .ret none
  else
    .put (fun s => s.modify s.current fun x => { x with sleepDeadlineNs := (now + ns) % 2 ^ 64 })
      schedSuspend

/-! ### Exit and wait -/

def unlinkReady (self : ThreadPtr) (k : Code) : Code :=
  .get (fun s => s.thread self) fun x =>
  .put (fun s => some <|
    if s.readyHead = some self then
      { s with readyHead := if x.next = some self then none else x.next }
    else s) <|
  .get (fun s => some s.readyHead) fun
    | none => k
    | some _ =>
      .get (fun _ => x.prev) fun p =>
      .put (fun s => s.modify p fun y => { y with next := x.next }) <|
      .get (fun s => s.thread self) fun x =>
      .get (fun _ => x.next) fun q =>
      .put (fun s => s.modify q fun y => { y with prev := x.prev }) k

def schedExit (status : Int32) (woken : List ThreadPtr) : Code :=
  .get (fun s => some s.current) fun self =>
  .put (fun s => s.modify self fun x => { x with state := .zombie, exitStatus := status }) <|
  .put (fun s => wakeAll s woken) <|
  .put (fun s => some
    { s with initDead := s.initDead || decide (s.initThread = some self) }) <|
  unlinkReady self <|
  .put (fun s => s.modify self fun x => { x with next := s.zombieHead }) <|
  .put (fun s => some
    { s with zombieHead := some self, history := .exited self :: s.history }) <|
  .put (fun s => wakeParent s self) <|
  .get (fun s => some (s.readyHead.getD .idle)) fun t =>
  .put (fun s => switchTo s self t) (.ret none)

def sysWaitpid (pidFilter : Int32) : Code :=
  .get (fun s => s.thread s.current) fun self =>
  .get (fun s => schedChildZombie s self.pid pidFilter) fun
    | some z =>
      .get (fun s => some s.current) fun caller =>
      .get (fun s => s.thread z) fun x =>
      schedReapZombie z (.ret (some ⟨caller, pidFilter, x.pid, x.exitStatus⟩))
    | none =>
      .get (fun s => schedHasChild s self.pid) fun child =>
        if child then schedSuspend else .ret none

/-- A call, made by the running thread on its own stack in its own address space. -/
def prog (e : Event) : Code :=
  .get (fun s => if s.runnable s.current then some () else none) fun _ =>
    match e with
    | .spawn m => schedSpawn m fun _ => .ret none
    | .spawnProcess m elf => spawnProcessWithArgs m elf fun _ => .ret none
    | .fork m => forkProcess m fun _ => .ret none
    | .execInit m elf => execUserProgram m elf (.ret none)
    | .yield m => schedYield m
    | .suspend => schedSuspend
    | .sleep now ns => schedSleepNs now ns
    | .wake t => .put (fun s => schedWake s t) (.ret none)
    | .tick now => .put (fun s => schedTick s now) (.ret none)
    | .exit status woken => schedExit status woken
    | .waitpid pidFilter => sysWaitpid pidFilter

/-! ### The accesses make the call -/

section Exec

variable (s : State) (k : Code) (t z : ThreadPtr) (m : Mem)

theorem exec_linkReady : (linkReady t k).exec s = (Sched.linkReady s t).bind k.exec := by
  rw [linkReady, exec_get, bind_some, Sched.linkReady]
  cases s.readyHead with
  | none => simp [bind_assoc]
  | some h => simp [bind_assoc]

theorem exec_newThread (kstack : ℕ) (mmu : MmuRoot) (parentPid : Int32) :
    (newThread t kstack mmu parentPid k).exec s =
      (Sched.newThread s t kstack mmu parentPid).bind k.exec := by
  simp [newThread, Sched.newThread, exec_linkReady, bind_assoc]

theorem exec_schedSpawn (k : Option ThreadPtr → Code) : (schedSpawn m k).exec s =
    (Sched.schedSpawn s m).bind fun x => (k x.2).exec x.1 := by
  rw [schedSpawn, exec_act, Sched.schedSpawn]
  cases allocThread s m with
  | none => rfl
  | some x =>
    obtain ⟨s1, _ | ⟨t, kstack⟩⟩ := x
    · rfl
    · simp [exec_newThread, bind_assoc]

theorem exec_schedSpawnUserIn (mmu : MmuRoot) (k : Option ThreadPtr → Code) :
    (schedSpawnUserIn m mmu k).exec s =
      (Sched.schedSpawnUserIn s m mmu).bind fun x => (k x.2).exec x.1 := by
  rw [schedSpawnUserIn, exec_act, Sched.schedSpawnUserIn]
  cases allocThread s m with
  | none => rfl
  | some x =>
    obtain ⟨s1, _ | ⟨t, kstack⟩⟩ := x
    · rfl
    · simp [exec_newThread, bind_assoc]

theorem exec_spawnProcessWithArgs (elf : Bool) (k : Option ThreadPtr → Code) :
    (spawnProcessWithArgs m elf k).exec s =
      (Sched.spawnProcessWithArgs s m elf).bind fun x => (k x.2).exec x.1 := by
  rw [spawnProcessWithArgs, newRoot, exec_act, bind_some, Sched.spawnProcessWithArgs]
  cases m.root.pick s.roots with
  | none => rfl
  | some r =>
    cases elf with
    | true => exact exec_schedSpawnUserIn _ m (.user r) k
    | false => simp [bind_assoc]

theorem exec_forkProcess (k : Option ThreadPtr → Code) : (forkProcess m k).exec s =
    (Sched.forkProcess s m).bind fun x => (k x.2).exec x.1 := by
  rw [forkProcess, exec_get, Sched.forkProcess]
  cases s.thread s.current with
  | none => rfl
  | some cur =>
    simp only [bind_some, exec_get, bind_eq_bind]
    split
    · rw [bind_some, newRoot, exec_act, bind_some]
      cases m.root.pick s.roots with
      | none => rfl
      | some r => exact exec_schedSpawnUserIn _ m (.user r) k
    · rfl

theorem exec_execUserProgram (elf : Bool) :
    (execUserProgram m elf k).exec s = (Sched.execUserProgram s m elf).bind k.exec := by
  rw [execUserProgram, exec_spawnProcessWithArgs, Sched.execUserProgram]
  cases Sched.spawnProcessWithArgs s m elf with
  | none => rfl
  | some x => obtain ⟨s1, _ | t⟩ := x <;> rfl

theorem exec_freeThread : (freeThread z k).exec s = (Sched.freeThread s z).bind k.exec := by
  rw [freeThread, exec_get, Sched.freeThread]
  cases s.thread z with
  | none => rfl
  | some x =>
    cases hx : x.stackBase with
    | none => simp [hx, bind_assoc]
    | some kstack => simp [hx, bind_assoc]

theorem exec_reapLoop (fuel : ℕ) (prev z : Option ThreadPtr) :
    (reapLoop k fuel prev z).exec s = (Sched.reapLoop fuel prev z s).bind k.exec := by
  induction fuel generalizing s prev z with
  | zero => cases z <;> rfl
  | succ fuel ih =>
    cases z with
    | none => rfl
    | some z =>
      rw [reapLoop, exec_get, Sched.reapLoop]
      cases s.thread z with
      | none => rfl
      | some x =>
        simp only [bind_some, exec_get, bind_eq_bind]
        cases orphan s x with
        | none => rfl
        | some o =>
          cases o with
          | true => simp [exec_freeThread, bind_assoc, ih]
          | false => simp [ih]

theorem exec_reapZombies : (reapZombies k).exec s = (Sched.reapZombies s).bind k.exec :=
  exec_reapLoop s k s.fuel none s.zombieHead

theorem exec_schedReapZombie :
    (schedReapZombie z k).exec s = (Sched.schedReapZombie s z).bind k.exec := by
  rw [schedReapZombie, exec_get, bind_some, Sched.schedReapZombie]
  cases s.zombieHead with
  | none => exact exec_freeThread s k z
  | some h =>
    by_cases hz : h = z
    · simp [hz, exec_freeThread, bind_assoc]
    · simp [hz, exec_freeThread, bind_assoc]

theorem exec_kernelRespawnInit (m : InitMem) :
    (kernelRespawnInit m k).exec s = (Sched.kernelRespawnInit s m).bind k.exec := by
  rw [kernelRespawnInit, Sched.kernelRespawnInit]
  split
  · exact exec_execUserProgram s k m.mem m.elf
  · rfl

theorem exec_schedCheckInit (m : InitMem) :
    (schedCheckInit m k).exec s = (Sched.schedCheckInit s m).bind k.exec := by
  rw [schedCheckInit, exec_get, bind_some, Sched.schedCheckInit]
  split
  · rw [exec_put, bind_some, exec_get, bind_some]
    dsimp only
    cases s.initThread with
    | none => simp [exec_kernelRespawnInit]
    | some z => simp [exec_schedReapZombie, exec_kernelRespawnInit, bind_assoc]
  · rfl

theorem exec_schedYield (m : InitMem) :
    (schedYield m).exec s = (Sched.schedYield s m).map (·, none) := by
  simp only [schedYield, exec_reapZombies, exec_schedCheckInit, Sched.schedYield, bind_eq_bind,
    map_bind, Function.comp_def]
  refine bind_congr fun s1 _ => bind_congr fun s2 _ => ?_
  rw [exec_get, bind_some]
  cases s2.readyHead with
  | none => rfl
  | some h =>
    simp only [exec_get, exec_put, bind_some, yieldSelect, State.modify]
    split
    · simp [State.set, bind_assoc, map_eq_bind]
    · rfl

theorem exec_schedSuspend : schedSuspend.exec s = (Sched.schedSuspend s).map (·, none) := by
  rw [schedSuspend, exec_get, bind_some, Sched.schedSuspend]
  cases s.readyHead with
  | none => rfl
  | some h =>
    simp only [exec_get, exec_put, bind_some, suspendSelect, bind_eq_bind, map_bind, bind_assoc,
      Function.comp_def]
    refine bind_congr fun t _ => bind_congr fun s1 _ => ?_
    rw [exec_ret, map_eq_bind]
    rfl

theorem exec_schedSleepNs (now ns : ℕ) :
    (schedSleepNs now ns).exec s = (Sched.schedSleepNs s now ns).map (·, none) := by
  rw [schedSleepNs, Sched.schedSleepNs]
  split
  · rfl
  · rw [exec_put, bind_eq_bind, map_bind]
    exact bind_congr fun s1 _ => exec_schedSuspend s1

theorem exec_unlinkReady : (unlinkReady t k).exec s = (Sched.unlinkReady s t).bind k.exec := by
  rw [unlinkReady, exec_get, Sched.unlinkReady]
  cases s.thread t with
  | none => rfl
  | some x =>
    simp only [bind_some, exec_put, exec_get, bind_eq_bind]
    generalize (if s.readyHead = some t then _ else s : State) = s1
    cases s1.readyHead with
    | none => rfl
    | some h => simp [bind_assoc]

theorem exec_schedExit (status : Int32) (woken : List ThreadPtr) :
    (schedExit status woken).exec s = (Sched.schedExit s status woken).map (·, none) := by
  simp [schedExit, Sched.schedExit, exitSelect, exec_unlinkReady, bind_assoc, map_eq_bind]

theorem thread_of_findZombie {p : Thread → Bool} {fuel : ℕ} {z₀ : Option ThreadPtr}
    (h : findZombie s p fuel z₀ = some (some z)) : s.thread z = some (s.heap z) := by
  induction fuel generalizing z₀ with
  | zero => cases z₀ <;> cases h
  | succ fuel ih =>
    cases z₀ with
    | none => cases h
    | some z₀ =>
      rw [findZombie] at h
      obtain ⟨x, hx, h⟩ := bind_eq_some_iff.mp h
      split at h
      · cases h
        rw [State.thread] at hx ⊢
        split at hx
        case isTrue hv => rw [if_pos hv]
        case isFalse => cases hx
      · exact ih h

theorem exec_sysWaitpid (pidFilter : Int32) : (sysWaitpid pidFilter).exec s =
    (Sched.sysWaitpid s pidFilter).map (·, waitpidAnswer s (.waitpid pidFilter)) := by
  rw [sysWaitpid, exec_get, Sched.sysWaitpid, State.thread]
  split
  · simp only [bind_some, exec_get, bind_eq_bind, waitpidAnswer]
    cases hz : schedChildZombie s (s.heap s.current).pid pidFilter with
    | none => rfl
    | some r =>
      cases r with
      | some z =>
        simp only [bind_some, exec_get, exec_schedReapZombie, thread_of_findZombie s z hz]
        exact map_eq_bind.symm
      | none =>
        simp only [bind_some, exec_get]
        cases schedHasChild s (s.heap s.current).pid with
        | none => rfl
        | some child =>
          cases child with
          | true => exact exec_schedSuspend s
          | false => rfl
  · rfl

/-- **The accesses of a call, one after the other, are the call.** -/
theorem exec_prog (e : Event) :
    (prog e).exec s = (step s e).map (·, waitpidAnswer s e) := by
  simp only [prog, exec_get, step]
  split
  · rw [bind_some]
    cases e with
    | spawn m => simp [exec_schedSpawn, act, waitpidAnswer, map_eq_bind, bind_assoc]
    | spawnProcess m elf =>
      simp [exec_spawnProcessWithArgs, act, waitpidAnswer, map_eq_bind, bind_assoc]
    | fork m => simp [exec_forkProcess, act, waitpidAnswer, map_eq_bind, bind_assoc]
    | execInit m elf =>
      simp [exec_execUserProgram, act, waitpidAnswer, map_eq_bind]
    | yield m => exact exec_schedYield s m
    | suspend => exact exec_schedSuspend s
    | sleep now ns => exact exec_schedSleepNs s now ns
    | wake t => simp [act, waitpidAnswer, map_eq_bind]
    | tick now => simp [act, waitpidAnswer, map_eq_bind]
    | exit status woken => exact exec_schedExit s status woken
    | waitpid pidFilter => exact exec_sysWaitpid s pidFilter
  · rfl

end Exec

end Code

/-! ### Interrupts -/

/-- The interrupts that touch the scheduler: the timer, and input that a reader of the terminal may
be waiting for. -/
inductive Irq
  | timer (now : ℕ) (m : InitMem)
  | input (t : Option ThreadPtr)

/-- `timer_irq_wrapper`, which yields when the quantum of the running thread is used up, and the
handlers of the keyboard and of the serial port. -/
def handler (s : State) : Irq → Option State
  | .timer now m => do
      let s ← step s (.tick now)
      let x ← s.thread s.current
      if x.quantum = 0 then step s (.yield m) else some s
  | .input t => step s (.wake t)

def kernel : System State (Option Answer) ThreadPtr Event Irq where
  current := State.current
  prog := Code.prog
  handler := handler

abbrev Kernel := Config State (Option Answer) ThreadPtr

abbrev Trace := List (Preempt.Event Event Irq)

/-- What is asked of a call when it begins. -/
def Meets (A : State → Event → Prop) (s : State) (e : Event) : Prop := Admissible s e ∧ A s e

/-- What is asked of an interrupt: that of the timer may yield, input wakes a thread. -/
def IrqMeets (A : State → Event → Prop) (s : State) : Irq → Prop
  | .timer _ m => A s (.yield m)
  | .input t => A s (.wake t)

/-- Calls and interrupts meet `A`. -/
abbrev Permitted (A : State → Event → Prop) : Kernel → Preempt.Event Event Irq → Prop :=
  Allowed (Meets A) (IrqMeets A)

/-- No interrupt falls into a call, and calls and interrupts meet `A`. -/
def Quiet (A : State → Event → Prop) (c : Kernel) (e : Preempt.Event Event Irq) : Prop :=
  Preempt.Undisturbed c e ∧ Permitted A c e

/-- A run in which no interrupt falls into a call. -/
abbrev QuietRun (A : State → Event → Prop) : Kernel → Trace → Kernel → Prop :=
  RunIn (Quiet A) (Step kernel)

/-- A condition that a tick of the timer meets, and that it leaves to the yield after it. -/
structure TimerOk (A : State → Event → Prop) : Prop where
  tick : ∀ s now, A s (.tick now)
  yield : ∀ s now m s', Inv s → schedStep s (.tick now) s' → A s (.yield m) → A s' (.yield m)

theorem timerOk_true : TimerOk fun _ _ => True := ⟨fun _ _ => trivial, fun _ _ _ _ _ _ _ => trivial⟩

theorem timerOk_wakesLive : TimerOk WakesLive :=
  ⟨fun _ _ => trivial, fun _ _ _ _ _ _ _ => trivial⟩

theorem timerOk_pidsLeft : TimerOk PidsLeft where
  tick _ _ := nofun
  yield s now m s' h hs hleft := by
    obtain ⟨-, heff⟩ := h.effect hs
    cases heff with
    | creates he _ => cases he
    | ticks => exact hleft

variable {A : State → Event → Prop} {I : State → List Answer → Prop} {c c' : Kernel}
  {es : Trace}

/-- What whole calls keep, an interrupt between two calls keeps. -/
theorem keeps_of_handler {l : List Answer} {i : Irq} (hA : TimerOk A)
    (hstep : ∀ s l e s', Inv s → I s l → A s e → schedStep s e s' →
      I s' (l ++ (waitpidAnswer s e).toList))
    (h : Inv s ∧ I s l) (hi : IrqMeets A s i) (hs : handler s i = some s') : Inv s' ∧ I s' l := by
  -- neither a tick nor a yield nor a wake has an answer
  have hkeep : ∀ {s s' : State} {e : Event}, Inv s ∧ I s l → A s e → schedStep s e s' →
      waitpidAnswer s e = none → Inv s' ∧ I s' l := by
    intro s s' e h hAe hst hnone
    have hI := hstep s l e s' h.1 h.2 hAe hst
    rw [hnone, toList_none, List.append_nil] at hI
    exact ⟨(h.1.effect hst).1, hI⟩
  cases i with
  | timer now m =>
    obtain ⟨s1, hs1, hs⟩ := bind_eq_some_iff.mp hs
    have htick : schedStep s (.tick now) s1 := ⟨trivial, hs1⟩
    have h1 := hkeep h (hA.tick s now) htick rfl
    obtain ⟨x, -, hs⟩ := bind_eq_some_iff.mp hs
    split at hs
    · exact hkeep h1 (hA.yield s now m s1 h.1 htick hi) ⟨trivial, hs⟩ rfl
    · exact some.inj hs ▸ h1
  | input t => exact hkeep h hi ⟨trivial, hs⟩ rfl

/-- **The run rule.**  What whole calls keep holds along every run in which no interrupt falls into
a call. -/
theorem serial_of_run (hA : TimerOk A)
    (hstep : ∀ s l e s', Inv s → I s l → A s e → schedStep s e s' →
      I s' (l ++ (waitpidAnswer s e).toList))
    (hidle : c.Idle kernel) (h : Inv c.s ∧ I c.s c.results.reduceOption)
    (hrun : QuietRun A c es c') :
    Serial kernel (Meets A) (fun s l => Inv s ∧ I s l.reduceOption) c' := by
  refine hrun.invariant _ (fun c e c' hc hq hs => hc.step ?_ ?_ hq.1 hq.2 hs) (.idle hidle h)
  · intro s l e s' r hI hAe hexec
    have hexec' := hexec.symm.trans (Code.exec_prog s e)
    obtain ⟨s1, hs1, heq⟩ := map_eq_some_iff.mp hexec'.symm
    cases heq
    have hst : schedStep s e s' := ⟨hAe.1, hs1⟩
    refine ⟨(hI.1.effect hst).1, ?_⟩
    have hI' := hstep s _ e s' hI.1 hI.2 hAe.2 hst
    rwa [← List.concat_eq_append, List.reduceOption_concat]
  · intro s l i s' hI hi hs
    exact keeps_of_handler hA hstep hI hi hs

/-- The invariant along a run from the start. -/
theorem serial_inv_of_run (hA : TimerOk A) {g : ThreadPtr → Thread}
    (hrun : QuietRun A (kernel.start (schedInit g)) es c) :
    Serial kernel (Meets A) (fun s _ => Inv s ∧ True) c :=
  serial_of_run (I := fun _ _ => True) hA (fun _ _ _ _ _ _ _ _ => trivial) (kernel.start_idle _)
    ⟨schedInit_inv g, trivial⟩ hrun

theorem inv_of_quiet (hA : TimerOk A) {g : ThreadPtr → Thread}
    (hrun : QuietRun A (kernel.start (schedInit g)) es c)
    (hidle : c.Idle kernel) : Inv c.s :=
  ((serial_inv_of_run hA hrun).of_idle hidle).1

theorem inv_pids_of_quiet {g : ThreadPtr → Thread}
    (hrun : QuietRun PidsLeft (kernel.start (schedInit g)) es c)
    (hidle : c.Idle kernel) : Inv c.s ∧ Pids c.s :=
  (serial_of_run (I := fun s _ => Pids s) timerOk_pidsLeft
    (fun _ _ _ _ h hpids hleft hs => hpids.step h hs hleft) (kernel.start_idle _)
    ⟨schedInit_inv g, pids_schedInit g⟩ hrun).of_idle hidle

/-! ### Checking runs -/

instance (s : State) : (e : Event) → Decidable (Admissible s e)
  | .spawn _ | .spawnProcess _ _ | .fork _ | .yield _ | .wake _ | .tick _ => .isTrue trivial
  | .execInit _ _ => inferInstanceAs (Decidable (_ ∧ _))
  | .suspend | .sleep _ _ | .exit _ _ | .waitpid _ => inferInstanceAs (Decidable (_ ≠ _))

instance (s : State) : (e : Event) → Decidable (WakesLive s e)
  | .wake none => .isTrue nofun
  | .wake (some t) => decidable_of_iff (s.valid t = true) (by simp [WakesLive])
  | .exit _ woken => inferInstanceAs (Decidable (∀ t ∈ woken, s.valid t = true))
  | .spawn _ | .spawnProcess _ _ | .fork _ | .execInit _ _ | .yield _ | .suspend | .sleep _ _
  | .tick _ | .waitpid _ => .isTrue trivial

instance (s : State) : (e : Event) → Decidable (PidsLeft s e)
  | .yield _ => inferInstanceAs (Decidable (_ = true → _ < _))
  | .spawn _ | .spawnProcess _ _ | .fork _ | .execInit _ _ =>
    inferInstanceAs (Decidable (_ = true → _ < _))
  | .suspend | .sleep _ _ | .wake _ | .tick _ | .exit _ _ | .waitpid _ => .isTrue nofun

instance [∀ s e, Decidable (A s e)] (s : State) (e : Event) : Decidable (Meets A s e) :=
  inferInstanceAs (Decidable (_ ∧ _))

instance [∀ s e, Decidable (A s e)] (s : State) : (i : Irq) → Decidable (IrqMeets A s i)
  | .timer _ m => inferInstanceAs (Decidable (A s (.yield m)))
  | .input t => inferInstanceAs (Decidable (A s (.wake t)))

instance [∀ s e, Decidable (A s e)] (c : Kernel) (e : Preempt.Event Event Irq) :
    Decidable (Quiet A c e) :=
  inferInstanceAs (Decidable (_ ∧ _))

instance (c : Kernel) : Decidable (c.Idle kernel) :=
  decidable_of_iff (c.cpu = c.s.current ∧ c.calls.isEmpty) (and_congr_right' List.isEmpty_iff)

/-- A call and its accesses. -/
def call (e : Event) (n : ℕ) : Trace := .begin e :: List.replicate n .next

/-- The configuration after events that go through, each meeting `G`. -/
def after (G : Kernel → Preempt.Event Event Irq → Prop) [∀ c e, Decidable (G c e)] (c : Kernel)
    (es : Trace) : Option Kernel :=
  execAll (Config.fire kernel) (fun c e => G c e ∧ c.Enabled e) c es

theorem run_of_after {G : Kernel → Preempt.Event Event Irq → Prop} [∀ c e, Decidable (G c e)]
    (h : after G c es = some c') : RunIn G (Step kernel) c es c' := by
  have hrun := runIn_of_execAll h
  clear h
  induction hrun with
  | nil => exact .nil _
  | cons hst _ ih => exact .cons ⟨hst.1.1, hst.1.2, hst.2⟩ ih

def sampleInit : InitMem := ⟨sampleMem, true, true⟩

/-- `kmain` starts init, which forks a child and exits; the boot thread goes on. -/
def initExits : Trace :=
  call (.execInit sampleMem true) 15 ++ call (.yield sampleInit) 8 ++ call (.fork sampleMem) 16 ++
    call (.exit 0 []) 18

/-! ### No use after free -/

/-- **No use after free.**  In every run in which no interrupt falls into a call, every access goes
through: none is to a thread structure, a kernel stack or an address space that has been freed, and
nothing is freed twice. -/
theorem fire_of_undisturbed (g : ThreadPtr → Thread) {es : Trace} {c : Kernel}
    (hrun : QuietRun WakesLive (kernel.start (schedInit g)) es c)
    {e : Preempt.Event Event Irq} (hen : c.Enabled e) (hq : Quiet WakesLive c e) :
    (c.fire kernel e).isSome := by
  refine (serial_inv_of_run timerOk_wakesLive hrun).fires ?_ ?_ hen hq.1 hq.2
  · intro s _ e hI hA
    obtain ⟨s', hs', -⟩ := hI.1.step hA.1 hA.2
    show ((Code.prog e).exec s).isSome
    rw [Code.exec_prog, hs']
    rfl
  · intro s _ i hI hi
    cases i with
    | timer now m =>
      obtain ⟨s1, hs1, h1⟩ := hI.1.step (e := .tick now) trivial trivial
      obtain ⟨s2, hs2, -⟩ := h1.step (e := .yield m) trivial trivial
      show (handler s (.timer now m)).isSome
      simp only [handler, hs1, bind_eq_bind, bind_some, State.thread, h1.valid_current, if_true,
        hs2]
      split <;> rfl
    | input t =>
      obtain ⟨s1, hs1, -⟩ := hI.1.step (e := .wake t) trivial hi
      show (handler s (.input t)).isSome
      rw [handler, hs1]
      rfl

/-- A kernel thread is started, runs and exits, nine ticks pass, and the boot thread begins to
yield. -/
def sweep (n : ℕ) : Trace :=
  call (.spawn sampleMem) 12 ++ call (.yield sampleInit) 8 ++ call (.exit 0 []) 18 ++
    List.replicate 9 (.irq (.timer 0 sampleInit)) ++ call (.yield sampleInit) n

theorem fire_of_undisturbed_sweep : ∃ c, QuietRun WakesLive
    (kernel.start bootSample) (sweep 12) c ∧ (c.fire kernel .next).isSome := by
  have hsome : (after (Quiet WakesLive) (kernel.start bootSample) (sweep 12)).isSome := by
    decide +kernel
  have hen : ((after (Quiet WakesLive) (kernel.start bootSample) (sweep 12)).map
      fun c => c.within.isSome) = some true := by decide +kernel
  obtain ⟨c, hc⟩ := isSome_iff_exists.mp hsome
  rw [hc] at hen
  exact ⟨c, run_of_after hc, fire_of_undisturbed _ (run_of_after hc) (some.inj hen)
    ⟨trivial, trivial⟩⟩

/-- **A zombie is used after it has been freed.**  The boot thread, which runs with interrupts on,
is in the middle of `reap_zombies`: it has freed the thread that has exited and has not yet taken it
off the zombie list.  The timer comes, and the `sched_yield` of its handler finds the thread
there. -/
theorem freed_zombie_used : ∃ c, QuietRun WakesLive
    (kernel.start bootSample) (sweep 12) c ∧ c.fire kernel (.irq (.timer 0 sampleInit)) = none := by
  have hnone : ((after (Quiet WakesLive) (kernel.start bootSample) (sweep 12)).map
      fun c => (c.fire kernel (.irq (.timer 0 sampleInit))).isNone) = some true := by decide +kernel
  obtain ⟨c, hc, hfire⟩ := map_eq_some_iff.mp hnone
  exact ⟨c, run_of_after hc, isNone_iff_eq_none.mp hfire⟩

/-! ### The lists -/

/-- The boot thread starts a thread, nine ticks pass, and it begins to start another.  When the new
structure points to the last thread of the ring the timer comes, and that thread runs and exits.
Then the boot thread goes on. -/
def spawnInterrupted : Trace :=
  call (.spawn sampleMem) 12 ++ List.replicate 9 (.irq (.timer 0 sampleInit)) ++
    call (.spawn sampleMem) 9 ++ .irq (.timer 0 sampleInit) :: call (.exit 0 []) 18 ++
    List.replicate 3 .next

/-- **Own memory.**  In every run in which no interrupt falls into a call, whenever no call is in
progress: each thread that has been created and not reaped has a kernel stack and, if it is a
process, an address space that are allocated and nobody else's. -/
theorem own_memory_of_undisturbed (g : ThreadPtr → Thread) {es : Trace}
    {c : Kernel}
    (hrun : QuietRun (fun _ _ => True) (kernel.start (schedInit g)) es c)
    (hidle : c.Idle kernel) : ∀ t ∈ alive c.s.history ++ unreaped c.s.history,
      (∃ k ∈ c.s.kstacks, (c.s.heap t).stackBase = some k) ∧
      (∀ r, (c.s.heap t).mmu = some (.user r) → r ∈ c.s.roots) ∧
      ∀ u ∈ alive c.s.history ++ unreaped c.s.history, u ≠ t →
        (c.s.heap u).stackBase ≠ (c.s.heap t).stackBase ∧
        ∀ r, (c.s.heap t).mmu = some (.user r) → (c.s.heap u).mmu ≠ some (.user r) := by
  have h := (inv_of_quiet timerOk_true hrun hidle).shape
  intro t ht
  refine ⟨h.stack t ht, h.root t ht, fun u hu hne => ⟨fun heq => ?_, fun r hr hr' => ?_⟩⟩
  · exact hne (h.stackInj u hu t ht heq)
  · exact hne (h.rootInj u hu t ht r hr' hr)

theorem own_memory_of_undisturbed_initExits : ∃ c, QuietRun (fun _ _ => True)
    (kernel.start bootSample) initExits c ∧
      (c.s.heap (.heap 2)).stackBase ≠ (c.s.heap (.heap 1)).stackBase := by
  have hsome : ((after (Quiet fun _ _ => True) (kernel.start bootSample) initExits).map fun c =>
      decide (c.Idle kernel ∧
        .heap 1 ∈ alive c.s.history ++ unreaped c.s.history ∧
        .heap 2 ∈ alive c.s.history ++ unreaped c.s.history)) = some true := by decide +kernel
  obtain ⟨c, hc, hdec⟩ := map_eq_some_iff.mp hsome
  obtain ⟨hidle, h1, h2⟩ := of_decide_eq_true hdec
  exact ⟨c, run_of_after hc, ((own_memory_of_undisturbed _ (run_of_after hc)
    hidle _ h1).2.2 _ h2 (by decide)).1⟩

/-- **Pids name threads.**  In every run in which no interrupt falls into a call and no thread is
created after `next_pid` has wrapped around, whenever no call is in progress: every thread of the
ring and every zombie has a positive pid of its own, and a pid handed out before that no thread on
the ring has now is never seen there again. -/
theorem pids_of_undisturbed (g : ThreadPtr → Thread) {es₀ es : Trace}
    {c c' : Kernel} (hrun : QuietRun PidsLeft (kernel.start (schedInit g)) es₀ c)
    (hidle : c.Idle kernel) (hrest : QuietRun PidsLeft c es c')
    (hidle' : c'.Idle kernel) :
    (∀ t ∈ threads c.s, 0 < (c.s.heap t).pid ∧
      ∀ u ∈ threads c.s, (c.s.heap t).pid = (c.s.heap u).pid → t = u) ∧
    ∀ pid < c.s.nextPid, (∀ t ∈ .main :: alive c.s.history, (c.s.heap t).pid ≠ pid) →
      ∀ t ∈ .main :: alive c'.s.history, (c'.s.heap t).pid ≠ pid := by
  obtain ⟨hinv, hpids⟩ := inv_pids_of_quiet hrun hidle
  refine ⟨fun t ht => ⟨hpids.pos t ht, hpids.inj t ht⟩, fun pid hpid hlive => ?_⟩
  have habs := serial_of_run (I := fun s _ => Absent pid s) timerOk_pidsLeft
    (fun s _ e s' h hX hleft hs => hX.step h hs hleft) hidle ⟨hinv, hlive, fun _ => hpid⟩ hrest
  exact (habs.of_idle hidle').2.live

/-- Init forks a process, which forks a child and waits for it. -/
def forksAndWaits : Trace :=
  call (.execInit sampleMem true) 15 ++ call (.yield sampleInit) 8 ++ call (.fork sampleMem) 16 ++
    call (.yield sampleInit) 8 ++ call (.fork sampleMem) 16 ++ call (.waitpid (-1)) 9

theorem pids_of_undisturbed_child : ∃ c, QuietRun PidsLeft
    (kernel.start bootSample) forksAndWaits c ∧ 0 < (c.s.heap (.heap 3)).pid := by
  have hsome : ((after (Quiet PidsLeft) (kernel.start bootSample) forksAndWaits).map fun c =>
      decide (c.Idle kernel ∧ .heap 3 ∈ threads c.s)) = some true := by
    decide +kernel
  obtain ⟨c, hc, hdec⟩ := map_eq_some_iff.mp hsome
  obtain ⟨hidle, h3⟩ := of_decide_eq_true hdec
  exact ⟨c, run_of_after hc,
    ((pids_of_undisturbed _ (run_of_after hc) hidle (.nil _) hidle).1 _ h3).1⟩

/-! ### Waiting for children -/

/-- What the calls of `sys_waitpid` have returned so far. -/
def answered (c : Kernel) : List Answer := c.results.reduceOption

theorem answers_append {es : List Event} (hrun : RunIn A schedStep s es s') (e : Event) :
    answers s (es ++ [e]) = answers s es ++ (waitpidAnswer s' e).toList := by
  induction hrun with
  | nil s =>
    rw [List.nil_append, answers, answers, List.nil_append]
    cases step s e <;> simp [answers]
  | cons hst _ ih =>
    rw [List.cons_append, answers, answers, hst.2.2]
    simp only [ih, List.append_assoc]

/-- A whole call is a step. -/
theorem step_of_calls (hidle : c.Idle kernel) (h : Calls kernel c e c') :
    step c.s e = some c'.s ∧ c'.Idle kernel := by
  obtain ⟨s, r, hexec, rfl⟩ := h.exec hidle
  have hmap : (step c.s e).map (·, waitpidAnswer c.s e) = some (s, r) :=
    (Code.exec_prog c.s e).symm.trans hexec
  obtain ⟨s1, hs1, heq⟩ := map_eq_some_iff.mp hmap
  cases heq
  exact ⟨hs1, rfl, rfl⟩

/-- **A child is waited for once.**  In every run in which no interrupt falls into a call and no
thread is created after `next_pid` has wrapped around: a child other than init that exits while its
parent is alive is returned by at most one call of `sys_waitpid`, which its parent has made with a
filter that matches; until then, and as long as its parent has not exited, it is kept for it. -/
theorem child_waited_once (g : ThreadPtr → Thread) {es₀ es : Trace}
    {c c₁ c₂ : Kernel}
    (hrun : QuietRun PidsLeft (kernel.start (schedInit g)) es₀ c)
    (hidle : c.Idle kernel) (hinit : c.s.initThread ≠ some c.s.current)
    {p : ThreadPtr} (hp : p ∈ .main :: alive c.s.history) (hne : p ≠ c.s.current)
    (hparent : (c.s.heap p).pid = (c.s.heap c.s.current).parentPid) {status : Int32}
    {woken : List ThreadPtr} (hmain : c.s.current ≠ .main)
    (hexit : Calls kernel c (.exit status woken) c₁)
    (hrest : QuietRun PidsLeft c₁ es c₂) (hidle₂ : c₂.Idle kernel) :
    WaitedOnce c.s.current p (c.s.heap c.s.current).pid (c.s.heap c.s.current).parentPid status
      (((answered c₂).drop (answered c₁).length).filter fun a =>
        decide (a.pid = (c.s.heap c.s.current).pid)) c₂.s := by
  obtain ⟨hinv, hpids⟩ := inv_pids_of_quiet hrun hidle
  obtain ⟨hs₁, hidle₁⟩ := step_of_calls hidle hexit
  have hstep₁ : schedStep c.s (.exit status woken) c₁.s := ⟨hmain, hs₁⟩
  -- the calls since the exit, as whole calls
  have hserial := serial_of_run
    (I := fun s l => ∃ es, RunIn PidsLeft schedStep c₁.s es s ∧ l = answered c₁ ++ answers c₁.s es)
    timerOk_pidsLeft ?_ hidle₁
    ⟨(hinv.effect hstep₁).1, [], .nil _, (List.append_nil _).symm⟩ hrest
  · obtain ⟨-, es', hrun', hl⟩ := hserial.of_idle hidle₂
    rw [show answered c₂ = answered c₁ ++ answers c₁.s es' from hl, List.drop_left]
    exact hinv.waitedOnce hpids hinit hp hne hparent hstep₁ hrun'
  · rintro s _ e s' - ⟨es', hrun', rfl⟩ hleft hs
    refine ⟨es' ++ [e], hrun'.append (.cons ⟨hleft, hs⟩ (.nil _)), ?_⟩
    rw [answers_append hrun', List.append_assoc]

/-- The child exits with the status 7, the boot thread and init yield, and the parent of the child
looks for it again: it gets its pid and its status. -/
theorem child_waited_once_status : ∃ c c₁ c₂ : Kernel,
    QuietRun PidsLeft (kernel.start bootSample) forksAndWaits c ∧
    Calls kernel c (.exit 7 []) c₁ ∧
    QuietRun PidsLeft c₁
      (call (.yield sampleInit) 10 ++ call (.yield sampleInit) 10 ++ call (.waitpid (-1)) 16) c₂ ∧
    answered c₂ = [⟨.heap 2, -1, 5, 7⟩] ∧
    WaitedOnce (.heap 3) (.heap 2) 5 4 7 (((answered c₂).drop (answered c₁).length).filter fun a =>
      decide (a.pid = 5)) c₂.s := by
  have hsome : ((after (Quiet PidsLeft) (kernel.start bootSample) forksAndWaits).bind fun c =>
      (after (Quiet PidsLeft) c (call (.exit 7 []) 18)).bind fun c₁ =>
      (after (Quiet PidsLeft) c₁ (call (.yield sampleInit) 10 ++ call (.yield sampleInit) 10 ++
        call (.waitpid (-1)) 16)).map fun c₂ =>
      decide ((c.Idle kernel ∧ c.s.initThread ≠ some (.heap 3) ∧
        .heap 2 ∈ .main :: alive c.s.history ∧ c.s.current = .heap 3 ∧
        (c.s.heap (.heap 2)).pid = 4 ∧
        (c.s.heap (.heap 3)).pid = 5 ∧ (c.s.heap (.heap 3)).parentPid = 4) ∧
        c₁.Idle kernel ∧
        c₂.Idle kernel ∧ answered c₂ = [⟨.heap 2, -1, 5, 7⟩])) =
      some true := by decide +kernel
  obtain ⟨c, hc, hsome⟩ := bind_eq_some_iff.mp hsome
  obtain ⟨c₁, hc₁, hsome⟩ := bind_eq_some_iff.mp hsome
  obtain ⟨c₂, hc₂, hdec⟩ := map_eq_some_iff.mp hsome
  obtain ⟨⟨hidle, hinit, hp, hcur, hpid2, hpid3, hppid⟩, hidle₁, hidle₂, hans⟩ :=
    of_decide_eq_true hdec
  have hexit : Calls kernel c (.exit 7 []) c₁ :=
    ⟨18, (run_of_after hc₁).run, hidle₁⟩
  have hw := child_waited_once _ (run_of_after hc) hidle
    (by rw [hcur]; exact hinit) hp (by rw [hcur]; decide) (by rw [hcur, hpid2, hppid])
    (by rw [hcur]; decide) hexit (run_of_after hc₂) hidle₂
  rw [hcur, hpid3, hppid] at hw
  exact ⟨c, c₁, c₂, run_of_after hc, hexit, run_of_after hc₂, hans, hw⟩

/-- A process forks two children and waits.  The first exits with the status 7 and wakes the
process, which finds it at the head of the zombie list.  When it has read what follows there, and
has not yet stored that, the timer comes and goes on to the second child. -/
def waitInterrupted : Trace :=
  call (.spawnProcess sampleMem true) 14 ++ call (.yield sampleInit) 8 ++
    call (.fork sampleMem) 16 ++ call (.fork sampleMem) 16 ++ call (.waitpid (-1)) 9 ++
    call (.exit 7 []) 18 ++ call (.yield sampleInit) 10 ++
    List.replicate 9 (.irq (.timer 0 sampleInit)) ++ call (.waitpid (-1)) 7 ++
    [.irq (.timer 0 sampleInit)]

/-- **A child is lost.**  The second child exits, with the status 8, and is the head of the zombie
list, until the process goes on: it stores what followed the first child.  It gets the first one,
and will never get the second. -/
theorem child_lost : ∃ c c₁ c₂ : Kernel,
    RunIn (Permitted PidsLeft) (Step kernel) (kernel.start bootSample) waitInterrupted c ∧
    c.s.current = .heap 3 ∧ .heap 1 ∈ alive c.s.history ∧
    (c.s.heap (.heap 3)).pid = 5 ∧ (c.s.heap (.heap 3)).parentPid = 3 ∧
    RunIn (Permitted PidsLeft) (Step kernel) c (call (.exit 8 []) 18) c₁ ∧
    RunIn (Permitted PidsLeft) (Step kernel) c₁
      (call (.yield sampleInit) 12 ++ List.replicate 9 .next) c₂ ∧
    c₂.Idle kernel ∧ answered c₂ = [⟨.heap 1, -1, 4, 7⟩] ∧
    ¬WaitedOnce (.heap 3) (.heap 1) 5 3 8 (((answered c₂).drop (answered c₁).length).filter fun a =>
      decide (a.pid = 5)) c₂.s := by
  have hsome : ((after (Permitted PidsLeft) (kernel.start bootSample)
        waitInterrupted).bind fun c =>
      (after (Permitted PidsLeft) c (call (.exit 8 []) 18)).bind fun c₁ =>
      (after (Permitted PidsLeft) c₁
        (call (.yield sampleInit) 12 ++ List.replicate 9 .next)).map fun c₂ =>
      decide ((c.s.current = .heap 3 ∧ .heap 1 ∈ alive c.s.history ∧
        (c.s.heap (.heap 3)).pid = 5 ∧ (c.s.heap (.heap 3)).parentPid = 3) ∧ answered c₁ = [] ∧
        c₂.Idle kernel ∧ answered c₂ = [⟨.heap 1, -1, 4, 7⟩] ∧
        c₂.s.current = .heap 1 ∧ .heap 1 ∈ .main :: alive c₂.s.history ∧
        (c₂.s.heap (.heap 1)).pid = 3 ∧ waitpidAnswer c₂.s (.waitpid 5) = none)) = some true := by
    decide +kernel
  obtain ⟨c, hc, hsome⟩ := bind_eq_some_iff.mp hsome
  obtain ⟨c₁, hc₁, hsome⟩ := bind_eq_some_iff.mp hsome
  obtain ⟨c₂, hc₂, hdec⟩ := map_eq_some_iff.mp hsome
  obtain ⟨⟨hcur, hp, hpid, hparent⟩, hnone, hidle, hans, hcur₂, hp₂, hpid₂, hwait⟩ :=
    of_decide_eq_true hdec
  refine ⟨c, c₁, c₂, run_of_after hc, hcur, hp, hpid, hparent, run_of_after hc₁, run_of_after hc₂,
    hidle, hans, ?_⟩
  rw [hans, hnone]
  rintro (⟨-, hkept⟩ | ⟨f, -, hone⟩)
  · have hgets := (hkept ⟨_, hp₂, hpid₂⟩).2.2.2 hcur₂
    rw [hwait] at hgets
    cases hgets
  · cases hone

end AxiomeOS.Sched
