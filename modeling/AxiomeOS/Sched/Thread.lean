import AxiomeOS.Lib.Alloc
import AxiomeOS.Lib.Chain

/-!
# The scheduler: threads, the run ring and the zombie list

A model of `sched.c`, of the process calls built on it (`exec_user_program`,
`spawn_process_with_args`, `fork_process` and `sys_waitpid`), and of the respawning of init.

The thread structures stand in one heap.  Two of them, `main_thread` and `idle_thread`, are static;
the others come from `kmalloc`.  Kernel stacks and address spaces are handles.  For each of the
three kinds the state keeps the set of what is allocated, and every access is checked against it:
a function returns `none` if it touches a structure, a stack or an address space that has been
freed, if it frees one twice, if it follows a null pointer, or if one of its loops does not end.

Each call is one function of the state; `Sched.Preempt` takes the calls apart into their accesses,
between which the timer may come.  The two calls that choose a thread and switch to it are cut in
two: the choice (`yieldSelect`, `suspendSelect`, `exitSelect`) and `switchTo`.

Of `struct thread` the model keeps the fields these functions read.  Left out are the saved
registers, the name, the descriptor table, the signal and IPC state and the credentials.
-/

namespace AxiomeOS.Sched

/-! ### Threads -/

/-- A `struct thread *` that is not null. -/
inductive ThreadPtr
  | main
  | idle
  | heap (a : ℕ)
deriving DecidableEq, Repr

inductive ThreadState
  | ready
  | running
  | blocked
  | zombie
deriving DecidableEq, Repr

/-- A `struct mmu_root *` that is not null: the kernel's own address space or that of a process. -/
inductive MmuRoot
  | kernel
  | user (a : ℕ)
deriving DecidableEq, Repr

def threadQuantum : ℕ := 10

structure Thread where
  mmu : Option MmuRoot
  pid : Int32
  parentPid : Int32
  exitStatus : Int32
  state : ThreadState
  quantum : ℕ
  next : Option ThreadPtr
  prev : Option ThreadPtr
  stackBase : Option ℕ
  sleepDeadlineNs : ℕ

/-- What can happen to a thread structure. -/
inductive Life
  | created (t : ThreadPtr)
  | exited (t : ThreadPtr)
  | freed (t : ThreadPtr)

/-- The state of the scheduler.  `live`, `kstacks` and `roots` are what the allocators have handed
out; `history`, the latest entry first, is kept for the statements only. -/
structure State where
  heap : ThreadPtr → Thread
  live : Finset ℕ
  kstacks : Finset ℕ
  roots : Finset ℕ
  current : ThreadPtr
  readyHead : Option ThreadPtr
  zombieHead : Option ThreadPtr
  nextPid : Int32
  initThread : Option ThreadPtr
  initDead : Bool
  history : List Life

/-! ### Memory -/

/-- The allocators behind `kmalloc`, `pmm_alloc_frames` and `vmm_new_user_root`. -/
structure Mem where
  thread : Alloc
  stack : Alloc
  root : Alloc

/-- Whether the structure may be accessed. -/
def State.valid (s : State) : ThreadPtr → Bool
  | .main => true
  | .idle => true
  | .heap a => decide (a ∈ s.live)

/-- Read a thread structure. -/
def State.thread (s : State) (t : ThreadPtr) : Option Thread :=
  if s.valid t then some (s.heap t) else none

def State.set (s : State) (t : ThreadPtr) (x : Thread) : State :=
  { s with heap := Function.update s.heap t x }

/-- Write to a thread structure. -/
def State.modify (s : State) (t : ThreadPtr) (f : Thread → Thread) : Option State :=
  if s.valid t then some (s.set t (f (s.heap t))) else none

def State.kfree (s : State) : ThreadPtr → Option State
  | .main => none
  | .idle => none
  | .heap a => if a ∈ s.live then some { s with live := s.live.erase a } else none

def State.pmmFreeFrames (s : State) (k : ℕ) : Option State :=
  if k ∈ s.kstacks then some { s with kstacks := s.kstacks.erase k } else none

def State.vmmFreeRoot (s : State) : Option MmuRoot → Option State
  | none => some s
  | some .kernel => some s
  | some (.user r) => if r ∈ s.roots then some { s with roots := s.roots.erase r } else none

/-- Whether the address space may be used.  A null root stands for the kernel's. -/
def State.rootOk (s : State) : Option MmuRoot → Bool
  | none => true
  | some .kernel => true
  | some (.user r) => decide (r ∈ s.roots)

/-- Whether the stack may be used.  The boot thread runs on the bootstrap stack. -/
def State.stackOk (s : State) : Option ℕ → Bool
  | none => true
  | some k => decide (k ∈ s.kstacks)

/-- Whether a thread can run: its structure, its kernel stack and its address space are there. -/
def State.runnable (s : State) (t : ThreadPtr) : Bool :=
  s.valid t && s.stackOk (s.heap t).stackBase && s.rootOk (s.heap t).mmu

/-- No loop over thread structures visits more of them than there are. -/
def State.fuel (s : State) : ℕ := s.live.card + 2

/-! ### Creating threads -/

/-- Link a thread into the run ring, between the last one and `ready_head`. -/
def linkReady (s : State) (t : ThreadPtr) : Option State :=
  match s.readyHead with
  | none => do
      let s ← s.modify t fun x => { x with next := some t, prev := some t }
      some { s with readyHead := some t }
  | some h => do
      let head ← s.thread h
      let s ← s.modify t fun x => { x with next := some h, prev := head.prev }
      let p ← head.prev
      let s ← s.modify p fun x => { x with next := some t }
      s.modify h fun x => { x with prev := some t }

/-- The memory of a new thread: its structure and its kernel stack. -/
def allocThread (s : State) (m : Mem) : Option (State × Option (ThreadPtr × ℕ)) :=
  match m.thread.pick s.live with
  | none => some (s, none)
  | some a =>
    match m.stack.pick s.kstacks with
    | none => do
        let s ← State.kfree { s with live := insert a s.live } (.heap a)
        some (s, none)
    | some k =>
      some ({ s with live := insert a s.live, kstacks := insert k s.kstacks }, some (.heap a, k))

/-- The fields both kinds of spawn fill in.  What `kmalloc` left in the others stays. -/
def Thread.fill (pid parentPid : Int32) (mmu : MmuRoot) (k : ℕ) (x : Thread) : Thread :=
  { x with
    state := .ready, quantum := threadQuantum, stackBase := some k, mmu := some mmu,
    pid := pid, parentPid := parentPid, exitStatus := 0 }

def newThread (s : State) (t : ThreadPtr) (k : ℕ) (mmu : MmuRoot) (parentPid : Int32) :
    Option State := do
  let s₁ ← s.modify t (Thread.fill s.nextPid parentPid mmu k)
  let s₂ ← linkReady { s₁ with nextPid := s.nextPid + 1 } t
  some { s₂ with history := .created t :: s₂.history }

/-- A kernel thread: it runs in the kernel's address space and has no parent. -/
def schedSpawn (s : State) (m : Mem) : Option (State × Option ThreadPtr) := do
  match ← allocThread s m with
  | (s, none) => some (s, none)
  | (s, some (t, k)) =>
    let s ← newThread s t k .kernel 0
    some (s, some t)

/-- A user thread, whose parent is the running thread. -/
def schedSpawnUserIn (s : State) (m : Mem) (mmu : MmuRoot) : Option (State × Option ThreadPtr) := do
  match ← allocThread s m with
  | (s, none) => some (s, none)
  | (s, some (t, k)) =>
    let parent ← s.thread s.current
    let s ← newThread s t k mmu parent.pid
    some (s, some t)

/-- A process with a new address space.  `elf` says whether `elf_load` succeeds.  The address space
is not given back when there is no memory for the thread. -/
def spawnProcessWithArgs (s : State) (m : Mem) (elf : Bool) : Option (State × Option ThreadPtr) :=
  match m.root.pick s.roots with
  | none => some (s, none)
  | some r =>
    let s := { s with roots := insert r s.roots }
    if elf then schedSpawnUserIn s m (.user r)
    else do
      let s ← s.vmmFreeRoot (some (.user r))
      some (s, none)

/-- A process with a copy of the running thread's address space. -/
def forkProcess (s : State) (m : Mem) : Option (State × Option ThreadPtr) := do
  let cur ← s.thread s.current
  if s.rootOk cur.mmu then
    match m.root.pick s.roots with
    | none => some (s, none)
    | some r => schedSpawnUserIn { s with roots := insert r s.roots } m (.user r)
  else none

def schedMarkInit (s : State) (t : ThreadPtr) : State := { s with initThread := some t }

/-- Start a program as init. -/
def execUserProgram (s : State) (m : Mem) (elf : Bool) : Option State := do
  match ← spawnProcessWithArgs s m elf with
  | (s, none) => some s
  | (s, some t) => some (schedMarkInit s t)

/-! ### Finding threads -/

/-- The first thread from `t` on in the ring that has the property, back to `head`. -/
def findRing (s : State) (head : ThreadPtr) (p : Thread → Bool) :
    ℕ → ThreadPtr → Option (Option ThreadPtr)
  | 0, _ => none
  | fuel + 1, t => do
      let x ← s.thread t
      if p x then some (some t)
      else
        let n ← x.next
        if n = head then some none else findRing s head p fuel n

/-- The first zombie from `z` on that has the property. -/
def findZombie (s : State) (p : Thread → Bool) : ℕ → Option ThreadPtr → Option (Option ThreadPtr)
  | _, none => some none
  | 0, some _ => none
  | fuel + 1, some z => do
      let x ← s.thread z
      if p x then some (some z) else findZombie s p fuel x.next

/-- The live thread with this pid. -/
def threadFindByPid (s : State) (pid : Int32) : Option (Option ThreadPtr) :=
  if pid ≤ 0 then some none
  else do
    let cur ← s.thread s.current
    if cur.pid = pid then some (some s.current)
    else if (s.heap .main).pid = pid then some (some .main)
    else if (s.heap .idle).pid = pid then some (some .idle)
    else
      match s.readyHead with
      | none => some none
      | some h => findRing s h (fun x => x.pid = pid) s.fuel h

def schedChildZombie (s : State) (parentPid pidFilter : Int32) : Option (Option ThreadPtr) :=
  findZombie s (fun z => z.parentPid = parentPid && (pidFilter ≤ 0 || z.pid = pidFilter)) s.fuel
    s.zombieHead

def schedHasChild (s : State) (parentPid : Int32) : Option Bool := do
  let inRing ← match s.readyHead with
    | none => some none
    | some h => findRing s h (fun x => x.parentPid = parentPid) s.fuel h
  if inRing.isSome then some true
  else
    let inZombies ← findZombie s (fun x => x.parentPid = parentPid) s.fuel s.zombieHead
    some inZombies.isSome

/-! ### Reaping -/

/-- Give back what a zombie holds: its kernel stack, its address space and its structure. -/
def freeThread (s : State) (z : ThreadPtr) : Option State := do
  let x ← s.thread z
  let s ← match x.stackBase with
    | none => some s
    | some k => do
        let s ← s.pmmFreeFrames k
        s.modify z fun x => { x with stackBase := none }
  let x ← s.thread z
  let s ← s.vmmFreeRoot x.mmu
  let s ← s.modify z fun x => { x with mmu := none }
  let s ← s.kfree z
  some { s with history := .freed z :: s.history }

/-- Whether nobody is left who could wait for the zombie. -/
def orphan (s : State) (z : Thread) : Option Bool :=
  if z.parentPid = 0 then some true
  else do
    let parent ← threadFindByPid s z.parentPid
    some parent.isNone

/-- Set the pointer to the zombie behind `prev`, or the one to the first zombie. -/
def setZombieLink (s : State) (n : Option ThreadPtr) : Option ThreadPtr → Option State
  | some p => s.modify p fun y => { y with next := n }
  | none => some { s with zombieHead := n }

/-- The loop of `reap_zombies`: `prev` is the last zombie kept, `z` the next one to look at. -/
def reapLoop : ℕ → Option ThreadPtr → Option ThreadPtr → State → Option State
  | _, _, none, s => some s
  | 0, _, some _, _ => none
  | fuel + 1, prev, some z, s => do
      let x ← s.thread z
      if ← orphan s x then
        let s ← freeThread s z
        let s ← setZombieLink s x.next prev
        reapLoop fuel prev x.next s
      else reapLoop fuel (some z) x.next s

def reapZombies (s : State) : Option State := reapLoop s.fuel none s.zombieHead s

/-- Take `z` out of the zombie list behind `p`, if it is there. -/
def unlinkZombie (s : State) (z : ThreadPtr) : ℕ → ThreadPtr → Option State
  | 0, _ => none
  | fuel + 1, p => do
      let x ← s.thread p
      match x.next with
      | none => some s
      | some n =>
        if n = z then do
          let y ← s.thread z
          setZombieLink s y.next (some p)
        else unlinkZombie s z fuel n

def schedReapZombie (s : State) (z : ThreadPtr) : Option State := do
  let s ← match s.zombieHead with
    | none => some s
    | some h =>
      if h = z then do
        let x ← s.thread z
        setZombieLink s x.next none
      else unlinkZombie s z s.fuel h
  freeThread s z

/-! ### Init -/

/-- What the respawning of init meets: whether `/bin/init` can be read, whether it can be loaded,
and the allocators. -/
structure InitMem where
  mem : Mem
  file : Bool
  elf : Bool

def kernelRespawnInit (s : State) (m : InitMem) : Option State :=
  if m.file then execUserProgram s m.mem m.elf else some s

/-- If init has died, reap it and start it again. -/
def schedCheckInit (s : State) (m : InitMem) : Option State :=
  if s.initDead then do
    let s := { s with initDead := false }
    let s ← match s.initThread with
      | none => some s
      | some z => do
          let s ← schedReapZombie s z
          some { s with initThread := none }
    kernelRespawnInit s m
  else some s

/-! ### Waking -/

def Thread.wake (x : Thread) : Thread :=
  if x.state = .blocked then { x with state := .ready } else x

def schedWake (s : State) : Option ThreadPtr → Option State
  | none => some s
  | some t => s.modify t Thread.wake

/-- A sleeper whose deadline has passed is made ready. -/
def Thread.expire (now : ℕ) (x : Thread) : Thread :=
  if x.state = .blocked ∧ x.sleepDeadlineNs ≠ 0 ∧ x.sleepDeadlineNs ≤ now then
    { x with sleepDeadlineNs := 0, state := .ready }
  else x

/-- The loop of `sched_tick` over the ring. -/
def tickLoop (now : ℕ) (head : ThreadPtr) : ℕ → ThreadPtr → State → Option State
  | 0, _, _ => none
  | fuel + 1, t, s => do
      let s ← s.modify t (Thread.expire now)
      let x ← s.thread t
      let n ← x.next
      if n = head then some s else tickLoop now head fuel n s

def Thread.tick (x : Thread) : Thread :=
  if 0 < x.quantum then { x with quantum := x.quantum - 1 } else x

def schedTick (s : State) (now : ℕ) : Option State := do
  let s ← s.modify s.current Thread.tick
  match s.readyHead with
  | none => some s
  | some h => tickLoop now h s.fuel h s

/-! ### Switching -/

/-- Make `next` the running thread.  `context_switch` saves the registers in the structure of the
old thread and goes on with the stack and the address space of the new one. -/
def switchTo (s : State) (old next : ThreadPtr) : Option State := do
  let s ← State.modify { s with current := next } next
    fun x => { x with state := .running, quantum := threadQuantum }
  if s.runnable next && s.valid old then some s else none

/-- The search for the next thread: the first from `t` on that is ready, or `old`. -/
def findReady (s : State) (old : ThreadPtr) : ℕ → Option ThreadPtr → Option ThreadPtr
  | _, none => none
  | 0, some _ => none
  | fuel + 1, some t =>
    if t = old then some t
    else do
      let x ← s.thread t
      if x.state = .ready then some t else findReady s old fuel x.next

/-- The thread found, or the idle thread if the search came back without one that is ready. -/
def nextReady (s : State) (old : ThreadPtr) : Option ThreadPtr := do
  let x ← s.thread old
  let t ← findReady s old s.fuel x.next
  let y ← s.thread t
  some (if y.state = .ready then t else .idle)

/-- `sched_yield` up to the switch. -/
def yieldSelect (s : State) : Option (State × ThreadPtr) := do
  let s ← s.modify s.current fun x => { x with state := .ready, quantum := threadQuantum }
  let t ← nextReady s s.current
  some (s, t)

def schedYield (s : State) (m : InitMem) : Option State := do
  let s ← reapZombies s
  let s ← schedCheckInit s m
  match s.readyHead with
  | none => some s
  | some _ =>
    let (s₁, t) ← yieldSelect s
    switchTo s₁ s.current t

/-- `sched_suspend` up to the switch. -/
def suspendSelect (s : State) : Option (State × ThreadPtr) := do
  let t ← nextReady s s.current
  let s ← s.modify s.current fun x => { x with state := .blocked }
  some (s, t)

def schedSuspend (s : State) : Option State :=
  match s.readyHead with
  | none => some s
  | some _ => do
      let (s₁, t) ← suspendSelect s
      switchTo s₁ s.current t

def schedSleepNs (s : State) (now ns : ℕ) : Option State :=
  if ns = 0 then some s
  else do
    let s ← s.modify s.current fun x => { x with sleepDeadlineNs := (now + ns) % 2 ^ 64 }
    schedSuspend s

/-! ### Exit -/

/-- Take a thread out of the run ring. -/
def unlinkReady (s : State) (self : ThreadPtr) : Option State := do
  let x ← s.thread self
  let s :=
    if s.readyHead = some self then
      { s with readyHead := if x.next = some self then none else x.next }
    else s
  match s.readyHead with
  | none => some s
  | some _ => do
      let p ← x.prev
      let s ← s.modify p fun y => { y with next := x.next }
      let x ← s.thread self
      let q ← x.next
      s.modify q fun y => { y with prev := x.prev }

/-- A parent that waits is made ready. -/
def wakeParent (s : State) (self : ThreadPtr) : Option State := do
  let x ← s.thread self
  if 0 < x.parentPid then
    let parent ← threadFindByPid s x.parentPid
    schedWake s parent
  else some s

def wakeAll (s : State) : List ThreadPtr → Option State
  | [] => some s
  | t :: ts => do
      let s ← schedWake s (some t)
      wakeAll s ts

/-- `sched_exit` up to the switch.  `woken` are the readers that `thread_close_fds` wakes. -/
def exitSelect (s : State) (status : Int32) (woken : List ThreadPtr) :
    Option (State × ThreadPtr) := do
  let self := s.current
  let s ← s.modify self fun x => { x with state := .zombie, exitStatus := status }
  let s ← wakeAll s woken
  let s := { s with initDead := s.initDead || decide (s.initThread = some self) }
  let s ← unlinkReady s self
  let s ← s.modify self fun x => { x with next := s.zombieHead }
  let s ← wakeParent
    { s with zombieHead := some self, history := .exited self :: s.history } self
  some (s, s.readyHead.getD .idle)

def schedExit (s : State) (status : Int32) (woken : List ThreadPtr) : Option State := do
  let (s₁, t) ← exitSelect s status woken
  switchTo s₁ s.current t

/-- One round of `sys_waitpid`: it reaps a child that has exited, gives up if there is no child,
and sleeps otherwise. -/
def sysWaitpid (s : State) (pidFilter : Int32) : Option State := do
  let self ← s.thread s.current
  match ← schedChildZombie s self.pid pidFilter with
  | some z => schedReapZombie s z
  | none =>
    if ← schedHasChild s self.pid then schedSuspend s else some s

/-! ### Runs -/

/-- What the running thread, or the timer, can call. -/
inductive Event
  | spawn (m : Mem)
  | spawnProcess (m : Mem) (elf : Bool)
  | fork (m : Mem)
  | execInit (m : Mem) (elf : Bool)
  | yield (m : InitMem)
  | suspend
  | sleep (now ns : ℕ)
  | wake (t : Option ThreadPtr)
  | tick (now : ℕ)
  | exit (status : Int32) (woken : List ThreadPtr)
  | waitpid (pidFilter : Int32)

def act (s : State) : Event → Option State
  | .spawn m => (schedSpawn s m).map Prod.fst
  | .spawnProcess m elf => (spawnProcessWithArgs s m elf).map Prod.fst
  | .fork m => (forkProcess s m).map Prod.fst
  | .execInit m elf => execUserProgram s m elf
  | .yield m => schedYield s m
  | .suspend => schedSuspend s
  | .sleep now ns => schedSleepNs s now ns
  | .wake t => schedWake s t
  | .tick now => schedTick s now
  | .exit status woken => schedExit s status woken
  | .waitpid pidFilter => sysWaitpid s pidFilter

/-- One call, made by the running thread on its own stack in its own address space. -/
def step (s : State) (e : Event) : Option State :=
  if s.runnable s.current then act s e else none

/-- `sched_init`.  `g` is what stands in the memory that `kmalloc` will hand out. -/
def schedInit (g : ThreadPtr → Thread) : State where
  heap
    | .main =>
      { mmu := some .kernel, pid := 1, parentPid := 0, exitStatus := 0, state := .running
        quantum := threadQuantum, next := some .main, prev := some .main, stackBase := none
        sleepDeadlineNs := 0 }
    | .idle =>
      { mmu := some .kernel, pid := 2, parentPid := 0, exitStatus := 0, state := .ready
        quantum := threadQuantum, next := none, prev := none, stackBase := none
        sleepDeadlineNs := 0 }
    | .heap a => g (.heap a)
  live := ∅
  kstacks := ∅
  roots := ∅
  current := .main
  readyHead := some .main
  zombieHead := none
  nextPid := 3
  initThread := none
  initDead := false
  history := []

end AxiomeOS.Sched
