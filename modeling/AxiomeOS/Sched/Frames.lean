import AxiomeOS.Sched.Safety

/-!
# What each call leaves alone

`Inv` says that a call goes through and keeps the lists.  This module says what a call that has
gone through leaves of the threads it is not about:

* reaping changes links and memory only (`Calm`), and `Swept` says which zombies a sweep keeps;
* a call that creates a thread gives it the next pid and changes no other (`Grown`);
* a switch changes the thread that has called and the one switched to (`Switch`);
* an exit wakes the readers and the parent and no other thread (`Leaves`).

`Effect` puts these together: it says what a call can do to a state in which `Inv` holds.
-/

namespace AxiomeOS.Sched

open Chains Runs Option State

variable {x : Thread} {t z : ThreadPtr} {m : Mem} {r : Option ThreadPtr}

variable {s s' : State} {al dead : List ThreadPtr}

/-! ### Switching -/

/-- What a switch leaves of the other threads.  The thread switched to was ready, or it is the one
that has called. -/
structure Switch (s s' : State) : Prop where
  known : ∀ t, Known (s.heap t) (s'.heap t)
  other : ∀ t, t ≠ s.current → t ≠ s'.current → s'.heap t = s.heap t
  ready : s'.current = s.current ∨ (s.heap s'.current).state = .ready
  nextPid : s'.nextPid = s.nextPid
  history : s'.history = s.history
  initThread : s'.initThread = s.initThread

theorem switchTo_eq {old next : ThreadPtr} (h : switchTo s old next = some s') :
    s' = set { s with current := next } next
      { s.heap next with state := .running, quantum := threadQuantum } := by
  rw [switchTo] at h
  obtain ⟨s1, hs1, h⟩ := bind_eq_some_iff.mp h
  split at h
  · rw [← some.inj h]
    exact eq_set_of_modify hs1
  · cases h

/-- A change of the running thread, followed by a switch. -/
theorem Switch.of_set {next old : ThreadPtr} (hr : ((s.set s.current x).heap next).state = .ready)
    (h : switchTo (s.set s.current x) old next = some s') (hx : Known (s.heap s.current) x) :
    Switch s s' := by
  have heq := switchTo_eq h
  have hcur : s'.current = next := by rw [heq]; rfl
  have hheap : ∀ t, t ≠ next → s'.heap t = (s.set s.current x).heap t := by
    intro t ht
    rw [heq, set_heap_of_ne _ _ ht]
  have hset : ∀ t, Known (s.heap t) ((s.set s.current x).heap t) := by
    intro t
    by_cases ht : t = s.current
    · rw [ht, set_heap_self]
      exact hx
    · rw [set_heap_of_ne _ _ ht]
      exact .refl _
  refine ⟨?_, ?_, ?_, by rw [heq]; rfl, by rw [heq]; rfl, by rw [heq]; rfl⟩
  · intro t
    by_cases ht : t = next
    · subst ht
      have hself : Known ((s.set s.current x).heap t) (s'.heap t) := by
        rw [heq, set_heap_self]
        exact ⟨rfl, rfl, rfl⟩
      exact (hset t).trans hself
    · rw [hheap t ht]
      exact hset t
  · intro t hc hn
    rw [hcur] at hn
    rw [hheap t hn, set_heap_of_ne _ _ hc]
  · rw [hcur]
    by_cases hn : next = s.current
    · exact .inl hn
    · rw [set_heap_of_ne _ _ hn] at hr
      exact .inr hr

theorem Inv.switch_of_yield (h : Inv s) {s₁ : State}
    (hsel : Sched.yieldSelect s = some (s₁, t)) (hs : switchTo s₁ s.current t = some s') :
    Switch s s' := by
  obtain ⟨s2, t2, hs2, hchosen⟩ := h.yieldSelect
  rw [hsel] at hs2
  cases hs2
  have hready := hchosen.ready
  rw [Sched.yieldSelect] at hsel
  obtain ⟨s2, hs2, hsel⟩ := bind_eq_some_iff.mp hsel
  obtain ⟨t2, -, hsel⟩ := bind_eq_some_iff.mp hsel
  cases hsel
  rw [eq_set_of_modify hs2] at hs hready
  exact .of_set hready hs ⟨rfl, rfl, rfl⟩

/-- **A suspended thread** is blocked, and another one runs. -/
theorem Inv.switch_of_suspend (h : Inv s) (hc : s.current ≠ .main)
    (hs : Sched.schedSuspend s = some s') : Switch s s' ∧ s'.current ≠ s.current ∧
      s'.heap s.current = { s.heap s.current with state := .blocked } := by
  rw [Sched.schedSuspend, h.shape.head] at hs
  obtain ⟨⟨s1, t⟩, hsel, hs⟩ := bind_eq_some_iff.mp hs
  obtain ⟨s2, t2, hs2, hchosen⟩ := h.suspendSelect hc
  rw [hsel] at hs2
  cases hs2
  have hready := hchosen.ready
  rw [Sched.suspendSelect] at hsel
  obtain ⟨t2, -, hsel⟩ := bind_eq_some_iff.mp hsel
  obtain ⟨s2, hs2, hsel⟩ := bind_eq_some_iff.mp hsel
  cases hsel
  rw [eq_set_of_modify hs2] at hs hready
  have hne : s.current ≠ t := by
    rintro rfl
    rw [set_heap_self] at hready
    cases hready
  have heq := switchTo_eq hs
  refine ⟨.of_set hready hs ⟨rfl, rfl, rfl⟩, ?_, ?_⟩
  · rw [heq]
    exact Ne.symm hne
  · rw [heq, set_heap_of_ne _ _ hne]
    exact set_heap_self _ _ _

/-- **`sched_yield`** sweeps the zombies, checks init and switches. -/
theorem Inv.schedYield_cases (h : Inv s) {m : InitMem} (hs : Sched.schedYield s m = some s') :
    ∃ s₁ s₂ r, Inv s₁ ∧ Calm s s₁ ∧ Swept s s₁ ∧ Inv s₂ ∧ Grown s₁ s₂ r ∧
      (r.isSome = true → s.initDead = true) ∧ Switch s₂ s' := by
  rw [Sched.schedYield] at hs
  obtain ⟨s₁, hs1, hs⟩ := bind_eq_some_iff.mp hs
  obtain ⟨s₂, hs2, hs⟩ := bind_eq_some_iff.mp hs
  obtain ⟨s1', hs1', h1, hsw, hcalm⟩ := h.reapZombies
  cases hs1.symm.trans hs1'
  obtain ⟨s2', hs2', h2, -, -, r, hg, hr⟩ := h1.schedCheckInit m
  cases hs2.symm.trans hs2'
  simp only [h2.shape.head] at hs
  obtain ⟨⟨s3, t⟩, hs3, hs⟩ := bind_eq_some_iff.mp hs
  exact ⟨s₁, s₂, r, h1, hcalm, hsw, h2, hg,
    fun hsome => hsw.initDead ▸ hr hsome, h2.switch_of_yield hs3 hs⟩

/-! ### Exit -/

/-- What an exit leaves: the parent and the readers of the thread's pipes are woken, and the boot
thread runs. -/
structure Leaves (s : State) (status : Int32) (woken : List ThreadPtr) (s' : State) : Prop where
  known : ∀ t, t ≠ s.current → Known (s.heap t) (s'.heap t)
  self : Known { s.heap s.current with exitStatus := status } (s'.heap s.current)
  other : ∀ t, t ≠ s.current → t ≠ .main →
    Kin (if t ∈ woken ∨ Awaits s t then (s.heap t).wake else s.heap t) (s'.heap t)
  current : s'.current = .main
  history : s'.history = .exited s.current :: s.history
  nextPid : s'.nextPid = s.nextPid
  initThread : s'.initThread = s.initThread

theorem Inv.leaves_of_exit (h : Inv s) (hc : s.current ≠ .main) {status : Int32}
    {woken : List ThreadPtr} (hs : Sched.schedExit s status woken = some s') :
    Leaves s status woken s' := by
  rw [Sched.schedExit] at hs
  obtain ⟨⟨s1, t⟩, hsel, hs⟩ := bind_eq_some_iff.mp hs
  obtain ⟨s2, hs2, he, hl⟩ := h.exitSelect hc status (valid_of_exitSelect hsel)
  rw [hsel] at hs2
  cases hs2
  have hsw := switchTo_eq hs
  have hlast : ∀ t, t ≠ .main → s'.heap t = s1.heap t := fun t ht => by
    rw [hsw]
    exact set_heap_of_ne _ _ ht
  have hmain : Known (s1.heap .main) (s'.heap .main) := by
    rw [hsw, set_heap_self]
    exact ⟨rfl, rfl, rfl⟩
  refine ⟨?_, ?_, ?_, by rw [hsw]; rfl, by rw [hsw]; exact he.history,
    by rw [hsw]; exact hl.nextPid, by rw [hsw]; exact he.initThread⟩
  · intro t ht
    have hk : Known (s.heap t) (s1.heap t) := by
      refine .trans ?_ (hl.other t ht).toKnown
      split
      · exact Thread.wake_known _
      · exact .refl _
    by_cases htm : t = .main
    · exact htm ▸ (htm ▸ hk).trans hmain
    · rw [hlast t htm]
      exact hk
  · rw [hlast _ hc]
    exact hl.self
  · intro t ht htm
    rw [hlast t htm]
    exact hl.other t ht

/-! ### One call -/

/-- The calls that create a thread for their caller. -/
def Event.spawns : Event → Bool
  | .spawn _ => true
  | .spawnProcess _ _ => true
  | .fork _ => true
  | .execInit _ _ => true
  | _ => false

/-- The zombie that `sys_waitpid` reaps for its caller. -/
def childZombie (s : State) (pidFilter : Int32) : Option ThreadPtr :=
  (unreaped s.history).find? fun u =>
    decide ((s.heap u).parentPid = (s.heap s.current).pid) &&
      (decide (pidFilter ≤ 0) || decide ((s.heap u).pid = pidFilter))

/-- What a call can do. -/
inductive Effect (s : State) : Event → State → Prop
  | creates {e : Event} {s' : State} {r : Option ThreadPtr} (he : e.spawns = true)
      (hg : Grown s s' r) : Effect s e s'
  | yields {m : InitMem} {s₁ s₂ s' : State} {r : Option ThreadPtr} (h₁ : Inv s₁)
      (hcalm : Calm s s₁) (hswept : Swept s s₁) (h₂ : Inv s₂) (hg : Grown s₁ s₂ r)
      (hr : r.isSome = true → s.initDead = true) (hsw : Switch s₂ s') : Effect s (.yield m) s'
  | suspends {s' : State} (hsw : Switch s s') : Effect s .suspend s'
  | returns {now : ℕ} : Effect s (.sleep now 0) s
  | sleeps {now ns : ℕ} {s' : State}
      (h₁ : Inv (s.set s.current
        { s.heap s.current with sleepDeadlineNs := (now + ns) % 2 ^ 64 }))
      (hsw : Switch (s.set s.current
        { s.heap s.current with sleepDeadlineNs := (now + ns) % 2 ^ 64 }) s') :
      Effect s (.sleep now ns) s'
  | wakesNone : Effect s (.wake none) s
  | wakes {u : ThreadPtr} : Effect s (.wake (some u)) (s.set u (s.heap u).wake)
  | ticks {now : ℕ} : Effect s (.tick now) { s with
      heap := fun u =>
        if u ∈ .main :: alive s.history then
          ((s.set s.current (s.heap s.current).tick).heap u).expire now
        else (s.set s.current (s.heap s.current).tick).heap u }
  | exits {status : Int32} {woken : List ThreadPtr} {s' : State} (hc : s.current ≠ .main)
      (hl : Leaves s status woken s') : Effect s (.exit status woken) s'
  | reaps {pidFilter : Int32} {z : ThreadPtr} {s' : State} (hz : childZombie s pidFilter = some z)
      (hr : Reaped s (unreaped s.history) z s') (hcalm : Calm s s') :
      Effect s (.waitpid pidFilter) s'
  | waits {pidFilter : Int32} {s' : State} (hz : childZombie s pidFilter = none)
      (hsw : Switch s s') : Effect s (.waitpid pidFilter) s'
  | childless {pidFilter : Int32} (hz : childZombie s pidFilter = none) :
      Effect s (.waitpid pidFilter) s

theorem Inv.schedChildZombie_eq (h : Inv s) (pidFilter : Int32) :
    schedChildZombie s (s.heap s.current).pid pidFilter = some (childZombie s pidFilter) := by
  rw [schedChildZombie, h.shape.findZombie_eq]
  rfl

theorem Inv.effect_of_sleep (h : Inv s) (hc : s.current ≠ .main) {now ns : ℕ}
    (hs : Sched.schedSleepNs s now ns = some s') : Effect s (.sleep now ns) s' := by
  rw [Sched.schedSleepNs] at hs
  split at hs
  · rename_i hns
    rw [← some.inj hs, hns]
    exact .returns
  · obtain ⟨s1, hs1, hs⟩ := bind_eq_some_iff.mp hs
    have heq := eq_set_of_modify hs1
    have h1 : Inv s1 := by
      rw [heq]
      exact h.of_wakes (.set ⟨rfl, rfl, rfl, rfl, rfl, rfl⟩ (.inl rfl))
    have hc1 : s1.current ≠ .main := by
      rw [heq]
      exact hc
    have hsw := (h1.switch_of_suspend hc1 hs).1
    rw [heq] at h1 hsw
    exact .sleeps h1 hsw

theorem Inv.effect_of_waitpid (h : Inv s) (hc : s.current ≠ .main) {pidFilter : Int32}
    (hs : Sched.sysWaitpid s pidFilter = some s') : Effect s (.waitpid pidFilter) s' := by
  rw [Sched.sysWaitpid, thread_eq h.valid_current] at hs
  simp only [bind_eq_bind, bind_some, h.schedChildZombie_eq] at hs
  cases hz : childZombie s pidFilter with
  | some z =>
    simp only [hz] at hs
    have hzd := List.mem_of_find?_eq_some hz
    obtain ⟨s1, hs1, hr, hcalm⟩ := h.shape.schedReapZombie hzd
    cases hs.symm.trans hs1
    exact .reaps hz hr hcalm
  | none =>
    simp only [hz] at hs
    obtain ⟨b, -, hs⟩ := bind_eq_some_iff.mp hs
    cases b with
    | true => exact .waits hz (h.switch_of_suspend hc hs).1
    | false =>
      rw [if_neg (by decide)] at hs
      rw [← some.inj hs]
      exact .childless hz

/-- **What one call does.** -/
theorem Inv.effect (h : Inv s) {e : Event} (hs : schedStep s e s') : Inv s' ∧ Effect s e s' := by
  obtain ⟨he, hstep⟩ := hs
  obtain ⟨s'', hs'', hinv⟩ := h.step he (wakesLive_of_step hstep)
  cases hstep.symm.trans hs''
  refine ⟨hinv, ?_⟩
  have hact : act s e = some s' := by
    rw [Sched.step, if_pos (h.shape.runnable h.current)] at hstep
    exact hstep
  cases e with
  | spawn m =>
    obtain ⟨s1, r, hs1, -, hg⟩ := h.schedSpawn m
    rw [act, hs1] at hact
    obtain rfl : s1 = s' := some.inj hact
    exact .creates rfl (hg.grown h (.inl rfl))
  | spawnProcess m elf =>
    obtain ⟨s1, r, hs1, -, hg⟩ := h.spawnProcessWithArgs m elf
    rw [act, hs1] at hact
    obtain rfl : s1 = s' := some.inj hact
    exact .creates rfl (hg.grown h (.inr rfl))
  | fork m =>
    obtain ⟨s1, r, hs1, -, hg⟩ := h.forkProcess m
    rw [act, hs1] at hact
    obtain rfl : s1 = s' := some.inj hact
    exact .creates rfl (hg.grown h (.inr rfl))
  | execInit m elf =>
    obtain ⟨s1, hs1, -, -, -, r, hg⟩ := h.execUserProgram m elf he.1 he.2
    cases hs1.symm.trans hact
    exact .creates rfl (hg.grown h (.inr rfl))
  | yield m =>
    obtain ⟨s1, s2, r, h1, hcalm, hswept, h2, hg, hr, hsw⟩ := h.schedYield_cases hact
    exact .yields h1 hcalm hswept h2 hg hr hsw
  | suspend => exact .suspends (h.switch_of_suspend he hact).1
  | sleep now ns => exact h.effect_of_sleep he hact
  | wake u =>
    cases u with
    | none =>
      rw [← some.inj hact]
      exact .wakesNone
    | some u =>
      rw [act, schedWake] at hact
      rw [eq_set_of_modify hact]
      exact .wakes
  | tick now =>
    rw [act, h.schedTick_eq] at hact
    rw [← some.inj hact]
    exact .ticks
  | exit status woken => exact .exits he (h.leaves_of_exit he hact)
  | waitpid pidFilter => exact h.effect_of_waitpid he hact

end AxiomeOS.Sched
