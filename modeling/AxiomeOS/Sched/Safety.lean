import AxiomeOS.Lib.Runs
import AxiomeOS.Sched.Switch

/-!
# Whole calls of the scheduler

Where the boot thread does what `kmain` does, that is, never suspends itself, exits or waits for a
child, every call that is not interrupted goes through and keeps the invariant (`Inv.step`).  The
invariant says that the run ring is a well-formed circle of the boot thread and the threads created
and not yet exited, and that the zombie list holds the others (`Inv.listsOk`); every switch goes to
a ready thread of the ring (`Inv.selectOk`).
-/

namespace AxiomeOS.Sched

open Chains Runs Option

variable {s : State} {e : Event}

/-- What `kmain`, which the boot thread runs, may call: it does not suspend itself, exit or wait
for a child.  Nobody else starts init, and it is not started while a dead one is to be respawned. -/
def Admissible (s : State) : Event → Prop
  | .spawn _ => True
  | .spawnProcess _ _ => True
  | .fork _ => True
  | .execInit _ _ => s.current = .main ∧ s.initDead = false
  | .yield _ => True
  | .suspend => s.current ≠ .main
  | .sleep _ _ => s.current ≠ .main
  | .wake _ => True
  | .tick _ => True
  | .exit _ _ => s.current ≠ .main
  | .waitpid _ => s.current ≠ .main

/-- The threads that are woken have not been freed. -/
def WakesLive (s : State) : Event → Prop
  | .wake t => ∀ u, t = some u → s.valid u = true
  | .exit _ woken => ∀ t ∈ woken, s.valid t = true
  | _ => True

/-- **One call** succeeds and keeps the invariant. -/
theorem Inv.step (h : Inv s) (he : Admissible s e) (hw : WakesLive s e) :
    ∃ s', step s e = some s' ∧ Inv s' := by
  rw [Sched.step, if_pos (h.shape.runnable h.current)]
  cases e with
  | spawn m =>
    obtain ⟨s', r, hs', hsp, -⟩ := h.schedSpawn m
    exact ⟨s', by rw [act, hs']; rfl, hsp.inv⟩
  | spawnProcess m elf =>
    obtain ⟨s', r, hs', hsp, -⟩ := h.spawnProcessWithArgs m elf
    exact ⟨s', by rw [act, hs']; rfl, hsp.inv⟩
  | fork m =>
    obtain ⟨s', r, hs', hsp, -⟩ := h.forkProcess m
    exact ⟨s', by rw [act, hs']; rfl, hsp.inv⟩
  | execInit m elf =>
    obtain ⟨s', hs', hinv, -⟩ := h.execUserProgram m elf he.1 he.2
    exact ⟨s', hs', hinv⟩
  | yield m => exact h.schedYield m
  | suspend => exact h.schedSuspend he
  | sleep now ns => exact h.schedSleepNs he now ns
  | wake t =>
    obtain ⟨s', hs', hwk⟩ := schedWake_spec hw
    exact ⟨s', hs', h.of_wakes hwk⟩
  | tick now => exact h.schedTick now
  | exit status woken => exact h.schedExit he status hw
  | waitpid pidFilter => exact h.sysWaitpid he pidFilter

variable {s' : State} {t : ThreadPtr}

theorem valid_of_modify {f : Thread → Thread} (h : s.modify t f = some s') :
    s.valid t = true ∧ s'.live = s.live := by
  rw [State.modify] at h
  split at h
  · rename_i hv
    refine ⟨hv, ?_⟩
    rw [← some.inj h]
    rfl
  · cases h

theorem valid_of_wakeAll {ts : List ThreadPtr} (h : wakeAll s ts = some s') :
    ∀ t ∈ ts, s.valid t = true := by
  induction ts generalizing s with
  | nil => simp
  | cons t ts ih =>
    rw [wakeAll] at h
    obtain ⟨s1, hs1, hrest⟩ := bind_eq_some_iff.mp h
    obtain ⟨hv, hl⟩ := valid_of_modify hs1
    intro u hu
    rcases List.mem_cons.mp hu with rfl | hu
    · exact hv
    · rw [← State.valid_congr hl]
      exact ih hrest u hu

theorem valid_of_exitSelect {status : Int32} {woken : List ThreadPtr}
    {r : State × ThreadPtr} (h : exitSelect s status woken = some r) :
    ∀ t ∈ woken, s.valid t = true := by
  rw [exitSelect] at h
  obtain ⟨s1, hs1, h⟩ := bind_eq_some_iff.mp h
  obtain ⟨s2, hs2, -⟩ := bind_eq_some_iff.mp h
  intro t ht
  rw [← State.valid_congr (valid_of_modify hs1).2]
  exact valid_of_wakeAll hs2 t ht

theorem wakesLive_of_step (h : step s e = some s') : WakesLive s e := by
  rw [step] at h
  split at h
  · cases e with
    | wake t =>
      intro u hu
      rw [hu] at h
      exact (valid_of_modify h).1
    | exit status woken =>
      obtain ⟨r, hr, -⟩ := bind_eq_some_iff.mp h
      exact valid_of_exitSelect hr
    | _ => trivial
  · cases h

/-! ### Whole runs -/

def schedStep (s : State) (e : Event) (s' : State) : Prop := Admissible s e ∧ step s e = some s'

theorem schedInit_inv (g : ThreadPtr → Thread) : Inv (schedInit g) := by
  refine ⟨⟨⟨⟨rfl, rfl⟩, by simp, by simp [schedInit, alive], ?_⟩, rfl, rfl, List.nodup_nil, ?_, ?_,
    ?_, ?_, ?_, rfl, rfl, rfl⟩, List.mem_cons_self, rfl, ?_, ?_⟩
  · intro a ha b hb
    obtain rfl : a = .main := List.mem_singleton.mp ha
    obtain rfl : .main = b := some.inj hb
    rfl
  all_goals exact nofun

theorem inv_of_run {g : ThreadPtr → Thread} {es : List Event}
    (hrun : Run schedStep (schedInit g) es s) : Inv s := by
  refine hrun.invariant Inv ?_ (schedInit_inv g)
  intro s e s' h hstep
  obtain ⟨s'', hs'', hinv⟩ := h.step hstep.1 (wakesLive_of_step hstep.2)
  rw [some.inj (hstep.2.symm.trans hs'')]
  exact hinv

/-- The run ring and the zombie list are what the history of the threads says. -/
structure ListsOk (s : State) : Prop where
  /-- following `next` from `ready_head` visits these threads and comes back -/
  ring : Seg s.next s.readyHead (.main :: alive s.history) s.readyHead
  once : (.main :: alive s.history).Nodup
  next_prev : ∀ t ∈ .main :: alive s.history, ∃ n ∈ .main :: alive s.history,
    s.next t = some n ∧ s.prev n = some t
  prev_next : ∀ t ∈ .main :: alive s.history, ∃ p ∈ .main :: alive s.history,
    s.prev t = some p ∧ s.next p = some t
  zombies : Chain s.next s.zombieHead (unreaped s.history)
  apart : ∀ t ∈ unreaped s.history, t ∉ .main :: alive s.history
  current : s.current ∈ .main :: alive s.history

/-- What a call is about to switch to: the state and the thread right before the switch. -/
def selects (s : State) : Event → Option (State × ThreadPtr)
  | .yield m => do
      let s ← reapZombies s
      let s ← schedCheckInit s m
      yieldSelect s
  | .suspend => suspendSelect s
  | .exit status woken => exitSelect s status woken
  | _ => none

/-- The thread selected is a thread of the ring that is ready, and so not the idle thread. -/
def SelectOk (s : State) (t : ThreadPtr) : Prop :=
  t ∈ .main :: alive s.history ∧ (s.heap t).state = .ready ∧ t ≠ .idle

theorem Inv.listsOk (h : Inv s) : ListsOk s where
  ring := by
    rw [h.shape.head]
    exact h.shape.ring.seg
  once := h.shape.ring.nodup
  next_prev _ ht := h.shape.ring.exists_next ht
  prev_next _ ht := h.shape.ring.exists_prev ht
  zombies := h.shape.zombies
  apart _ ht hr := h.shape.notMem_dead hr ht
  current := h.current

theorem Shape.ne_idle {al dead : List ThreadPtr} (h : Shape s al dead) (ht : t ∈ .main :: al) :
    t ≠ .idle := by
  rintro rfl
  rcases List.mem_cons.mp ht with hm | hm
  · cases hm
  · exact h.idle_notMem (List.mem_append_left _ hm)

theorem Inv.selectOk_of_selected {s₁ : State} (h : Inv s) (hsel : Selected s s₁ t) :
    SelectOk s₁ t :=
  ⟨by rw [hsel.history]; exact hsel.mem, hsel.ready, h.shape.ne_idle hsel.mem⟩

theorem Inv.selectOk {s₁ : State} (h : Inv s) (he : Admissible s e)
    (hsel : selects s e = some (s₁, t)) : SelectOk s₁ t := by
  cases e with
  | yield m =>
    obtain ⟨s2, hs2, h2, -⟩ := h.reapZombies
    obtain ⟨s3, hs3, h3, -⟩ := h2.schedCheckInit m
    obtain ⟨s4, t', hs4, hchosen⟩ := h3.yieldSelect
    have heq : some (s4, t') = some (s₁, t) := by
      rw [← hsel, selects, hs2]
      simp only [bind_eq_bind, bind_some, hs3, hs4]
    cases heq
    exact h3.selectOk_of_selected hchosen
  | suspend =>
    obtain ⟨s2, t', hs2, hchosen⟩ := h.suspendSelect he
    cases hs2.symm.trans hsel
    exact h.selectOk_of_selected hchosen
  | exit status woken =>
    obtain ⟨s2, hs2, hex, -⟩ := h.exitSelect he status (valid_of_exitSelect hsel)
    cases hs2.symm.trans hsel
    exact ⟨List.mem_cons_self, hex.main, by simp⟩
  | _ => cases hsel

/-! ### A sample run -/

def sampleMem : Mem := ⟨.above, .above, .above⟩

def bootSample : State :=
  schedInit fun _ => ⟨none, 0, 0, 0, .ready, 0, none, none, none, 0⟩

/-- The state after a call that goes through. -/
def State.after (s : State) (e : Event) : State := (step s e).getD s

theorem schedStep_after (he : Admissible s e)
    (h : (step s e).isSome = true) : schedStep s e (s.after e) := by
  refine ⟨he, ?_⟩
  obtain ⟨s', hs'⟩ := isSome_iff_exists.mp h
  rw [State.after, hs']
  rfl

end AxiomeOS.Sched
