import AxiomeOS.Sched.Frames

/-!
# Sleeping threads

A thread that calls `sched_sleep_ns` is blocked, and nothing in its structure but the deadline says
that it sleeps.  So whatever makes a blocked thread ready ends the sleep: a `sched_wake` on it, the
exit of a child, and a tick at or after the stored deadline, which wraps around at `2 ^ 64`.

`sleep_kept_iff` says that these are the only ways: in every run from a sleep on, and as long as the
clock is below the deadline, the thread stays blocked exactly when no step is one of them.
-/

namespace AxiomeOS.Sched

open Runs List State

variable {s s' : State} {t : ThreadPtr} {d : ℕ}

/-- The thread sleeps, with `d` as its stored deadline. -/
structure Asleep (t : ThreadPtr) (d : ℕ) (s : State) : Prop where
  inv : Inv s
  alive : t ∈ alive s.history
  other : t ≠ s.current
  blocked : (s.heap t).state = .blocked
  deadline : (s.heap t).sleepDeadlineNs = d

/-- The call does not make the thread ready: it does not wake it, it is not the exit of its child,
and it is not a tick at or after the stored deadline. -/
def Undisturbed (t : ThreadPtr) (d : ℕ) (s : State) : Event → Prop
  | .wake u => u ≠ some t
  | .tick now => d = 0 ∨ now < d
  | .exit _ woken => t ∉ woken ∧ ¬ Awaits s t
  | _ => True

theorem Asleep.ne_main (h : Asleep t d s) : t ≠ .main := by
  rintro rfl
  exact h.inv.shape.main_notMem (mem_append_left _ h.alive)

section

variable (h : Asleep t d s) (hinv : Inv s')
include h hinv

theorem Asleep.of_kin (hk : Kin (s.heap t) (s'.heap t)) (hal : t ∈ Sched.alive s'.history)
    (hc : t ≠ s'.current) : Asleep t d s' :=
  ⟨hinv, hal, hc, hk.state.trans h.blocked, hk.sleepDeadlineNs.trans h.deadline⟩

theorem Asleep.of_calm (hcalm : Calm s s') : Asleep t d s' :=
  h.of_kin hinv (hcalm.kin t) (by rw [hcalm.alive]; exact h.alive)
    (by rw [hcalm.current]; exact h.other)

theorem Asleep.of_grown {r : Option ThreadPtr} (hg : Grown s s' r) : Asleep t d s' :=
  h.of_kin hinv (hg.ring t (mem_cons_of_mem _ h.alive))
    (by rw [hg.alive]; exact mem_append_left _ h.alive) (by rw [hg.current]; exact h.other)

theorem Asleep.of_switch (hsw : Switch s s') : Asleep t d s' := by
  have hc : t ≠ s'.current := by
    rintro rfl
    rcases hsw.ready with hcur | hready
    · exact h.other hcur
    · exact absurd (hready.symm.trans h.blocked) (by decide)
  refine h.of_kin hinv ?_ (by rw [hsw.history]; exact h.alive) hc
  rw [hsw.other t h.other hc]
  exact Kin.refl _

end

theorem Thread.expire_sleeping {x : Thread} (hb : x.state = .blocked) (now : ℕ) :
    ((x.expire now).state = .blocked ↔ x.sleepDeadlineNs = 0 ∨ now < x.sleepDeadlineNs) ∧
      ((x.expire now).state = .blocked → x.expire now = x) := by
  by_cases hd : x.sleepDeadlineNs ≠ 0 ∧ x.sleepDeadlineNs ≤ now
  · have hready : (x.expire now).state = .ready := by rw [Thread.expire, if_pos ⟨hb, hd⟩]
    rw [hready]
    refine ⟨⟨(by cases ·), fun h => ?_⟩, (by cases ·)⟩
    omega
  · have hsame : x.expire now = x := by
      rw [Thread.expire, if_neg fun h => hd h.2]
    rw [hsame]
    refine ⟨⟨fun _ => ?_, fun _ => hb⟩, fun _ => rfl⟩
    omega

theorem Asleep.of_set (h : Asleep t d s) {u : ThreadPtr} {x : Thread} (hinv : Inv (s.set u x))
    (hu : u ≠ t) : Asleep t d (s.set u x) := by
  refine h.of_kin hinv ?_ h.alive h.other
  rw [set_heap_of_ne _ _ (Ne.symm hu)]
  exact Kin.refl _

/-- **One call** leaves the thread asleep exactly when it does not disturb it. -/
theorem Asleep.step (h : Asleep t d s) {e : Event} (hs : schedStep s e s') :
    ((s'.heap t).state = .blocked → Undisturbed t d s e) ∧
      (Undisturbed t d s e → Asleep t d s') := by
  obtain ⟨hinv, heff⟩ := h.inv.effect hs
  cases heff with
  | creates he hg =>
    refine ⟨fun _ => ?_, fun _ => h.of_grown hinv hg⟩
    cases e with
    | spawn _ | spawnProcess _ _ | fork _ | execInit _ _ => trivial
    | _ => cases he
  | yields h1 hcalm _ h2 hg _ hsw =>
    exact ⟨fun _ => trivial, fun _ =>
      ((h.of_calm h1 hcalm).of_grown h2 hg).of_switch hinv hsw⟩
  | suspends hsw => exact ⟨fun _ => trivial, fun _ => h.of_switch hinv hsw⟩
  | returns => exact ⟨fun _ => trivial, fun _ => h⟩
  | sleeps h1 hsw =>
    exact ⟨fun _ => trivial, fun _ => (h.of_set h1 (Ne.symm h.other)).of_switch hinv hsw⟩
  | wakesNone => exact ⟨fun _ => by simp [Undisturbed], fun _ => h⟩
  | @wakes u =>
    refine ⟨fun hb hu => ?_, fun hu => h.of_set hinv fun e => hu (by rw [e])⟩
    rw [Option.some.inj hu, set_heap_self, Thread.wake, if_pos h.blocked] at hb
    cases hb
  | @ticks now =>
    -- The tick of the running thread does not touch the sleeper.
    have hsame : (s.set s.current (s.heap s.current).tick).heap t = s.heap t :=
      set_heap_of_ne _ _ h.other
    have hring : t ∈ .main :: Sched.alive s.history := mem_cons_of_mem _ h.alive
    obtain ⟨hiff, hkeep⟩ := Thread.expire_sleeping h.blocked now
    rw [h.deadline] at hiff
    refine ⟨fun hb => ?_, fun hu => ?_⟩
    · simp only [if_pos hring, hsame] at hb
      exact hiff.mp hb
    · refine h.of_kin hinv ?_ h.alive h.other
      simp only [if_pos hring, hsame]
      rw [hkeep (hiff.mpr hu)]
      exact Kin.refl _
  | @exits status woken _ hc hl =>
    have hk := hl.other t h.other h.ne_main
    have hal : t ∈ Sched.alive s'.history := by
      rw [hl.history]
      exact (mem_erase_of_ne h.other).mpr h.alive
    have hcur : t ≠ s'.current := by
      rw [hl.current]
      exact h.ne_main
    by_cases hd : t ∈ woken ∨ Awaits s t
    · rw [if_pos hd, Thread.wake, if_pos h.blocked] at hk
      refine ⟨fun hb => ?_, fun hu => absurd hd (not_or.mpr hu)⟩
      exact absurd (hk.state.symm.trans hb) (by simp)
    · rw [if_neg hd] at hk
      exact ⟨fun _ => not_or.mp hd, fun _ => h.of_kin hinv hk hal hcur⟩
  | reaps _ _ hcalm => exact ⟨fun _ => trivial, fun _ => h.of_calm hinv hcalm⟩
  | waits _ hsw => exact ⟨fun _ => trivial, fun _ => h.of_switch hinv hsw⟩
  | childless _ => exact ⟨fun _ => trivial, fun _ => h⟩

/-- **Going to sleep.** -/
theorem Inv.asleep_of_sleep (h : Inv s) {now ns : ℕ} (hns : ns ≠ 0)
    (hs : schedStep s (.sleep now ns) s') : Asleep s.current ((now + ns) % 2 ^ 64) s' := by
  obtain ⟨hinv, -⟩ := h.effect hs
  obtain ⟨hc, hs⟩ := hs
  rw [Sched.step, if_pos (h.shape.runnable h.current), act, Sched.schedSleepNs, if_neg hns] at hs
  obtain ⟨s1, hs1, hs⟩ := Option.bind_eq_some_iff.mp hs
  have heq := eq_set_of_modify hs1
  have hcur : s1.current = s.current := by rw [heq]; rfl
  have h1 : Inv s1 := by
    rw [heq]
    exact h.of_wakes (.set ⟨rfl, rfl, rfl, rfl, rfl, rfl⟩ (.inl rfl))
  obtain ⟨hsw, hne, hself⟩ := h1.switch_of_suspend (by rw [hcur]; exact hc) hs
  rw [hcur] at hne hself
  refine ⟨hinv, ?_, Ne.symm hne, by rw [hself], ?_⟩
  · rw [hsw.history, heq]
    exact h.current_alive hc
  · rw [hself, heq, set_heap_self]

/-! ### Runs -/

/-- The clock has not reached the deadline in any tick. -/
def Before (deadline : ℕ) (es : List Event) : Prop := ∀ now, .tick now ∈ es → now < deadline

theorem Before.mono {deadline : ℕ} {es es' : List Event} (h : Before deadline es)
    (hp : es' <+: es) : Before deadline es' := fun now hnow => h now (hp.subset hnow)

/-- **A sleep is not cut short** before the clock reaches its deadline, in any run, exactly as long
as no step disturbs the sleeper. -/
theorem sleep_kept_iff (g : ThreadPtr → Thread) {es₀ : List Event} {s s₁ : State}
    (hrun : Run schedStep (schedInit g) es₀ s) {now ns : ℕ} (hns : ns ≠ 0)
    (hsleep : schedStep s (.sleep now ns) s₁) (es : List Event) :
    (∀ pre, pre <+: es → Before (now + ns) pre → ∀ s', Run schedStep s₁ pre s' →
        (s'.heap s.current).state = .blocked) ↔
      ∀ pre e, pre ++ [e] <+: es → Before (now + ns) (pre ++ [e]) → ∀ s' s'',
        Run schedStep s₁ pre s' → schedStep s' e s'' →
          Undisturbed s.current ((now + ns) % 2 ^ 64) s' e := by
  have hasleep := (inv_of_run hrun).asleep_of_sleep hns hsleep
  have hstep : ∀ s2 e s3, Asleep s.current ((now + ns) % 2 ^ 64) s2 → schedStep s2 e s3 →
      ((s3.heap s.current).state = .blocked → Undisturbed s.current ((now + ns) % 2 ^ 64) s2 e) ∧
      (Undisturbed s.current ((now + ns) % 2 ^ 64) s2 e →
        Asleep s.current ((now + ns) % 2 ^ 64) s3) := fun s2 e s3 h hs => h.step hs
  have hrule := run_property_iff
    (fun s2 h => h.blocked) hstep hasleep
  constructor
  · intro h pre e hpre hbefore s' s'' hr hs
    exact (hrule (pre ++ [e])).mp
      (fun p hp => h p (hp.trans hpre) (hbefore.mono hp)) pre e (prefix_refl _) s' s'' hr hs
  · intro h pre hpre hbefore s' hr
    exact (hrule pre).mpr
      (fun p e hp => h p e (hp.trans hpre) (hbefore.mono hp)) pre (prefix_refl _) s' hr

/-- `kmain` starts init, which forks a child. -/
def initForks : List Event :=
  [.execInit sampleMem true, .yield ⟨sampleMem, true, true⟩, .fork sampleMem]

theorem initForks_run : Run schedStep bootSample initForks (initForks.foldl after bootSample) :=
  .cons (schedStep_after ⟨rfl, rfl⟩ (by decide +kernel))
    (.cons (schedStep_after trivial (by decide +kernel))
      (.cons (schedStep_after trivial (by decide +kernel)) (.nil _)))

theorem initForks_sleep : schedStep (initForks.foldl after bootSample) (.sleep 0 1000000000)
    ((initForks.foldl after bootSample).after (.sleep 0 1000000000)) :=
  schedStep_after (by decide +kernel : current _ ≠ .main) (by decide +kernel)

/-- A tick half a second later leaves init asleep. -/
theorem sleep_kept_iff_tick :
    ∃ s s₁, Run schedStep bootSample initForks s ∧ schedStep s (.sleep 0 1000000000) s₁ ∧
      ∀ pre, pre <+: [.tick 500000000] → Before (0 + 1000000000) pre →
        ∀ s', Run schedStep s₁ pre s' → (s'.heap s.current).state = .blocked := by
  refine ⟨_, _, initForks_run, initForks_sleep, ?_⟩
  refine (sleep_kept_iff _ initForks_run (by decide) initForks_sleep _).mpr ?_
  intro pre e hpre _ s' s'' _ _
  obtain ⟨rfl, rfl⟩ : pre = [] ∧ e = .tick 500000000 := by
    cases pre with
    | nil =>
      obtain ⟨he, -⟩ := cons_prefix_cons.mp hpre
      exact ⟨rfl, he⟩
    | cons b pre =>
      obtain ⟨-, hrest⟩ := cons_prefix_cons.mp hpre
      exact absurd (prefix_nil.mp hrest) (by simp)
  exact .inr (by decide)

/-- **A sleep cut short.**  Init sleeps for a second.  Its child exits at once, and init is ready
without a single tick. -/
theorem sleeper_woken_by_child :
    ∃ s s₁ s₂, Run schedStep bootSample initForks s ∧ schedStep s (.sleep 0 1000000000) s₁ ∧
      schedStep s₁ (.exit 0 []) s₂ ∧ (s₁.heap s.current).state = .blocked ∧
      (s₂.heap s.current).state = .ready :=
  ⟨_, _, _, initForks_run, initForks_sleep,
    schedStep_after (by decide +kernel : current _ ≠ .main) (by decide +kernel),
    by decide +kernel, by decide +kernel⟩

end AxiomeOS.Sched
