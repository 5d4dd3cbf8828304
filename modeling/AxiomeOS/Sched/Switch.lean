import AxiomeOS.Sched.Invariant

/-!
# Waking, switching and exiting

The calls that leave the running thread or change the state of others.  Waking changes states
only (`Wakes`).  A switch goes to a thread of the ring that is ready: `sched_yield` finds at least
the yielding thread, `sched_suspend` and `sched_exit` at least the boot thread, which never blocks
(`Inv.yieldSelect`, `Inv.suspendSelect`, `Inv.exitSelect`).  An exit moves the running thread from
the ring to the zombie list (`Shape.bury`).
-/

namespace AxiomeOS.Sched

open Chains Function List Option State

variable {t : ThreadPtr}

variable {s s' : State} {al dead : List ThreadPtr}

/-! ### Waking -/

/-- Some blocked threads have become ready; the lists and the running thread are the same. -/
structure Wakes (s s' : State) : Prop where
  same : Same s s'
  state : ∀ t, (s'.heap t).state = (s.heap t).state ∨
    ((s.heap t).state = .blocked ∧ (s'.heap t).state = .ready)
  current : s'.current = s.current
  initThread : s'.initThread = s.initThread
  initDead : s'.initDead = s.initDead
  history : s'.history = s.history

theorem Wakes.refl (s : State) : Wakes s s :=
  ⟨.refl s, fun _ => .inl rfl, rfl, rfl, rfl, rfl⟩

variable {x : Thread} {self u : ThreadPtr} {woken : List ThreadPtr}

theorem Wakes.set (ha : Alike (s.heap t) x)
    (hx : x.state = (s.heap t).state ∨ ((s.heap t).state = .blocked ∧ x.state = .ready)) :
    Wakes s (s.set t x) := by
  refine ⟨.set ha, fun u => ?_, rfl, rfl, rfl, rfl⟩
  by_cases hu : u = t
  · rw [hu, set_heap_self]
    exact hx
  · rw [set_heap_of_ne _ _ hu]
    exact .inl rfl

theorem Wakes.state_eq (h : Wakes s s') (ht : (s.heap t).state ≠ .blocked) :
    (s'.heap t).state = (s.heap t).state :=
  (h.state t).resolve_right fun hb => ht hb.1

theorem Inv.main_not_blocked (h : Inv s) : (s.heap .main).state ≠ .blocked := by
  rw [h.mainState]
  split <;> decide

theorem Inv.of_wakes (h : Inv s) (hw : Wakes s s') : Inv s' := by
  constructor
  · rw [hw.history]
    exact h.shape.of_same hw.same
  · rw [hw.current, hw.history]
    exact h.current
  · rw [hw.state_eq h.main_not_blocked, hw.current]
    exact h.mainState
  · intro t ht
    rw [hw.initThread] at ht
    rw [(hw.same.alike t).parentPid, hw.initDead, hw.current, hw.history]
    exact h.init t ht
  · rw [hw.initDead, hw.initThread]
    exact h.initDead

theorem Thread.wake_wake (x : Thread) : x.wake.wake = x.wake := by
  by_cases hb : x.state = .blocked
  · rw [show x.wake = { x with state := .ready } from if_pos hb]
    rfl
  · rw [show x.wake = x from if_neg hb]
    exact if_neg hb

theorem Thread.wake_alike (x : Thread) : Alike x x.wake := by
  rw [Thread.wake]
  split <;> exact ⟨rfl, rfl, rfl, rfl, rfl, rfl⟩

theorem Thread.wake_state (x : Thread) :
    x.wake.state = x.state ∨ (x.state = .blocked ∧ x.wake.state = .ready) := by
  rw [Thread.wake]
  split
  · rename_i hb
    exact .inr ⟨hb, rfl⟩
  · exact .inl rfl

theorem schedWake_spec {t : Option ThreadPtr} (hv : ∀ u, t = some u → s.valid u = true) :
    ∃ s', schedWake s t = some s' ∧ Wakes s s' := by
  cases t with
  | none => exact ⟨s, rfl, .refl s⟩
  | some t =>
    exact ⟨_, modify_eq (hv t rfl) _, .set (Thread.wake_alike _) (Thread.wake_state _)⟩

theorem Wakes.of_heap {H : ThreadPtr → Thread} (ha : ∀ t, Alike (s.heap t) (H t))
    (hx : ∀ t, (H t).state = (s.heap t).state ∨
      ((s.heap t).state = .blocked ∧ (H t).state = .ready)) : Wakes s { s with heap := H } :=
  ⟨⟨ha, rfl, rfl, rfl, rfl, rfl⟩, hx, rfl, rfl, rfl, rfl⟩

/-- **Waking a list of threads** wakes these threads. -/
theorem wakeAll_eq (ts : List ThreadPtr) (hv : ∀ t ∈ ts, s.valid t = true) :
    wakeAll s ts =
      some { s with heap := fun u => if u ∈ ts then (s.heap u).wake else s.heap u } := by
  induction ts generalizing s with
  | nil => simp [wakeAll]
  | cons t ts ih =>
    rw [wakeAll, schedWake, modify_eq (hv t mem_cons_self)]
    simp only [bind_eq_bind, bind_some]
    rw [ih fun u hu => by rw [valid_set]; exact hv u (mem_cons_of_mem _ hu)]
    congr 2
    funext u
    by_cases hut : u = t
    · subst hut
      rw [set_heap_self, Thread.wake_wake, if_pos mem_cons_self, ite_self]
    · rw [set_heap_of_ne _ _ hut]
      simp only [mem_cons, hut, false_or]

theorem wakeAll_spec (ts : List ThreadPtr) (hv : ∀ t ∈ ts, s.valid t = true) :
    ∃ s', wakeAll s ts = some s' ∧ Wakes s s' := by
  refine ⟨_, wakeAll_eq ts hv, .of_heap (fun t => ?_) fun t => ?_⟩
  · split
    · exact Thread.wake_alike _
    · exact .refl _
  · split
    · exact Thread.wake_state _
    · exact .inl rfl

theorem Shape.wakeParent (h : Shape s al dead) (hc : s.valid s.current = true) (self : ThreadPtr)
    (hself : s.valid self = true) : ∃ s', wakeParent s self = some s' ∧ Wakes s s' := by
  rw [Sched.wakeParent, thread_eq hself]
  simp only [bind_eq_bind, bind_some]
  split
  · obtain ⟨r, hr, hv, -⟩ := h.threadFindByPid hc (s.heap self).parentPid
    rw [hr]
    exact schedWake_spec hv
  · exact ⟨s, rfl, .refl s⟩

theorem Thread.tick_wakes (s : State) (t : ThreadPtr) :
    Wakes s (s.set t (Thread.tick (s.heap t))) := by
  refine .set ?_ ?_
  · rw [Thread.tick]
    split <;> exact ⟨rfl, rfl, rfl, rfl, rfl, rfl⟩
  · rw [Thread.tick]
    split <;> exact .inl rfl

theorem Thread.expire_alike (now : ℕ) (x : Thread) : Alike x (x.expire now) := by
  rw [Thread.expire]
  split <;> exact ⟨rfl, rfl, rfl, rfl, rfl, rfl⟩

theorem Thread.expire_state (now : ℕ) (x : Thread) :
    (x.expire now).state = x.state ∨ (x.state = .blocked ∧ (x.expire now).state = .ready) := by
  rw [Thread.expire]
  split
  · rename_i hb
    exact .inr ⟨hb.1, rfl⟩
  · exact .inl rfl

/-- **The loop of the timer tick** over the ring ends at its head and has visited each thread. -/
theorem tickLoop_eq (now : ℕ) {head : ThreadPtr} {l : List ThreadPtr} {fuel : ℕ}
    (hseg : Seg s.next (some t) (t :: l) (some head)) (hhead : head ∉ l) (hnd : (t :: l).Nodup)
    (hv : ∀ u ∈ t :: l, s.valid u = true) (hfuel : l.length < fuel) :
    tickLoop now head fuel t s =
      some { s with heap := fun u => if u ∈ t :: l then (s.heap u).expire now else s.heap u } := by
  have hvt := hv t mem_cons_self
  have hnext : ((s.set t ((s.heap t).expire now)).heap t).next = (s.heap t).next := by
    rw [set_heap_self]
    exact (Thread.expire_alike now (s.heap t)).next
  induction l generalizing s t fuel with
  | nil =>
    obtain _ | fuel := fuel
    · omega
    rw [tickLoop, modify_eq hvt]
    simp only [bind_eq_bind, bind_some]
    rw [thread_eq (by rw [valid_set]; exact hvt)]
    simp only [bind_some, hnext, show (s.heap t).next = some head from hseg.2, if_true]
    rw [State.set]
    congr 2
    funext u
    by_cases hut : u = t
    · rw [hut, update_self, if_pos (mem_singleton.mpr rfl)]
    · rw [update_of_ne hut, if_neg fun hm => hut (mem_singleton.mp hm)]
  | cons a l ih =>
    obtain _ | fuel := fuel
    · omega
    have hne : a ≠ head := fun e => hhead (e ▸ mem_cons_self)
    have hrest : Seg s.next (some a) (a :: l) (some head) := ⟨rfl, hseg.2.2⟩
    have hta := (nodup_cons.mp hnd).1
    have hsame : ∀ u ∈ a :: l, (s.set t ((s.heap t).expire now)).heap u = s.heap u :=
      fun u hu => set_heap_of_ne _ _ fun e => hta (e ▸ hu)
    have hva : ∀ u ∈ a :: l, (s.set t ((s.heap t).expire now)).valid u = true :=
      fun u hu => by rw [valid_set]; exact hv u (mem_cons_of_mem _ hu)
    rw [tickLoop, modify_eq hvt]
    simp only [bind_eq_bind, bind_some]
    rw [thread_eq (by rw [valid_set]; exact hvt)]
    simp only [bind_some, hnext, show (s.heap t).next = some a from hseg.2.1, if_neg hne]
    rw [ih (hrest.frame fun u hu => by rw [State.next, hsame u hu, State.next])
      (fun hm => hhead (mem_cons_of_mem _ hm)) (nodup_cons.mp hnd).2 hva
      (by simp at hfuel; omega) (hva a mem_cons_self)
      (by rw [set_heap_self]; exact (Thread.expire_alike now _).next)]
    congr 2
    funext u
    by_cases hut : u = t
    · rw [hut, if_neg hta, set_heap_self, if_pos mem_cons_self]
    · rw [set_heap_of_ne _ _ hut]
      simp only [mem_cons, hut, false_or]

/-- **`sched_tick`** lets each thread of the ring expire. -/
theorem Inv.schedTick_eq (h : Inv s) (now : ℕ) :
    schedTick s now = some { s with
      heap := fun u =>
        if u ∈ .main :: alive s.history then
          ((s.set s.current (s.heap s.current).tick).heap u).expire now
        else (s.set s.current (s.heap s.current).tick).heap u } := by
  have h1 := h.of_wakes (Thread.tick_wakes s s.current)
  have hnd := nodup_cons.mp h1.shape.ring.nodup
  rw [Sched.schedTick, modify_eq h.valid_current]
  simp only [bind_eq_bind, bind_some, h1.shape.head]
  exact tickLoop_eq now h1.shape.ring.seg hnd.1 h1.shape.ring.nodup
    (fun u hu => h1.shape.valid_ring hu) (Nat.lt_of_succ_lt h1.shape.ring_length_lt)

theorem Inv.schedTick (h : Inv s) (now : ℕ) : ∃ s', schedTick s now = some s' ∧ Inv s' := by
  refine ⟨_, h.schedTick_eq now, ?_⟩
  refine (h.of_wakes (Thread.tick_wakes s s.current)).of_wakes
    (.of_heap (fun t => ?_) fun t => ?_)
  · split
    · exact Thread.expire_alike now _
    · exact .refl _
  · split
    · exact Thread.expire_state now _
    · exact .inl rfl

/-! ### Switching -/

/-- What a switch to `next` changes. -/
structure Switched (s : State) (next : ThreadPtr) (s' : State) : Prop where
  same : Same s s'
  current : s'.current = next
  running : (s'.heap next).state = .running
  other : ∀ t, t ≠ next → s'.heap t = s.heap t
  initThread : s'.initThread = s.initThread
  initDead : s'.initDead = s.initDead
  history : s'.history = s.history

theorem Shape.switchTo (h : Shape s al dead) (old : ThreadPtr) {next : ThreadPtr}
    (hn : next ∈ .main :: al) (hold : s.valid old = true) :
    ∃ s', switchTo s old next = some s' ∧ Switched s next s' := by
  obtain ⟨s', hs'⟩ : ∃ s', s' = set { s with current := next } next
      { s.heap next with state := .running, quantum := threadQuantum } := ⟨_, rfl⟩
  have hsame : Same s s' := by
    have hcur : Same s { s with current := next } := { Same.refl s with }
    rw [hs']
    exact hcur.trans (.set ⟨rfl, rfl, rfl, rfl, rfl, rfl⟩)
  have hrun : s'.runnable next = true := (h.of_same hsame).runnable hn
  have hv : s'.valid old = true := by rw [hsame.valid]; exact hold
  have hcall : Sched.switchTo s old next = some s' := by
    rw [Sched.switchTo, modify_eq (valid_congr rfl _ ▸ h.valid_ring hn)]
    simp only [bind_eq_bind, bind_some]
    rw [← hs', hrun, hv]
    rfl
  subst hs'
  exact ⟨_, hcall, hsame, rfl, by rw [set_heap_self],
    fun t ht => set_heap_of_ne _ _ ht, rfl, rfl, rfl⟩

/-- **The choice of the next thread.**  If some thread of the ring is ready, the search finds one;
it finds one other than `old` if there is such a one. -/
theorem Shape.nextReady (h : Shape s al dead) {old : ThreadPtr} (hold : old ∈ .main :: al)
    (hu : u ∈ .main :: al) (hready : (s.heap u).state = .ready) :
    ∃ t ∈ .main :: al, nextReady s old = some t ∧ (s.heap t).state = .ready ∧
      (u ≠ old → t ≠ old) := by
  obtain ⟨l, hseg, hperm⟩ := h.ring.rotate hold
  have hmem : ∀ t ∈ l, t ∈ .main :: al := fun t ht => hperm.mem_iff.mp (mem_cons_of_mem _ ht)
  have hnd := nodup_cons.mp (hperm.nodup_iff.mpr h.ring.nodup)
  have hfuel : l.length < s.fuel := by
    have hlen := hperm.length_eq
    have hlt := h.ring_length_lt
    rw [length_cons] at hlen
    omega
  obtain ⟨t, hfind, hcase⟩ := findReady_spec hseg hnd.1 (fun t ht => h.valid_ring (hmem t ht)) hfuel
  have hul : u ≠ old → u ∈ l := fun hne =>
    (mem_cons.mp (hperm.mem_iff.mpr hu)).resolve_left hne
  -- Coming back to `old` means that no other thread is ready.
  have ht : t ∈ .main :: al ∧ (s.heap t).state = .ready ∧ (u ≠ old → t ≠ old) := by
    rcases hcase with ⟨htl, htr⟩ | ⟨rfl, hnone⟩
    · exact ⟨hmem t htl, htr, fun _ e => hnd.1 (e ▸ htl)⟩
    · have hut : u = t := by
        by_contra hne
        exact hnone u (hul hne) hready
      exact ⟨hold, hut ▸ hready, fun hne => absurd hut hne⟩
  refine ⟨t, ht.1, ?_, ht.2⟩
  rw [Sched.nextReady, thread_eq (h.valid_ring hold)]
  simp only [bind_eq_bind, bind_some]
  rw [show (s.heap old).next = s.next old from rfl, hfind]
  simp only [bind_some]
  rw [thread_eq (h.valid_ring ht.1)]
  simp only [bind_some, ht.2.1, if_true]

/-- A switch to a thread of the ring, in a state where the boot thread is ready. -/
theorem Shape.inv_of_switched (h : Shape s (alive s.history) (unreaped s.history))
    (ht : t ∈ .main :: alive s.history) (hmain : t ≠ .main → (s.heap .main).state = .ready)
    (hinit : ∀ u, s.initThread = some u → (s.heap u).parentPid = 1 ∧
      if s.initDead then t = .main ∧ u ∈ unreaped s.history else u ∈ alive s.history)
    (hdead : s.initDead = true → s.initThread ≠ none) (hsw : Switched s t s') : Inv s' := by
  constructor
  · rw [hsw.history]
    exact h.of_same hsw.same
  · rw [hsw.current, hsw.history]
    exact ht
  · rw [hsw.current]
    by_cases htm : t = .main
    · rw [if_pos htm, ← htm]
      exact hsw.running
    · rw [if_neg htm, hsw.other _ (Ne.symm htm)]
      exact hmain htm
  · intro u hu
    rw [hsw.initThread] at hu
    rw [(hsw.same.alike u).parentPid, hsw.initDead, hsw.current, hsw.history]
    exact hinit u hu
  · rw [hsw.initDead, hsw.initThread]
    exact hdead

/-- The thread `t` of the ring was chosen; it and the boot thread are ready in `s₁`. -/
structure Selected (s s₁ : State) (t : ThreadPtr) : Prop where
  mem : t ∈ .main :: alive s.history
  same : Same s s₁
  history : s₁.history = s.history
  initThread : s₁.initThread = s.initThread
  initDead : s₁.initDead = s.initDead
  ready : (s₁.heap t).state = .ready
  main : (s₁.heap .main).state = .ready

section

variable (h : Inv s)
include h

/-- **`sched_yield` chooses** a thread of the ring that is ready: the yielding thread itself is. -/
theorem Inv.yieldSelect : ∃ s₁ t, yieldSelect s = some (s₁, t) ∧ Selected s s₁ t := by
  obtain ⟨s₁, hs1⟩ : ∃ s₁, s₁ = s.set s.current
      { s.heap s.current with state := .ready, quantum := threadQuantum } := ⟨_, rfl⟩
  have hsame : Same s s₁ := by
    rw [hs1]
    exact .set ⟨rfl, rfl, rfl, rfl, rfl, rfl⟩
  have hcur : (s₁.heap s.current).state = .ready := by rw [hs1, set_heap_self]
  have hmain : (s₁.heap .main).state = .ready := by
    by_cases hc : s.current = .main
    · rw [← hc]
      exact hcur
    · rw [hs1, set_heap_of_ne _ _ (Ne.symm hc), h.mainState, if_neg hc]
  obtain ⟨t, ht, hnext, hready, -⟩ := (h.shape.of_same hsame).nextReady h.current h.current hcur
  have hcall : Sched.yieldSelect s = some (s₁, t) := by
    rw [Sched.yieldSelect, modify_eq h.valid_current]
    simp only [bind_eq_bind, bind_some]
    rw [← hs1, show s₁.current = s.current by rw [hs1]; rfl, hnext]
    rfl
  subst hs1
  exact ⟨_, t, hcall, ht, hsame, rfl, rfl, rfl, hready, hmain⟩

/-- **The switch to the thread that was chosen**, while init is not dead. -/
theorem Inv.switchSelected (hd : s.initDead = false) {s₁ : State} (hsel : Selected s s₁ t) :
    ∃ s', Sched.switchTo s₁ s.current t = some s' ∧ Inv s' := by
  have hshape : Shape s₁ (alive s₁.history) (unreaped s₁.history) := by
    rw [hsel.history]
    exact h.shape.of_same hsel.same
  have ht : t ∈ .main :: alive s₁.history := by
    rw [hsel.history]
    exact hsel.mem
  obtain ⟨s2, hs2, hsw⟩ := hshape.switchTo s.current ht
    (by rw [hsel.same.valid]; exact h.valid_current)
  refine ⟨s2, hs2, hshape.inv_of_switched ht (fun _ => hsel.main) ?_ ?_ hsw⟩
  · intro u hu
    rw [hsel.initThread] at hu
    have hi := h.init u hu
    rw [(hsel.same.alike u).parentPid, hsel.initDead, hsel.history]
    rw [hd] at hi ⊢
    exact hi
  · rw [hsel.initDead, hsel.initThread]
    exact h.initDead

theorem Inv.schedYield (m : InitMem) : ∃ s', schedYield s m = some s' ∧ Inv s' := by
  obtain ⟨s1, hs1, h1, -⟩ := h.reapZombies
  obtain ⟨s2, hs2, h2, -, hd2, -⟩ := h1.schedCheckInit m
  obtain ⟨s3, t, hs3, hsel⟩ := h2.yieldSelect
  obtain ⟨s4, hs4, h4⟩ := h2.switchSelected hd2 hsel
  refine ⟨s4, ?_, h4⟩
  rw [Sched.schedYield, hs1]
  simp only [bind_eq_bind, bind_some]
  rw [hs2]
  simp only [bind_some, h2.shape.head]
  rw [hs3]
  exact hs4

/-- **`sched_suspend` chooses** a thread of the ring that is ready, if it is not the boot thread
that suspends itself: the boot thread is. -/
theorem Inv.suspendSelect (hc : s.current ≠ .main) :
    ∃ s₁ t, suspendSelect s = some (s₁, t) ∧ Selected s s₁ t := by
  have hmain : (s.heap .main).state = .ready := by rw [h.mainState, if_neg hc]
  obtain ⟨t, ht, hnext, hready, hne⟩ := h.shape.nextReady h.current mem_cons_self hmain
  have hother : ∀ u, u ≠ s.current →
      (s.set s.current { s.heap s.current with state := .blocked }).heap u = s.heap u :=
    fun u hu => set_heap_of_ne _ _ hu
  refine ⟨s.set s.current { s.heap s.current with state := .blocked }, t, ?_, ht,
    Same.set ⟨rfl, rfl, rfl, rfl, rfl, rfl⟩, rfl, rfl, rfl, ?_, ?_⟩
  · rw [Sched.suspendSelect, hnext]
    rw [modify_eq h.valid_current]
    rfl
  · rw [hother t (hne (Ne.symm hc))]
    exact hready
  · rw [hother _ (Ne.symm hc)]
    exact hmain

theorem Inv.initDead_false (hc : s.current ≠ .main) : s.initDead = false := by
  by_contra hd
  rw [Bool.not_eq_false] at hd
  obtain ⟨t, ht⟩ := ne_none_iff_exists'.mp (h.initDead hd)
  exact hc ((if_pos hd).mp (h.init t ht).2).1

theorem Inv.schedSuspend (hc : s.current ≠ .main) : ∃ s', schedSuspend s = some s' ∧ Inv s' := by
  obtain ⟨s1, t, hs1, hsel⟩ := h.suspendSelect hc
  obtain ⟨s2, hs2, h2⟩ := h.switchSelected (h.initDead_false hc) hsel
  refine ⟨s2, ?_, h2⟩
  rw [Sched.schedSuspend, h.shape.head]
  rw [hs1]
  exact hs2

theorem Inv.schedSleepNs (hc : s.current ≠ .main) (now ns : ℕ) :
    ∃ s', schedSleepNs s now ns = some s' ∧ Inv s' := by
  rw [Sched.schedSleepNs]
  split
  · exact ⟨s, rfl, h⟩
  · obtain ⟨s1, hs1⟩ : ∃ s1, s1 = s.set s.current
        { s.heap s.current with sleepDeadlineNs := (now + ns) % 2 ^ 64 } := ⟨_, rfl⟩
    have hw : Wakes s s1 := by
      rw [hs1]
      exact .set ⟨rfl, rfl, rfl, rfl, rfl, rfl⟩ (.inl rfl)
    rw [modify_eq h.valid_current, ← hs1]
    exact (h.of_wakes hw).schedSuspend (by rw [hw.current]; exact hc)

end

/-! ### Exit -/

/-- What `unlinkReady` changes: the threads `p` and `q` on both sides of `self` are linked. -/
structure Unlinked (s : State) (p q : ThreadPtr) (s' : State) : Prop where
  heap : ∀ u, s'.heap u = { s.heap u with next := s'.next u, prev := s'.prev u }
  nextLast : s'.next p = some q
  prevNext : s'.prev q = some p
  next : ∀ u, u ≠ p → s'.next u = s.next u
  prev : ∀ u, u ≠ q → s'.prev u = s.prev u
  rest : s' = { s with heap := s'.heap }

theorem unlinkReady_spec {p q : ThreadPtr} (hhead : s.readyHead = some .main)
    (hself : self ≠ .main) (hv : s.valid self = true) (hp : s.prev self = some p)
    (hq : s.next self = some q) (hpv : s.valid p = true) (hqv : s.valid q = true) (hps : p ≠ self) :
    ∃ s', unlinkReady s self = some s' ∧ Unlinked s p q s' := by
  obtain ⟨s1, hs1⟩ : ∃ s1, s1 = s.set p { s.heap p with next := some q } := ⟨_, rfl⟩
  obtain ⟨s2, hs2⟩ : ∃ s2, s2 = s1.set q { s1.heap q with prev := some p } := ⟨_, rfl⟩
  have hp' : (s.heap self).prev = some p := hp
  have hq' : (s.heap self).next = some q := hq
  have hself1 : s1.heap self = s.heap self := by
    rw [hs1, set_heap_of_ne _ _ (Ne.symm hps)]
  have hlink : unlinkReady s self = some s2 := by
    have hne : s.readyHead ≠ some self := by
      rw [hhead]
      exact fun e => hself (some.inj e).symm
    rw [unlinkReady, thread_eq hv]
    simp only [bind_eq_bind, bind_some, if_neg hne]
    simp only [hhead, hp', hq', bind_some]
    rw [modify_eq hpv]
    simp only [bind_some, ← hs1]
    rw [thread_eq (by rw [hs1, valid_set]; exact hv)]
    simp only [bind_some, hself1, hp', hq']
    rw [modify_eq (by rw [hs1, valid_set]; exact hqv), ← hs2]
  have h1 := fun u => hs1 ▸ s.set_links_heap p u (some q) (s.prev p)
  have h2 := fun u => hs2 ▸ s1.set_links_heap q u (s1.next q) (some p)
  have hheap : ∀ u, s2.heap u = { s.heap u with
      next := if u = p then some q else s.next u
      prev := if u = q then some p else s.prev u } := by
    intro u
    simp only [h2, State.next, State.prev, h1]
    rcases eq_or_ne u q with rfl | huq
    · rcases eq_or_ne u p with rfl | hup <;> simp [*]
    · rcases eq_or_ne u p with rfl | hup <;> simp [*]
  have hnext : ∀ u, s2.next u = if u = p then some q else s.next u :=
    fun u => congrArg Thread.next (hheap u)
  have hprev : ∀ u, s2.prev u = if u = q then some p else s.prev u :=
    fun u => congrArg Thread.prev (hheap u)
  refine ⟨s2, hlink, fun u => by rw [State.next, State.prev, hheap], by rw [hnext, if_pos rfl],
    by rw [hprev, if_pos rfl], fun u hu => by rw [hnext, if_neg hu],
    fun u hu => by rw [hprev, if_neg hu], ?_⟩
  rw [hs2, hs1]
  rfl

/-- The state after the thread is taken out of the ring and put on the zombie list. -/
def buried (s : State) (self : ThreadPtr) : State :=
  { s.set self { s.heap self with next := s.zombieHead } with
    zombieHead := some self
    history := .exited self :: s.history }

theorem buried_heap_self (s : State) (self : ThreadPtr) :
    (buried s self).heap self = { s.heap self with next := s.zombieHead } :=
  set_heap_self ..

theorem buried_heap_of_ne (s : State) (h : u ≠ self) : (buried s self).heap u = s.heap u :=
  set_heap_of_ne _ _ h

/-- **A thread of the ring** other than the boot thread can be taken out of it and put on the
zombie list. -/
theorem Shape.bury (h : Shape s al dead) (hself : self ∈ al) :
    ∃ s', unlinkReady s self = some s' ∧ s' = { s with heap := s'.heap } ∧
      Shape (buried s' self) (al.erase self) (self :: dead) ∧
      ∀ u, Kin (s.heap u) ((buried s' self).heap u) := by
  have hring : self ∈ .main :: al := mem_cons_of_mem _ hself
  have hmain : self ≠ .main := fun e =>
    h.main_notMem (mem_append_left _ (e ▸ hself))
  have hdead : self ∉ dead := h.notMem_dead hring
  obtain ⟨p, hpmem, hp, hnp⟩ := h.ring.exists_prev hring
  obtain ⟨q, hqmem, hq, hpq⟩ := h.ring.exists_next hring
  have hloop := h.ring.next_ne hring hmain
  have hps : p ≠ self := fun e => hloop (e ▸ hnp)
  obtain ⟨s', hs', hu⟩ := unlinkReady_spec h.head hmain (h.valid_ring hring) hp hq
    (h.valid_ring hpmem) (h.valid_ring hqmem) hps
  have hperm : (al.erase self ++ self :: dead).Perm (al ++ dead) :=
    perm_middle.trans ((perm_cons_erase hself).symm.append_right dead)
  -- Only links have changed.
  have hsame : ∀ u, (buried s' self).heap u = { s.heap u with
      next := (buried s' self).next u, prev := s'.prev u } := by
    intro u
    by_cases hus : u = self
    · subst hus
      rw [State.next, buried_heap_self, hu.heap u]
    · rw [State.next, buried_heap_of_ne _ hus]
      exact hu.heap u
  have hnext : ∀ u, u ≠ self → (buried s' self).next u = s'.next u := by
    intro u hus
    rw [State.next, buried_heap_of_ne _ hus, State.next]
  have hprev : ∀ u, (buried s' self).prev u = s'.prev u := by
    intro u
    rw [State.prev, hsame u]
  have hnextSelf : (buried s' self).next self = s'.zombieHead := by
    rw [State.next, buried_heap_self]
  refine ⟨s', hs', hu.rest, ?_, fun u => by rw [hsame u]; exact ⟨⟨rfl, rfl, rfl⟩, rfl, rfl⟩⟩
  -- Besides the threads the links change nothing.
  obtain ⟨H, rfl⟩ : ∃ H, s' = { s with heap := H } := ⟨_, hu.rest⟩
  refine h.frame ?_ rfl ⟨rfl, ?_⟩ (hperm.nodup_iff.mpr h.nodup) (fun t => hperm.mem_iff.mp)
    (fun t _ => by rw [hsame t]; exact ⟨rfl, rfl, rfl⟩) (fun _ ha _ => ha)
    (fun _ hk _ _ _ => hk) fun _ hr _ _ _ => hr
  · rw [← erase_cons_tail (by simpa using Ne.symm hmain)]
    refine h.ring.erase hring hmain hp hq ?_ ?_ ?_ ?_
    · rw [hnext p hps]
      exact hu.nextLast
    · rw [hprev]
      exact hu.prevNext
    · intro b hb hbs hbp
      rw [hnext b hbs]
      exact hu.next b hbp
    · intro b hb hbs hbq
      rw [hprev]
      exact hu.prev b hbq
  · rw [hnextSelf]
    refine h.zombies.frame fun t ht => ?_
    have hts : t ≠ self := fun e => hdead (e ▸ ht)
    have htp : t ≠ p := fun e => h.notMem_dead hpmem (e ▸ ht)
    rw [hnext t hts]
    exact hu.next t htp

/-- What `sched_exit` has done when it switches. -/
structure Exited (s s' : State) : Prop where
  shape : Shape s' (alive s'.history) (unreaped s'.history)
  history : s'.history = .exited s.current :: s.history
  initThread : s'.initThread = s.initThread
  initDead : s'.initDead = decide (s.initThread = some s.current)
  parentPid : ∀ u, (s'.heap u).parentPid = (s.heap u).parentPid
  main : (s'.heap .main).state = .ready

theorem Inv.current_alive (h : Inv s) (hc : s.current ≠ .main) : s.current ∈ alive s.history :=
  (mem_cons.mp h.current).resolve_left hc

theorem eq_set_of_modify {f : Thread → Thread} (h : s.modify t f = some s') :
    s' = s.set t (f (s.heap t)) := by
  rw [State.modify] at h
  split at h
  · exact (some.inj h).symm
  · cases h

theorem Thread.wake_known (x : Thread) : Known x x.wake := by
  rw [Thread.wake]
  split <;> exact ⟨rfl, rfl, rfl⟩

theorem Kin.wake {y : Thread} (h : Kin x y) : Kin x.wake y.wake := by
  rw [Thread.wake, Thread.wake, h.state]
  split
  · exact ⟨⟨h.pid, h.parentPid, h.exitStatus⟩, rfl, h.sleepDeadlineNs⟩
  · exact h

/-- The parent that the exit of the running thread makes ready if it is blocked. -/
def Awaits (s : State) (t : ThreadPtr) : Prop :=
  0 < (s.heap s.current).parentPid ∧
    threadFindByPid s (s.heap s.current).parentPid = some (some t)

instance (s : State) (t : ThreadPtr) : Decidable (Awaits s t) := inferInstanceAs (Decidable (_ ∧ _))

/-- **Waking the parent** wakes the thread that the lookup finds. -/
theorem wakeParent_eq (h : wakeParent s self = some s') :
    s' = { s with
      heap := fun t =>
        if 0 < (s.heap self).parentPid ∧
            threadFindByPid s (s.heap self).parentPid = some (some t) then (s.heap t).wake
        else s.heap t } := by
  rw [wakeParent] at h
  obtain ⟨x, hx, h⟩ := bind_eq_some_iff.mp h
  obtain rfl : s.heap self = x := by
    rw [thread] at hx
    split at hx
    · exact some.inj hx
    · cases hx
  split at h
  · rename_i hpos
    obtain ⟨r, hr, h⟩ := bind_eq_some_iff.mp h
    cases r with
    | none =>
      rw [← some.inj h, hr]
      simp
    | some u =>
      rw [schedWake] at h
      rw [eq_set_of_modify h, State.set, hr]
      congr 1
      funext t
      by_cases htu : t = u
      · rw [htu, update_self, if_pos ⟨hpos, rfl⟩]
      · rw [update_of_ne htu, if_neg]
        rintro ⟨-, he⟩
        exact htu (some.inj (some.inj he)).symm
  · rename_i hpos
    rw [← some.inj h]
    simp [hpos]

theorem find?_erase_of_neg {α : Type*} [DecidableEq α] {p : α → Bool} {a : α} (h : p a = false)
    (l : List α) : (l.erase a).find? p = l.find? p := by
  induction l with
  | nil => rfl
  | cons b l ih =>
    by_cases hba : b = a
    · rw [hba, erase_cons_head, find?_cons, h]
    · rw [erase_cons_tail (by simpa using hba), find?_cons, find?_cons, ih]

theorem Inv.threadFindByPid_of_exit (h : Inv s)
    (hs : Shape s' ((alive s.history).erase s.current) dead) (hc : s'.current = s.current)
    (hv : s'.valid s.current = true) (hpid : ∀ t, (s'.heap t).pid = (s.heap t).pid) (pid : Int32) :
    threadFindByPid s' pid = threadFindByPid s pid := by
  rw [h.shape.threadFindByPid_eq h.valid_current, hs.threadFindByPid_eq (by rw [hc]; exact hv), hc]
  simp only [hpid]
  by_cases hcur : (s.heap s.current).pid = pid
  · simp only [find?_cons, decide_eq_true hcur]
  · have hneg : decide ((s.heap s.current).pid = pid) = false := decide_eq_false hcur
    have herase := find?_erase_of_neg (p := fun u => decide ((s.heap u).pid = pid)) hneg
      (alive s.history)
    simp only [find?_cons, herase]

/-- What `sched_exit` has done to the threads when it switches. -/
structure Left (s : State) (status : Int32) (woken : List ThreadPtr) (s' : State) : Prop where
  self : Known { s.heap s.current with exitStatus := status } (s'.heap s.current)
  other : ∀ t, t ≠ s.current →
    Kin (if t ∈ woken ∨ Awaits s t then (s.heap t).wake else s.heap t) (s'.heap t)
  nextPid : s'.nextPid = s.nextPid

/-- **`sched_exit` chooses** the boot thread, which is ready. -/
theorem Inv.exitSelect (h : Inv s) (hc : s.current ≠ .main) (status : Int32)
    (hw : ∀ t ∈ woken, s.valid t = true) :
    ∃ s', exitSelect s status woken = some (s', .main) ∧ Exited s s' ∧ Left s status woken s' := by
  have hself := h.current_alive hc
  have hmain : (s.heap .main).state = .ready := by rw [h.mainState, if_neg hc]
  obtain ⟨s1, hs1⟩ : ∃ s1, s1 = s.set s.current
      { s.heap s.current with state := .zombie, exitStatus := status } := ⟨_, rfl⟩
  have hsame1 : Same s s1 := by
    rw [hs1]
    exact .set ⟨rfl, rfl, rfl, rfl, rfl, rfl⟩
  have hset : ∀ t, t ≠ s.current → s1.heap t = s.heap t := fun t ht => by
    rw [hs1, set_heap_of_ne _ _ ht]
  have hmain1 : (s1.heap .main).state = .ready := by
    rw [hset _ (Ne.symm hc)]
    exact hmain
  have hv1 : ∀ t ∈ woken, s1.valid t = true := fun t ht => by
    rw [hsame1.valid]
    exact hw t ht
  obtain ⟨s2, hs2, hw2⟩ := wakeAll_spec woken hv1
  have heq2 := some.inj (hs2.symm.trans (wakeAll_eq woken hv1))
  have hmain2 : (s2.heap .main).state = .ready :=
    (hw2.state_eq (by rw [hmain1]; decide)).trans hmain1
  have hself2 : Known { s.heap s.current with exitStatus := status } (s2.heap s.current) := by
    rw [heq2, hs1]
    dsimp only
    rw [set_heap_self]
    split <;> exact ⟨rfl, rfl, rfl⟩
  obtain ⟨hcur, hhist, hit, hid, hnext⟩ : s2.current = s.current ∧ s2.history = s.history ∧
      s2.initThread = s.initThread ∧ s2.initDead = false ∧ s2.nextPid = s.nextPid := by
    rw [heq2, hs1]
    exact ⟨rfl, rfl, rfl, h.initDead_false hc, rfl⟩
  have hsame3 : Same s { s2 with
      initDead := s2.initDead || decide (s2.initThread = some s.current) } :=
    { hsame1.trans hw2.same with }
  obtain ⟨s4, hs4, hrest, hshape, hkin⟩ := (h.shape.of_same hsame3).bury hself
  have hvself : (buried s4 s.current).valid s.current = true := hshape.valid_dead mem_cons_self
  obtain ⟨H, rfl⟩ : ∃ H, s4 = { s2 with
      initDead := s2.initDead || decide (s2.initThread = some s.current), heap := H } := ⟨_, hrest⟩
  generalize hB : buried _ s.current = B at hshape hkin hvself
  have hcurB : B.current = s.current := hB ▸ hcur
  obtain ⟨s6, hs6, hw6⟩ := hshape.wakeParent (by rw [hcurB]; exact hvself) s.current hvself
  have hhist6 : s6.history = .exited s.current :: s.history :=
    hw6.history.trans (hB ▸ congrArg _ hhist)
  -- The parent that is found is the one that would have been found before the exit.
  have hfind : ∀ t, (0 < (B.heap s.current).parentPid ∧
      threadFindByPid B (B.heap s.current).parentPid = some (some t)) ↔ Awaits s t := by
    intro t
    rw [h.threadFindByPid_of_exit hshape hcurB hvself
      (fun t => (hkin t).pid.trans (hsame3.alike t).pid), (hkin _).parentPid,
      (hsame3.alike _).parentPid, Awaits]
  have hlast : ∀ t, s6.heap t = if Awaits s t then (B.heap t).wake else B.heap t := by
    intro t
    rw [wakeParent_eq hs6]
    simp only [hfind]
  refine ⟨s6, ?_, ⟨?_, hhist6, hw6.initThread.trans (hB ▸ hit), ?_, ?_, ?_⟩, ⟨?_, ?_, ?_⟩⟩
  · rw [Sched.exitSelect, modify_eq h.valid_current]
    simp only [bind_eq_bind, bind_some]
    rw [← hs1, hs2]
    simp only [bind_some]
    rw [hs4]
    simp only [bind_some]
    subst hB
    rw [modify_eq (valid_congr rfl _ ▸ hvself)]
    refine (congrArg (Option.bind · _) hs6).trans ?_
    rw [Option.bind_some, hw6.same.readyHead, hshape.head]
    rfl
  · rw [hhist6]
    exact hshape.of_same hw6.same
  · rw [hw6.initDead, ← hB]
    show (s2.initDead || decide (s2.initThread = some s.current)) = _
    rw [hid, hit, Bool.false_or]
  · intro u
    rw [(hw6.same.alike u).parentPid, (hkin u).parentPid, (hsame3.alike u).parentPid]
  · have hready := (hkin .main).state.trans hmain2
    exact (hw6.state_eq (by rw [hready]; decide)).trans hready
  · refine (hself2.trans (hkin _).toKnown).trans ?_
    rw [hlast]
    split
    · exact Thread.wake_known _
    · exact .refl _
  · intro t ht
    have hfirst : s2.heap t = if t ∈ woken then (s.heap t).wake else s.heap t := by
      rw [heq2]
      simp only [hset t ht]
    have hk : Kin (s2.heap t) (B.heap t) := hkin t
    rw [hfirst] at hk
    rw [hlast]
    by_cases haw : Awaits s t
    · rw [if_pos haw, if_pos (.inr haw)]
      have hk' := hk.wake
      split at hk'
      · rw [Thread.wake_wake] at hk'
        exact hk'
      · exact hk'
    · simp only [haw, or_false, if_false]
      exact hk
  · rw [wakeParent_eq hs6, ← hB]
    exact hnext

theorem Inv.schedExit (h : Inv s) (hc : s.current ≠ .main) (status : Int32)
    (hw : ∀ t ∈ woken, s.valid t = true) : ∃ s', schedExit s status woken = some s' ∧ Inv s' := by
  obtain ⟨s1, hs1, he, -⟩ := h.exitSelect hc status hw
  have hal : alive s1.history = (alive s.history).erase s.current := by rw [he.history]; rfl
  have hun : unreaped s1.history = s.current :: unreaped s.history := by rw [he.history]; rfl
  obtain ⟨s2, hs2, hsw⟩ := he.shape.switchTo s.current mem_cons_self
    (he.shape.valid_dead (by rw [hun]; exact mem_cons_self))
  refine ⟨s2, ?_, he.shape.inv_of_switched mem_cons_self (fun hne => absurd rfl hne) ?_ ?_ hsw⟩
  · rw [Sched.schedExit, hs1]
    exact hs2
  · intro u hu
    rw [he.initThread] at hu
    have hi := h.init u hu
    rw [h.initDead_false hc] at hi
    refine ⟨(he.parentPid u).trans hi.1, ?_⟩
    rw [he.initDead, hu, hal, hun]
    -- Init itself may be the one that exits.
    by_cases hus : u = s.current
    · rw [if_pos (by rw [hus]; exact decide_eq_true rfl), hus]
      exact ⟨rfl, mem_cons_self⟩
    · rw [if_neg (by simpa using hus)]
      exact (mem_erase_of_ne hus).mpr hi.2
  · intro hd hnone
    rw [he.initDead, ← he.initThread, hnone] at hd
    cases hd

/-! ### Waiting for a child -/

theorem Shape.schedHasChild (h : Shape s al dead) (pid : Int32) :
    ∃ b, schedHasChild s pid = some b := by
  rw [Sched.schedHasChild, h.head]
  simp only [bind_eq_bind, h.findRing_eq, bind_some, h.findZombie_eq]
  split
  · exact ⟨true, rfl⟩
  · exact ⟨_, rfl⟩

/-- **`sys_waitpid`** reaps no zombie but its caller's children, and init is none of them. -/
theorem Inv.sysWaitpid (h : Inv s) (hc : s.current ≠ .main) (pidFilter : Int32) :
    ∃ s', sysWaitpid s pidFilter = some s' ∧ Inv s' := by
  rw [Sched.sysWaitpid, thread_eq h.valid_current]
  simp only [bind_eq_bind, bind_some, schedChildZombie, h.shape.findZombie_eq]
  cases hz : (unreaped s.history).find? fun u =>
      decide ((s.heap u).parentPid = (s.heap s.current).pid) &&
        (decide (pidFilter ≤ 0) || decide ((s.heap u).pid = pidFilter)) with
  | some z =>
    have hzd := mem_of_find?_eq_some hz
    have hinit : s.initThread ≠ some z := by
      intro ht
      have hal := h.init_alive (fun _ => hc) ht
      exact h.shape.notMem_dead (mem_cons_of_mem _ hal) hzd
    obtain ⟨s', hs', hr, -⟩ := h.shape.schedReapZombie hzd
    exact ⟨s', hs', h.reap hzd hinit hr⟩
  | none =>
    obtain ⟨b, hb⟩ := h.shape.schedHasChild (s.heap s.current).pid
    simp only [hb, bind_some]
    cases b with
    | true => exact h.schedSuspend hc
    | false => exact ⟨s, rfl, h⟩

end AxiomeOS.Sched
