import AxiomeOS.Sched.Frames

/-!
# Pids

`next_pid` is a signed counter that is never reset.  As long as it has not wrapped around
(`PidsLeft`), the pids of the threads that have not been reaped are positive and distinct, and a pid
that has left the ring does not come back (`Pids`, `Absent`).

A call either creates a thread (`Grown`) or leaves the pids as they are (`Stays`); `Inv.keeps` is
the rule for what both keep.
-/

namespace AxiomeOS.Sched

open Runs List

variable {r : Option ThreadPtr}

variable {s s' : State}

/-! ### Pids -/

/-- The threads that have not been reaped. -/
def threads (s : State) : List ThreadPtr := .main :: alive s.history ++ unreaped s.history

variable {t : ThreadPtr} {e : Event} {pid : Int32}

theorem mem_threads : t ∈ threads s ↔ t ∈ .main :: alive s.history ∨ t ∈ unreaped s.history := by
  rw [threads, mem_append]

/-- A call that may create a thread is made while `next_pid` has not wrapped around. -/
def PidsLeft (s : State) : Event → Prop
  | .yield _ => s.initDead = true → 0 < s.nextPid
  | e => e.spawns = true → 0 < s.nextPid

/-- Nothing is created: the threads of `s'` are threads of `s`, with their pids. -/
structure Stays (s s' : State) : Prop where
  live : ∀ t ∈ .main :: alive s'.history, t ∈ .main :: alive s.history
  dead : ∀ z ∈ unreaped s'.history, z ∈ unreaped s.history ∨ z ∈ alive s.history
  pid : ∀ t, (s'.heap t).pid = (s.heap t).pid
  parentPid : ∀ t, (s'.heap t).parentPid = (s.heap t).parentPid
  nextPid : s'.nextPid = s.nextPid

theorem Stays.of_known (hk : ∀ t, Known (s.heap t) (s'.heap t)) (hn : s'.nextPid = s.nextPid)
    (hh : s'.history = s.history) : Stays s s' := by
  refine ⟨?_, ?_, fun t => (hk t).pid, fun t => (hk t).parentPid, hn⟩
  · rw [hh]
    exact fun t ht => ht
  · rw [hh]
    exact fun z hz => .inl hz

theorem Stays.of_switch (h : Switch s s') : Stays s s' :=
  Stays.of_known h.known h.nextPid h.history

theorem Stays.of_calm (h : Calm s s') (hz : ∀ z ∈ unreaped s'.history, z ∈ unreaped s.history) :
    Stays s s' := by
  refine ⟨?_, fun z hm => .inl (hz z hm), fun t => (h.kin t).pid, fun t => (h.kin t).parentPid,
    h.nextPid⟩
  rw [h.alive]
  exact fun t ht => ht

theorem Stays.of_leaves (h : Inv s) (hc : s.current ≠ .main) {status : Int32}
    {woken : List ThreadPtr} (hl : Leaves s status woken s') : Stays s s' := by
  have hfield : ∀ t, (s'.heap t).pid = (s.heap t).pid ∧
      (s'.heap t).parentPid = (s.heap t).parentPid := by
    intro t
    by_cases ht : t = s.current
    · rw [ht]
      exact ⟨hl.self.pid, hl.self.parentPid⟩
    · exact ⟨(hl.known t ht).pid, (hl.known t ht).parentPid⟩
  refine ⟨?_, ?_, fun t => (hfield t).1, fun t => (hfield t).2, hl.nextPid⟩
  · rw [hl.history]
    intro t ht
    rcases mem_cons.mp ht with ht | ht
    · exact ht ▸ mem_cons_self
    · exact mem_cons_of_mem _ (mem_of_mem_erase ht)
  · rw [hl.history]
    intro z hz
    rcases mem_cons.mp hz with hz | hz
    · exact .inr (hz ▸ h.current_alive hc)
    · exact .inl hz

theorem Stays.of_set {u : ThreadPtr} {x : Thread} (hx : Known (s.heap u) x) :
    Stays s (s.set u x) := by
  refine .of_known (fun t => ?_) rfl rfl
  by_cases ht : t = u
  · rw [ht, State.set_heap_self]
    exact hx
  · rw [State.set_heap_of_ne _ _ ht]
    exact .refl _

theorem known_of_ticks (s : State) (now : ℕ) (t : ThreadPtr) : Known (s.heap t)
    (if t ∈ .main :: alive s.history then
      ((s.set s.current (s.heap s.current).tick).heap t).expire now
    else (s.set s.current (s.heap s.current).tick).heap t) := by
  have htick : ∀ x : Thread, Known x x.tick := fun x => by
    rw [Thread.tick]
    split <;> exact ⟨rfl, rfl, rfl⟩
  have hexpire : ∀ x : Thread, Known x (x.expire now) := fun x => by
    rw [Thread.expire]
    split <;> exact ⟨rfl, rfl, rfl⟩
  have hset : Known (s.heap t) ((s.set s.current (s.heap s.current).tick).heap t) := by
    by_cases ht : t = s.current
    · rw [ht, State.set_heap_self]
      exact htick _
    · rw [State.set_heap_of_ne _ _ ht]
      exact .refl _
  split
  · exact hset.trans (hexpire _)
  · exact hset

/-- **The rule for what creation and everything else keep.** -/
theorem Inv.keeps {X : State → Prop} (h : Inv s) (hs : schedStep s e s') (hleft : PidsLeft s e)
    (hstays : ∀ s s', Inv s → Inv s' → Stays s s' → X s → X s')
    (hgrown : ∀ s s' r, Inv s → Inv s' → Grown s s' r → (r.isSome = true → 0 < s.nextPid) →
      X s → X s') (hX : X s) : X s' := by
  obtain ⟨h', heff⟩ := h.effect hs
  cases heff with
  | creates he hg =>
    refine hgrown s s' _ h h' hg (fun _ => ?_) hX
    cases e with
    | spawn _ | spawnProcess _ _ | fork _ | execInit _ _ => exact hleft rfl
    | _ => cases he
  | yields h1 hcalm hswept h2 hg hr hsw =>
    have hst : Stays s _ := .of_calm hcalm fun z hz => ((hswept.zombies z).mp hz).1
    have hX1 := hstays _ _ h h1 hst hX
    have hX2 := hgrown _ _ _ h1 h2 hg (fun hsome => hcalm.nextPid ▸ hleft (hr hsome)) hX1
    exact hstays _ _ h2 h' (.of_switch hsw) hX2
  | suspends hsw => exact hstays _ _ h h' (.of_switch hsw) hX
  | returns => exact hX
  | sleeps h1 hsw =>
    exact hstays _ _ h1 h' (.of_switch hsw) (hstays _ _ h h1 (.of_set ⟨rfl, rfl, rfl⟩) hX)
  | wakesNone => exact hX
  | wakes => exact hstays _ _ h h' (.of_set (Thread.wake_known _)) hX
  | ticks => exact hstays _ _ h h' (.of_known (known_of_ticks s _) rfl rfl) hX
  | exits hc hl => exact hstays _ _ h h' (.of_leaves h hc hl) hX
  | reaps hz hr hcalm =>
    refine hstays _ _ h h' (.of_calm hcalm fun z hm => ?_) hX
    rw [hr.history] at hm
    exact mem_of_mem_erase hm
  | waits _ hsw => exact hstays _ _ h h' (.of_switch hsw) hX
  | childless _ => exact hX

/-- Pids are positive and handed out once. -/
structure Pids (s : State) : Prop where
  pos : ∀ t ∈ threads s, 0 < (s.heap t).pid
  fresh : 0 < s.nextPid → ∀ t ∈ threads s,
    (s.heap t).pid < s.nextPid ∧ (s.heap t).parentPid < s.nextPid
  inj : ∀ t ∈ threads s, ∀ u ∈ threads s, (s.heap t).pid = (s.heap u).pid → t = u

theorem Stays.mem (h : Stays s s') (ht : t ∈ threads s') : t ∈ threads s := by
  rcases mem_threads.mp ht with ht | ht
  · exact mem_threads.mpr (.inl (h.live t ht))
  · rcases h.dead t ht with ht | ht
    · exact mem_threads.mpr (.inr ht)
    · exact mem_threads.mpr (.inl (mem_cons_of_mem _ ht))

theorem Pids.of_stays (h : Pids s) (hs : Stays s s') : Pids s' := by
  refine ⟨?_, ?_, ?_⟩
  · intro t ht
    rw [hs.pid]
    exact h.pos t (hs.mem ht)
  · intro hn t ht
    rw [hs.nextPid] at hn ⊢
    rw [hs.pid, hs.parentPid]
    exact h.fresh hn t (hs.mem ht)
  · intro t ht u hu
    rw [hs.pid, hs.pid]
    exact h.inj t (hs.mem ht) u (hs.mem hu)

theorem lt_add_one_of_pos {n : Int32} (h : 0 < n) (h' : 0 < n + 1) : n < n + 1 := by
  rw [Int32.lt_iff_toInt_lt] at h h' ⊢
  rw [Int32.toInt_add] at h' ⊢
  have h0 : (0 : Int32).toInt = 0 := rfl
  have h1 : (1 : Int32).toInt = 1 := rfl
  have hlt := n.toInt_lt
  rw [h0] at h h'
  rw [h1] at h' ⊢
  rw [Int.bmod_def] at h' ⊢
  split at h' <;> omega

theorem Grown.mem (h : Grown s s' r) (ht : t ∈ threads s') :
    (t ∈ threads s ∧ Kin (s.heap t) (s'.heap t)) ∨ r = some t := by
  rcases mem_threads.mp ht with ht | ht
  · rw [h.alive] at ht
    rcases mem_append.mp
      (show t ∈ (.main :: Sched.alive s.history) ++ r.toList from ht) with ht | ht
    · exact .inl ⟨mem_threads.mpr (.inl ht), h.ring t ht⟩
    · exact .inr (Option.mem_toList.mp ht)
  · obtain ⟨ht, hk⟩ := h.zombies t ht
    exact .inl ⟨mem_threads.mpr (.inr ht), hk⟩

theorem Grown.lt_nextPid (h : Grown s s' r)
    (hleft : r.isSome = true → 0 < s.nextPid) (hn : 0 < s'.nextPid) {x : Int32}
    (hx : 0 < s.nextPid → x < s.nextPid) : x < s'.nextPid := by
  rw [h.nextPid] at hn ⊢
  cases r with
  | none => exact hx hn
  | some t => exact Int32.lt_trans (hx (hleft rfl)) (lt_add_one_of_pos (hleft rfl) hn)

theorem Pids.of_grown (h : Pids s) (hinv : Inv s) (hg : Grown s s' r)
    (hleft : r.isSome = true → 0 < s.nextPid) : Pids s' := by
  have hnew : ∀ t, r = some t → 0 < s.nextPid ∧ (s'.heap t).pid = s.nextPid := by
    intro t ht
    exact ⟨hleft (by rw [ht]; rfl), (hg.new t ht).1⟩
  -- No thread has had the pid of the new one.
  have hne : ∀ t u, t ∈ threads s → Kin (s.heap t) (s'.heap t) → r = some u →
      (s'.heap t).pid ≠ (s'.heap u).pid := by
    intro t u ht hk hu heq
    obtain ⟨hpos, hpid⟩ := hnew u hu
    rw [hk.pid, hpid] at heq
    exact Int32.lt_irrefl (heq ▸ (h.fresh hpos t ht).1)
  refine ⟨?_, ?_, ?_⟩
  · intro t ht
    rcases hg.mem ht with ⟨ht, hk⟩ | ht
    · rw [hk.pid]
      exact h.pos t ht
    · rw [(hnew t ht).2]
      exact (hnew t ht).1
  · intro hn t ht
    rcases hg.mem ht with ⟨ht, hk⟩ | ht
    · rw [hk.pid, hk.parentPid]
      exact ⟨hg.lt_nextPid hleft hn fun hp => (h.fresh hp t ht).1,
        hg.lt_nextPid hleft hn fun hp => (h.fresh hp t ht).2⟩
    · obtain ⟨hpos, hpid⟩ := hnew t ht
      have hlt : s.nextPid < s'.nextPid := by
        rw [hg.nextPid, ht] at hn ⊢
        exact lt_add_one_of_pos hpos hn
      refine ⟨by rw [hpid]; exact hlt, Int32.lt_trans ?_ hlt⟩
      rcases (hg.new t ht).2.1 with h0 | hcur
      · rw [h0]
        exact hpos
      · rw [hcur]
        exact (h.fresh hpos _ (mem_threads.mpr (.inl hinv.current))).1
  · intro t ht u hu heq
    rcases hg.mem ht with ⟨ht, hkt⟩ | ht
    · rcases hg.mem hu with ⟨hu, hku⟩ | hu
      · rw [hkt.pid, hku.pid] at heq
        exact h.inj t ht u hu heq
      · exact absurd heq (hne t u ht hkt hu)
    · rcases hg.mem hu with ⟨hu, hku⟩ | hu
      · exact absurd heq.symm (hne u t hu hku ht)
      · exact Option.some.inj (ht.symm.trans hu)

theorem Pids.step (h : Pids s) (hinv : Inv s) (hs : schedStep s e s') (hleft : PidsLeft s e) :
    Pids s' :=
  hinv.keeps hs hleft (fun _ _ _ _ hst hp => hp.of_stays hst)
    (fun _ _ _ hi _ hg hl hp => hp.of_grown hi hg hl) h

theorem pids_schedInit (g : ThreadPtr → Thread) : Pids (schedInit g) := by
  have hmain : ∀ t ∈ threads (schedInit g), t = .main := by
    intro t ht
    exact mem_singleton.mp ht
  refine ⟨?_, ?_, ?_⟩
  · intro t ht
    rw [hmain t ht]
    show (0 : Int32) < 1
    decide
  · intro _ t ht
    rw [hmain t ht]
    show (1 : Int32) < 3 ∧ (0 : Int32) < 3
    decide
  · intro t ht u hu _
    rw [hmain t ht, hmain u hu]

/-- No thread with this pid is on the ring, and none will be. -/
structure Absent (pid : Int32) (s : State) : Prop where
  live : ∀ t ∈ .main :: alive s.history, (s.heap t).pid ≠ pid
  fresh : 0 < s.nextPid → pid < s.nextPid

theorem Absent.of_stays (h : Absent pid s) (hs : Stays s s') : Absent pid s' := by
  refine ⟨?_, ?_⟩
  · intro t ht
    rw [hs.pid]
    exact h.live t (hs.live t ht)
  · rw [hs.nextPid]
    exact h.fresh

theorem Absent.of_grown (h : Absent pid s)
    (hg : Grown s s' r) (hleft : r.isSome = true → 0 < s.nextPid) : Absent pid s' := by
  refine ⟨?_, fun hn => hg.lt_nextPid hleft hn h.fresh⟩
  intro t ht
  rw [hg.alive] at ht
  rcases mem_append.mp (show t ∈ (.main :: alive s.history) ++ r.toList from ht) with ht | ht
  · rw [(hg.ring t ht).pid]
    exact h.live t ht
  · have hr := Option.mem_toList.mp ht
    rw [(hg.new t hr).1]
    intro heq
    exact Int32.lt_irrefl (heq ▸ h.fresh (hleft (by rw [hr]; rfl)))

theorem Absent.step (h : Absent pid s) (hinv : Inv s)
    (hs : schedStep s e s') (hleft : PidsLeft s e) : Absent pid s' :=
  hinv.keeps hs hleft (fun _ _ _ _ hst ha => ha.of_stays hst)
    (fun _ _ _ _ _ hg hl ha => ha.of_grown hg hl) h

end AxiomeOS.Sched
