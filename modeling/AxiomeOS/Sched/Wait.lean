import AxiomeOS.Sched.Pids

/-!
# Waiting for children

A child that has exited stays on the zombie list until its parent calls `sys_waitpid`.  The list is
also swept by every `sched_yield`, which discards the zombies whose parent cannot be found.

`Inv.waitedOnce`: as long as pids have not wrapped around, the exit of a child is returned by at
most one call, made by its parent, and until then the child is kept for it.
-/

namespace AxiomeOS.Sched

open Runs List Option State

variable {r : Option ThreadPtr} {e : Event}

variable {s s' : State}

/-! ### Pids that are not returned any more -/

/-- No call of `sys_waitpid` can return this pid any more: no thread has it, or only a zombie whose
parent is gone. -/
structure Closed (pid : Int32) (s : State) : Prop where
  absent : Absent pid s
  orphan : ∀ z ∈ unreaped s.history, (s.heap z).pid = pid → Absent (s.heap z).parentPid s

variable {pid : Int32} {es : List Event} {t u : ThreadPtr} {woken : List ThreadPtr} {m : InitMem}

theorem Closed.of_stays (h : Closed pid s) (hs : Stays s s') : Closed pid s' := by
  refine ⟨h.absent.of_stays hs, ?_⟩
  intro z hz hpid
  rw [hs.pid] at hpid
  rw [hs.parentPid]
  rcases hs.dead z hz with hz | hz
  · exact (h.orphan z hz hpid).of_stays hs
  · exact absurd hpid (h.absent.live z (mem_cons_of_mem _ hz))

theorem Closed.of_grown (h : Closed pid s)
    (hg : Grown s s' r) (hleft : r.isSome = true → 0 < s.nextPid) : Closed pid s' := by
  refine ⟨h.absent.of_grown hg hleft, ?_⟩
  intro z hz hpid
  obtain ⟨hz, hk⟩ := hg.zombies z hz
  rw [hk.pid] at hpid
  rw [hk.parentPid]
  exact (h.orphan z hz hpid).of_grown hg hleft

theorem Closed.step (h : Closed pid s) (hinv : Inv s)
    (hs : schedStep s e s') (hleft : PidsLeft s e) : Closed pid s' :=
  hinv.keeps hs hleft (fun _ _ _ _ hst hc => hc.of_stays hst)
    (fun _ _ _ _ _ hg hl hc => hc.of_grown hg hl) h

/-! ### What `sys_waitpid` returns -/

/-- A call of `sys_waitpid` that has returned: the caller, the filter, and the pid and the exit
status of the child. -/
structure Answer where
  caller : ThreadPtr
  pidFilter : Int32
  pid : Int32
  status : Int32
deriving DecidableEq

/-- What the call returns, if it reaps a child. -/
def waitpidAnswer (s : State) : Event → Option Answer
  | .waitpid pidFilter =>
    match schedChildZombie s (s.heap s.current).pid pidFilter with
    | some (some z) => some ⟨s.current, pidFilter, (s.heap z).pid, (s.heap z).exitStatus⟩
    | _ => none
  | _ => none

/-- What the calls of a run return, in order. -/
def answers : State → List Event → List Answer
  | _, [] => []
  | s, e :: es =>
    (waitpidAnswer s e).toList ++
      match step s e with
      | some s' => answers s' es
      | none => []

/-- The answers that name this pid. -/
def answersFor (pid : Int32) (s : State) (es : List Event) : List Answer :=
  (answers s es).filter fun a => decide (a.pid = pid)

theorem answersFor_cons (h : schedStep s e s') (es : List Event) : answersFor pid s (e :: es) =
      ((waitpidAnswer s e).toList.filter fun a => decide (a.pid = pid)) ++
        answersFor pid s' es := by
  rw [answersFor, answers, h.2, filter_append]
  rfl

theorem Inv.waitpidAnswer_eq (h : Inv s) (pidFilter : Int32) :
    waitpidAnswer s (.waitpid pidFilter) = (childZombie s pidFilter).map fun z =>
      ⟨s.current, pidFilter, (s.heap z).pid, (s.heap z).exitStatus⟩ := by
  rw [waitpidAnswer, h.schedChildZombie_eq]
  cases childZombie s pidFilter <;> rfl

theorem childZombie_spec {pidFilter : Int32} {z : ThreadPtr}
    (h : childZombie s pidFilter = some z) :
    z ∈ unreaped s.history ∧ (s.heap z).parentPid = (s.heap s.current).pid ∧
      (pidFilter ≤ 0 ∨ (s.heap z).pid = pidFilter) := by
  have hp := find?_some h
  simp only [Bool.and_eq_true, Bool.or_eq_true, decide_eq_true_eq] at hp
  exact ⟨mem_of_find?_eq_some h, hp⟩

theorem Closed.not_answered (h : Closed pid s) (hinv : Inv s) (e : Event) :
    ((waitpidAnswer s e).toList.filter fun a => decide (a.pid = pid)) = [] := by
  cases e with
  | waitpid pidFilter =>
    rw [hinv.waitpidAnswer_eq]
    cases hz : childZombie s pidFilter with
    | none => rfl
    | some z =>
      obtain ⟨hzd, hparent, -⟩ := childZombie_spec hz
      have hne : (s.heap z).pid ≠ pid := fun heq =>
        (h.orphan z hzd heq).live _ hinv.current hparent.symm
      simp [hne]
  | _ => rfl

theorem Closed.answersFor_eq (h : Closed pid s) (hinv : Inv s)
    (hrun : RunIn PidsLeft schedStep s es s') : answersFor pid s es = [] := by
  induction hrun with
  | nil => rfl
  | cons hst _ ih =>
    obtain ⟨hleft, hs⟩ := hst
    rw [answersFor_cons hs, h.not_answered hinv, nil_append]
    exact ih (h.step hinv hs hleft) (hinv.effect hs).1

/-! ### A child that has exited -/

/-- The child `c` has exited and waits for its parent `p`, which has not. -/
structure Pending (c p : ThreadPtr) (pid parentPid status : Int32) (s : State) : Prop where
  zombie : c ∈ unreaped s.history
  childPid : (s.heap c).pid = pid
  childParent : (s.heap c).parentPid = parentPid
  childStatus : (s.heap c).exitStatus = status
  notInit : s.initThread ≠ some c
  parent : p ∈ .main :: alive s.history
  parentsPid : (s.heap p).pid = parentPid

variable {c p : ThreadPtr} {pid parentPid status : Int32}

section Pending

variable (h : Pending c p pid parentPid status s)

include h

theorem Pending.of_known (hc : Known (s.heap c) (s'.heap c)) (hp : Known (s.heap p) (s'.heap p))
    (hz : c ∈ unreaped s'.history) (hi : s'.initThread ≠ some c)
    (hal : p ∈ .main :: alive s'.history) : Pending c p pid parentPid status s' :=
  ⟨hz, hc.pid.trans h.childPid, hc.parentPid.trans h.childParent,
    hc.exitStatus.trans h.childStatus, hi, hal, hp.pid.trans h.parentsPid⟩

theorem Pending.of_switch (hsw : Switch s s') : Pending c p pid parentPid status s' :=
  h.of_known (hsw.known c) (hsw.known p) (by rw [hsw.history]; exact h.zombie)
    (by rw [hsw.initThread]; exact h.notInit) (by rw [hsw.history]; exact h.parent)

theorem Pending.of_heap {H : ThreadPtr → Thread}
    (hk : ∀ t, Known (s.heap t) (H t)) : Pending c p pid parentPid status { s with heap := H } :=
  h.of_known (hk c) (hk p) h.zombie h.notInit h.parent

theorem Pending.of_set {x : Thread}
    (hx : Known (s.heap u) x) : Pending c p pid parentPid status (s.set u x) := by
  refine h.of_heap fun t => ?_
  by_cases ht : t = u
  · rw [ht, Function.update_self]
    exact hx
  · rw [Function.update_of_ne ht]
    exact .refl _

theorem Pending.of_grown (hinv : Inv s')
    (hg : Grown s s' r) : Pending c p pid parentPid status s' := by
  have hz := hg.kept c h.zombie h.notInit
  have hal : p ∈ .main :: alive s'.history := by
    rw [hg.alive]
    exact mem_append_left r.toList h.parent
  refine h.of_known (hg.zombies c hz).2.toKnown (hg.ring p h.parent).toKnown hz ?_ hal
  -- The child is a zombie, so it is not the thread that was created.
  intro hi
  rcases hg.initThread c hi with hi | hr
  · exact h.notInit hi
  · refine hinv.shape.notMem_dead ?_ hz
    rw [hg.alive, hr]
    simp

/-- **The sweep** keeps a child whose parent is alive. -/
theorem Pending.of_swept (hinv : Inv s) (hpids : Pids s)
    (hcalm : Calm s s') (hsw : Swept s s') : Pending c p pid parentPid status s' := by
  have hpos : 0 < parentPid := by
    rw [← h.parentsPid]
    exact hpids.pos p (mem_threads.mpr (.inl h.parent))
  have hfound : orphan s (s.heap c) = some false := by
    rw [Sched.orphan, h.childParent, if_neg fun e => Int32.lt_irrefl (e ▸ hpos)]
    rw [hinv.shape.threadFindByPid_eq hinv.valid_current, if_neg (Int32.not_le.mpr hpos)]
    cases hf : (s.current :: .main :: .idle :: .main :: alive s.history).find? fun u =>
        decide ((s.heap u).pid = parentPid) with
    | some u => rfl
    | none =>
      have hp := find?_eq_none.mp hf p (by
        have := h.parent
        simp only [mem_cons] at this ⊢
        exact .inr (.inr (.inr this)))
      exact absurd (decide_eq_true h.parentsPid) hp
  exact h.of_known (hcalm.kin c).toKnown (hcalm.kin p).toKnown
    ((hsw.zombies c).mpr ⟨h.zombie, hfound⟩) (by rw [hsw.initThread]; exact h.notInit)
    (by rw [hcalm.alive]; exact h.parent)

theorem Pending.mem : c ∈ threads s :=
  mem_threads.mpr (.inr h.zombie)

theorem Pending.parent_mem : p ∈ threads s :=
  mem_threads.mpr (.inl h.parent)

theorem Pending.eq_of_pid (hpids : Pids s)
    (ht : t ∈ threads s) (heq : (s.heap t).pid = pid) : t = c :=
  hpids.inj t ht c h.mem (heq.trans h.childPid.symm)

theorem Pending.eq_of_parentPid (hpids : Pids s)
    (ht : t ∈ threads s) (heq : (s.heap t).pid = parentPid) : t = p :=
  hpids.inj t ht p h.parent_mem (heq.trans h.parentsPid.symm)

variable (hinv : Inv s) (hpids : Pids s)
include hinv hpids

theorem Pending.absent : Absent pid s := by
  refine ⟨?_, fun hn => h.childPid ▸ (hpids.fresh hn c h.mem).1⟩
  intro t ht heq
  have htc := h.eq_of_pid hpids (mem_threads.mpr (.inl ht)) heq
  exact hinv.shape.notMem_dead (htc ▸ ht) h.zombie

/-- **The parent exits**: nobody can wait for the child any more. -/
theorem Pending.parent_exits (hp : s.current = p) (hc : s.current ≠ .main) {st : Int32}
    (hl : Leaves s st woken s') : Closed pid s' ∧ Absent parentPid s' := by
  have hst := Stays.of_leaves hinv hc hl
  have hparent : Absent parentPid s' := by
    refine ⟨?_, fun hn => ?_⟩
    · intro t ht heq
      rw [hst.pid] at heq
      have htp := h.eq_of_parentPid hpids (mem_threads.mpr (.inl (hst.live t ht))) heq
      rw [hl.history] at ht
      rcases mem_cons.mp ht with htm | htm
      · exact hc (hp.trans (htp.symm.trans htm))
      · have hnd := (nodup_append.mp hinv.shape.nodup).1
        rw [hp] at htm
        exact (hnd.mem_erase_iff.mp htm).1 htp
    · rw [hst.nextPid] at hn ⊢
      exact h.childParent ▸ (hpids.fresh hn c h.mem).2
  refine ⟨⟨(h.absent hinv hpids).of_stays hst, ?_⟩, hparent⟩
  intro z hz heq
  have hzt : z ∈ threads s := hst.mem (mem_threads.mpr (.inr hz))
  rw [hst.pid] at heq
  rw [h.eq_of_pid hpids hzt heq, hst.parentPid, h.childParent]
  exact hparent

/-- **The child is reaped**: its pid is gone. -/
theorem Pending.reaped (hr : Reaped s (unreaped s.history) c s') (hcalm : Calm s s') :
    Closed pid s' := by
  have hun : unreaped s'.history = (unreaped s.history).erase c := by rw [hr.history]; rfl
  have hst : Stays s s' := .of_calm hcalm fun z hz => mem_of_mem_erase (hun ▸ hz)
  refine ⟨(h.absent hinv hpids).of_stays hst, ?_⟩
  intro z hz heq
  rw [hst.pid] at heq
  have hzc := h.eq_of_pid hpids (hst.mem (mem_threads.mpr (.inr hz))) heq
  have hnd := (nodup_append.mp hinv.shape.nodup).2.1
  rw [hun] at hz
  exact absurd hzc (hnd.mem_erase_iff.mp hz).1

/-- **One call** while a child waits: it goes on waiting, or its parent exits, or its parent is
told. -/
theorem Pending.step (hs : schedStep s e s') :
    (((waitpidAnswer s e).toList.filter fun a => decide (a.pid = pid)) = [] ∧
      (Pending c p pid parentPid status s' ∨ Closed pid s' ∧ Absent parentPid s')) ∨
    ∃ f, (f ≤ 0 ∨ f = pid) ∧ waitpidAnswer s e = some ⟨p, f, pid, status⟩ ∧ Closed pid s' := by
  obtain ⟨h', heff⟩ := hinv.effect hs
  cases heff with
  | creates he hg =>
    refine .inl ⟨?_, .inl (h.of_grown h' hg)⟩
    cases e with
    | spawn _ | spawnProcess _ _ | fork _ | execInit _ _ => rfl
    | _ => cases he
  | yields h1 hcalm hswept h2 hg hr hsw =>
    exact .inl ⟨rfl, .inl (((h.of_swept hinv hpids hcalm hswept).of_grown h2 hg).of_switch hsw)⟩
  | suspends hsw => exact .inl ⟨rfl, .inl (h.of_switch hsw)⟩
  | returns => exact .inl ⟨rfl, .inl h⟩
  | sleeps h1 hsw =>
    refine .inl ⟨rfl, .inl (.of_switch ?_ hsw)⟩
    exact h.of_set ⟨rfl, rfl, rfl⟩
  | wakesNone => exact .inl ⟨rfl, .inl h⟩
  | wakes => exact .inl ⟨rfl, .inl (h.of_set (Thread.wake_known _))⟩
  | @ticks now =>
    have hst := known_of_ticks s now
    exact .inl ⟨rfl, .inl (h.of_heap hst)⟩
  | @exits st woken _ hc hl =>
    refine .inl ⟨rfl, ?_⟩
    by_cases hp : s.current = p
    · exact .inr (h.parent_exits hinv hpids hp hc hl)
    · have hcc : c ≠ s.current := fun e => hinv.shape.notMem_dead (e ▸ hinv.current) h.zombie
      refine .inl (h.of_known (hl.known c hcc) (hl.known p (Ne.symm hp)) ?_ ?_ ?_)
      · rw [hl.history]
        exact mem_cons_of_mem _ h.zombie
      · rw [hl.initThread]
        exact h.notInit
      · rw [hl.history]
        rcases mem_cons.mp h.parent with hpm | hpm
        · exact hpm ▸ mem_cons_self
        · exact mem_cons_of_mem _ ((mem_erase_of_ne (Ne.symm hp)).mpr hpm)
  | @reaps f z _ hz hr hcalm =>
    obtain ⟨hzd, hparent, hfilter⟩ := childZombie_spec hz
    rw [hinv.waitpidAnswer_eq, hz]
    by_cases hzc : z = c
    · subst hzc
      have hcur : s.current = p := h.eq_of_parentPid hpids
        (mem_threads.mpr (.inl hinv.current)) (hparent.symm.trans h.childParent)
      refine .inr ⟨f, ?_, ?_, h.reaped hinv hpids hr hcalm⟩
      · exact hfilter.imp_right fun heq => heq.symm.trans h.childPid
      · rw [map_some, hcur, h.childPid, h.childStatus]
    · have hne : (s.heap z).pid ≠ pid := fun heq =>
        hzc (h.eq_of_pid hpids (mem_threads.mpr (.inr hzd)) heq)
      refine .inl ⟨by simp [hne], .inl ?_⟩
      refine h.of_known (hcalm.kin c).toKnown (hcalm.kin p).toKnown ?_ ?_ ?_
      · rw [hr.history]
        exact (mem_erase_of_ne (Ne.symm hzc)).mpr h.zombie
      · rw [hr.initThread]
        exact h.notInit
      · rw [hcalm.alive]
        exact h.parent
  | waits hz hsw =>
    rw [hinv.waitpidAnswer_eq, hz]
    exact .inl ⟨rfl, .inl (h.of_switch hsw)⟩
  | childless hz =>
    rw [hinv.waitpidAnswer_eq, hz]
    exact .inl ⟨rfl, .inl h⟩

/-- **A run** while a child waits. -/
theorem Pending.run (hrun : RunIn PidsLeft schedStep s es s') :
    (answersFor pid s es = [] ∧ (Inv s' ∧ Pids s' ∧ Pending c p pid parentPid status s' ∨
        Absent parentPid s')) ∨
      ∃ f, (f ≤ 0 ∨ f = pid) ∧ answersFor pid s es = [⟨p, f, pid, status⟩] := by
  induction hrun with
  | nil => exact .inl ⟨rfl, .inl ⟨hinv, hpids, h⟩⟩
  | @cons s s1 s2 e es hst hrest ih =>
    obtain ⟨hleft, hs⟩ := hst
    have h1 := (hinv.effect hs).1
    rw [answersFor_cons hs]
    rcases h.step hinv hpids hs with ⟨hnone, hpend | ⟨hclosed, habs⟩⟩ | ⟨f, hf, hans, hclosed⟩
    · rw [hnone, nil_append]
      exact ih hpend h1 (hpids.step hinv hs hleft)
    · rw [hnone, nil_append, hclosed.answersFor_eq h1 hrest]
      refine .inl ⟨rfl, .inr ?_⟩
      have hkeep : ∀ s e s', Inv s ∧ Absent parentPid s → PidsLeft s e → schedStep s e s' →
          Inv s' ∧ Absent parentPid s' :=
        fun s e s' hI hl hs => ⟨(hI.1.effect hs).1, hI.2.step hI.1 hs hl⟩
      exact (RunIn.invariant _ hkeep hrest ⟨h1, habs⟩).2
    · rw [hans, hclosed.answersFor_eq h1 hrest]
      exact .inr ⟨f, hf, by simp⟩

/-! ### Exactly once -/

/-- What has become of a child with this pid and exit status in the state `s`, when `l` are the
answers since its exit that name its pid.  There is none, and as long as its parent, the thread with
the pid `parentPid`, has not exited the child is a zombie for which the parent can wait; or there is
exactly one, to a call of the parent with a filter that matches. -/
def WaitedOnce (c p : ThreadPtr) (pid parentPid status : Int32) (l : List Answer) (s : State) :
    Prop :=
  (l = [] ∧
    ((∃ q ∈ .main :: alive s.history, (s.heap q).pid = parentPid) →
      c ∈ unreaped s.history ∧ (s.heap c).pid = pid ∧ (s.heap c).exitStatus = status ∧
      (s.current = p → waitpidAnswer s (.waitpid pid) = some ⟨p, pid, pid, status⟩))) ∨
  ∃ f, (f ≤ 0 ∨ f = pid) ∧ l = [⟨p, f, pid, status⟩]

/-- The parent that asks for the child gets it. -/
theorem Pending.answered (hp : s.current = p) :
    waitpidAnswer s (.waitpid pid) = some ⟨p, pid, pid, status⟩ := by
  have hpos : 0 < pid := h.childPid ▸ hpids.pos c h.mem
  rw [hinv.waitpidAnswer_eq]
  cases hz : childZombie s pid with
  | none =>
    have hc := find?_eq_none.mp hz c h.zombie
    refine absurd ?_ hc
    simp only [Bool.and_eq_true, Bool.or_eq_true, decide_eq_true_eq]
    exact ⟨by rw [hp, h.childParent, h.parentsPid], .inr h.childPid⟩
  | some z =>
    obtain ⟨hzd, -, hfilter⟩ := childZombie_spec hz
    have heq : (s.heap z).pid = pid := hfilter.resolve_left (Int32.not_le.mpr hpos)
    rw [h.eq_of_pid hpids (mem_threads.mpr (.inr hzd)) heq, map_some, hp, h.childPid, h.childStatus]

end Pending

/-- The state right after a child other than init has exited while its parent is alive. -/
theorem Inv.pending_of_exit (h : Inv s) (hinit : s.initThread ≠ some s.current) {p : ThreadPtr}
    (hp : p ∈ .main :: alive s.history) (hne : p ≠ s.current)
    (hparent : (s.heap p).pid = (s.heap s.current).parentPid) {status : Int32}
    (hexit : schedStep s (.exit status woken) s') :
    Pending s.current p (s.heap s.current).pid (s.heap s.current).parentPid status s' := by
  obtain ⟨-, heff⟩ := h.effect hexit
  cases heff with
  | creates he _ => cases he
  | exits hc hl =>
    refine ⟨?_, hl.self.pid, hl.self.parentPid, hl.self.exitStatus, ?_, ?_, ?_⟩
    · rw [hl.history]
      exact mem_cons_self
    · rw [hl.initThread]
      exact hinit
    · rw [hl.history]
      rcases mem_cons.mp hp with hpm | hpm
      · exact hpm ▸ mem_cons_self
      · exact mem_cons_of_mem _ ((mem_erase_of_ne hne).mpr hpm)
    · rw [(hl.known p hne).pid]
      exact hparent

/-- **A child is waited for once.**  While no thread is created after `next_pid` has wrapped around,
whole calls return a child that has exited at most once, and keep it until then. -/
theorem Inv.waitedOnce (hinv : Inv s) (hpids : Pids s) (hinit : s.initThread ≠ some s.current)
    {p : ThreadPtr} (hp : p ∈ .main :: alive s.history) (hne : p ≠ s.current)
    (hparent : (s.heap p).pid = (s.heap s.current).parentPid) {status : Int32}
    {woken : List ThreadPtr} {s₁ s₂ : State} (hexit : schedStep s (.exit status woken) s₁)
    (hrest : RunIn PidsLeft schedStep s₁ es s₂) :
    WaitedOnce s.current p (s.heap s.current).pid (s.heap s.current).parentPid status
      (answersFor (s.heap s.current).pid s₁ es) s₂ := by
  have hpend := hinv.pending_of_exit hinit hp hne hparent hexit
  have hpids1 : Pids s₁ := hpids.step hinv hexit (nofun)
  rcases hpend.run (hinv.effect hexit).1 hpids1 hrest with ⟨hnone, hcase⟩ | hone
  · refine .inl ⟨hnone, ?_⟩
    rintro ⟨q, hq, hqpid⟩
    rcases hcase with ⟨hinv2, hpids2, h⟩ | habs
    · exact ⟨h.zombie, h.childPid, h.childStatus, h.answered hinv2 hpids2⟩
    · exact absurd hqpid (habs.live q hq)
  · exact .inr hone

end AxiomeOS.Sched
