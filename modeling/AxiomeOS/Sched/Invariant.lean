import AxiomeOS.Sched.Shape

/-!
# Reaping and creating threads

`Inv` is what holds between two calls of the scheduler.  This module shows that reaping a zombie
(`Inv.reap`), the sweep over the zombies (`Inv.reapZombies`), the creation of a thread
(`Inv.added`) and the respawning of init (`Inv.schedCheckInit`) succeed and keep it.

The sweep and the check for init both reap zombies, and init must not be reaped by both.  Every
init is started by the boot thread, so its parent is alive and the sweep leaves it to the check;
and from its exit to the check only the boot thread runs, so nobody waits for it.
-/

namespace AxiomeOS.Sched

open Chains List Option State

variable {t z : ThreadPtr} {l l' : List ThreadPtr}

variable {s s' : State} {al dead : List ThreadPtr}

/-! ### Threads that are left alone -/

/-- Two threads with the same pid, parent and exit status. -/
structure Known (x y : Thread) : Prop where
  pid : y.pid = x.pid
  parentPid : y.parentPid = x.parentPid
  exitStatus : y.exitStatus = x.exitStatus

/-- Two threads that differ in their links, their memory and their quantum only. -/
structure Kin (x y : Thread) : Prop extends Known x y where
  state : y.state = x.state
  sleepDeadlineNs : y.sleepDeadlineNs = x.sleepDeadlineNs

theorem Known.refl (x : Thread) : Known x x := ⟨rfl, rfl, rfl⟩

variable {x y : Thread} {s₁ s₂ : State} {a k : ℕ} {p : ThreadPtr} {parentPid : Int32}
  {r : Option ThreadPtr} {mmu : MmuRoot}

theorem Known.trans {z : Thread} (h : Known x y) (h' : Known y z) : Known x z :=
  ⟨h'.pid.trans h.pid, h'.parentPid.trans h.parentPid, h'.exitStatus.trans h.exitStatus⟩

theorem Kin.refl (x : Thread) : Kin x x := ⟨Known.refl x, rfl, rfl⟩

theorem Kin.trans {z : Thread} (h : Kin x y) (h' : Kin y z) : Kin x z :=
  ⟨h.toKnown.trans h'.toKnown, h'.state.trans h.state, h'.sleepDeadlineNs.trans h.sleepDeadlineNs⟩

/-- The memory and the lists have changed, and nothing else. -/
structure Calm (s s' : State) : Prop where
  kin : ∀ t, Kin (s.heap t) (s'.heap t)
  current : s'.current = s.current
  nextPid : s'.nextPid = s.nextPid
  alive : alive s'.history = alive s.history

theorem Calm.refl (s : State) : Calm s s := ⟨fun _ => Kin.refl _, rfl, rfl, rfl⟩

theorem Calm.trans {s₃ : State} (h : Calm s₁ s₂) (h' : Calm s₂ s₃) : Calm s₁ s₃ :=
  ⟨fun t => (h.kin t).trans (h'.kin t), h'.current.trans h.current, h'.nextPid.trans h.nextPid,
    h'.alive.trans h.alive⟩

/-! ### Freeing a thread -/

/-- The structure `z`, its kernel stack and its address space are given back, and nothing else. -/
structure Released (s : State) (z : ThreadPtr) (s' : State) : Prop where
  live : ∀ a, .heap a ≠ z → a ∈ s.live → a ∈ s'.live
  kstacks : ∀ k, (s.heap z).stackBase ≠ some k → k ∈ s.kstacks → k ∈ s'.kstacks
  roots : ∀ r, (s.heap z).mmu ≠ some (.user r) → r ∈ s.roots → r ∈ s'.roots
  readyHead : s'.readyHead = s.readyHead
  current : s'.current = s.current
  initThread : s'.initThread = s.initThread
  initDead : s'.initDead = s.initDead
  history : s'.history = .freed z :: s.history

/-- What is left when a thread is freed. -/
structure Freed (s : State) (z : ThreadPtr) (s' : State) : Prop extends Released s z s' where
  other : ∀ t, t ≠ z → s'.heap t = s.heap t
  zombieHead : s'.zombieHead = s.zombieHead

theorem State.vmmFreeRoot_spec (s : State) {m : Option MmuRoot}
    (h : ∀ r, m = some (.user r) → r ∈ s.roots) :
    ∃ R, s.vmmFreeRoot m = some { s with roots := R } ∧
      ∀ r, m ≠ some (.user r) → r ∈ s.roots → r ∈ R := by
  cases m with
  | none => exact ⟨s.roots, rfl, fun _ _ hr => hr⟩
  | some m =>
    cases m with
    | kernel => exact ⟨s.roots, rfl, fun _ _ hr => hr⟩
    | user r0 =>
      refine ⟨s.roots.erase r0, if_pos (h r0 rfl), ?_⟩
      intro r hne hr
      refine Finset.mem_erase.mpr ⟨?_, hr⟩
      rintro rfl
      exact hne rfl

/-- **Freeing a thread** that has a structure, a kernel stack and an address space of its own. -/
theorem freeThread_spec (ha : a ∈ s.live) (hk : k ∈ s.kstacks)
    (hstack : (s.heap (.heap a)).stackBase = some k)
    (hroot : ∀ r, (s.heap (.heap a)).mmu = some (.user r) → r ∈ s.roots) :
    ∃ s', freeThread s (.heap a) = some s' ∧ Freed s (.heap a) s' ∧ Calm s s' := by
  have hv : s.valid (.heap a) = true := decide_eq_true ha
  -- The state after the kernel stack is gone.
  obtain ⟨s₁, hs1⟩ : ∃ s₁, s₁ = State.set { s with kstacks := s.kstacks.erase k } (.heap a)
      { s.heap (.heap a) with stackBase := none } := ⟨_, rfl⟩
  have hv1 : s₁.valid (.heap a) = true := by
    rw [hs1, valid_set]
    exact hv
  have hmmu : (s₁.heap (.heap a)).mmu = (s.heap (.heap a)).mmu := by
    rw [hs1, set_heap_self]
  have hroots : s₁.roots = s.roots := by rw [hs1]; rfl
  obtain ⟨R, hR, hkeep⟩ := s₁.vmmFreeRoot_spec (m := (s₁.heap (.heap a)).mmu)
    (by rw [hmmu, hroots]; exact hroot)
  have hlive : a ∈ s₁.live := by rw [hs1]; exact ha
  have hfree : freeThread s (.heap a) = some
      { State.set { s₁ with roots := R } (.heap a) { s₁.heap (.heap a) with mmu := none } with
        live := s₁.live.erase a
        history := .freed (.heap a) :: s₁.history } := by
    rw [freeThread, thread_eq hv]
    simp only [bind_eq_bind, bind_some, hstack]
    rw [pmmFreeFrames, if_pos hk]
    simp only [bind_some]
    rw [modify_eq (by exact hv)]
    simp only [bind_some, ← hs1]
    rw [thread_eq hv1]
    simp only [bind_some]
    rw [hR]
    simp only [bind_some]
    rw [modify_eq (by exact hv1)]
    simp only [bind_some]
    rw [kfree, if_pos (by exact hlive)]
    rfl
  have hother : ∀ t, t ≠ .heap a → (State.set { s₁ with roots := R } (.heap a)
      { s₁.heap (.heap a) with mmu := none }).heap t = s.heap t := by
    intro t ht
    rw [set_heap_of_ne _ _ ht]
    rw [hs1, set_heap_of_ne _ _ ht]
  subst hs1
  refine ⟨_, hfree, ⟨⟨?_, ?_, ?_, rfl, rfl, rfl, rfl, rfl⟩, hother, rfl⟩, ⟨?_, rfl, rfl, rfl⟩⟩
  · intro b hb hmem
    exact Finset.mem_erase.mpr ⟨fun e => hb (e ▸ rfl), hmem⟩
  · intro j hj hmem
    exact Finset.mem_erase.mpr ⟨fun e => hj (e ▸ hstack), hmem⟩
  · intro r hr hmem
    exact hkeep r (by rw [hmmu]; exact hr) hmem
  · intro t
    by_cases ht : t = .heap a
    · rw [ht]
      rw [set_heap_self, set_heap_self]
      exact ⟨⟨rfl, rfl, rfl⟩, rfl, rfl⟩
    · rw [show State.heap _ t = s.heap t from hother t ht]
      exact Kin.refl _

/-! ### Reaping -/

/-- What is left when a zombie is freed and taken out of the zombie list. -/
structure Reaped (s : State) (dead : List ThreadPtr) (z : ThreadPtr) (s' : State) : Prop
    extends Released s z s' where
  other : ∀ t, t ≠ z → s'.heap t = { s.heap t with next := s'.next t }
  ring : ∀ t, t ∉ dead → s'.heap t = s.heap t
  zombies : Chain s'.next s'.zombieHead (dead.erase z)

/-- **Reaping keeps the lists.** -/
theorem Shape.reap (h : Shape s al dead) (hz : z ∈ dead)
    (hr : Reaped s dead z s') : Shape s' al (dead.erase z) := by
  have hlist : al ++ dead.erase z <+ al ++ dead := (erase_sublist ..).append_left al
  have hsub := hlist.subset
  have hne : ∀ t ∈ .main :: (al ++ dead.erase z), t ≠ z := by
    rintro t ht rfl
    rw [← cons_append] at ht
    rcases mem_append.mp ht with ht | ht
    · exact h.notMem_dead ht hz
    · exact ((nodup_append.mp h.nodup).2.1.mem_erase_iff.mp ht).1 rfl
  have hne' := fun t ht => hne t (mem_cons_of_mem _ ht)
  have hzmem : z ∈ al ++ dead := mem_append_right _ hz
  have hring : ∀ t ∈ .main :: al, s'.heap t = s.heap t := fun t ht => hr.ring t (h.notMem_dead ht)
  refine h.frame (h.ring.frame (fun t ht => congrArg Thread.next (hring t ht))
    fun t ht => congrArg Thread.prev (hring t ht)) hr.readyHead hr.zombies
    (h.nodup.sublist hlist) hsub
    (fun t ht => ?_) (fun a ha hm => hr.live a (hne' _ hm) ha) (fun k hk t ht hkt => ?_)
    fun r hroot t ht hrt => ?_
  · rw [hr.other t (hne t ht)]
    exact ⟨rfl, rfl, rfl⟩
  · exact hr.kstacks k (fun hzk => hne' t ht
      (h.stackInj t (hsub ht) z hzmem (hkt.trans hzk.symm))) hk
  · exact hr.roots r (fun hzr => hne' t ht (h.rootInj t (hsub ht) z hzmem r hrt hzr)) hroot

/-- A zombie can be freed, also when its list has been changed. -/
theorem Shape.freeThread (h : Shape s al dead) (hz : z ∈ dead)
    (hl : s'.live = s.live) (hk : s'.kstacks = s.kstacks) (hr : s'.roots = s.roots)
    (hsame : s'.heap z = s.heap z) :
    ∃ s'', freeThread s' z = some s'' ∧ Freed s' z s'' ∧ Calm s' s'' := by
  have hz' : z ∈ al ++ dead := mem_append_right _ hz
  obtain ⟨a, ha, rfl⟩ := h.heap z hz'
  obtain ⟨k, hkm, hstack⟩ := h.stack _ hz'
  refine freeThread_spec (k := k) ?_ ?_ ?_ ?_
  · rw [hl]
    exact ha
  · rw [hk]
    exact hkm
  · rw [hsame]
    exact hstack
  · rw [hsame, hr]
    exact h.root _ hz'

/-- What changes when the pointer to the zombie behind `prev` is set to `n`. -/
structure Relinked (s : State) (n prev : Option ThreadPtr) (s' : State) : Prop where
  heap : ∀ t, s'.heap t = { s.heap t with next := s'.next t }
  other : ∀ t, prev ≠ some t → s'.heap t = s.heap t
  link : ∀ p, prev = some p → s'.next p = n
  zombieHead : s'.zombieHead = if prev = none then n else s.zombieHead
  live : s'.live = s.live
  kstacks : s'.kstacks = s.kstacks
  roots : s'.roots = s.roots
  readyHead : s'.readyHead = s.readyHead
  current : s'.current = s.current
  initThread : s'.initThread = s.initThread
  initDead : s'.initDead = s.initDead
  history : s'.history = s.history

theorem setZombieLink_spec (n : Option ThreadPtr) {prev : Option ThreadPtr}
    (hv : ∀ p, prev = some p → s.valid p = true) :
    ∃ s', setZombieLink s n prev = some s' ∧ Relinked s n prev s' ∧ Calm s s' := by
  cases prev with
  | none =>
    exact ⟨_, rfl, ⟨fun _ => rfl, fun _ _ => rfl, by simp, rfl, rfl, rfl, rfl, rfl, rfl, rfl, rfl,
      rfl⟩, ⟨fun _ => Kin.refl _, rfl, rfl, rfl⟩⟩
  | some p =>
    have hne : ∀ t, some p ≠ some t → (s.set p { s.heap p with next := n }).heap t = s.heap t :=
      fun t ht => set_heap_of_ne _ _ fun e => ht (e ▸ rfl)
    have hheap : ∀ t, (s.set p { s.heap p with next := n }).heap t =
        { s.heap t with next := (s.set p { s.heap p with next := n }).next t } := by
      intro t
      by_cases ht : t = p
      · rw [ht, State.next, set_heap_self]
      · rw [State.next, set_heap_of_ne _ _ ht]
    refine ⟨_, modify_eq (hv p rfl) fun y => { y with next := n }, ⟨hheap, hne, ?_, rfl, rfl,
      rfl, rfl, rfl, rfl, rfl, rfl, rfl⟩, ⟨fun t => ?_, rfl, rfl, rfl⟩⟩
    · intro q hq
      rw [← some.inj hq, State.next, set_heap_self]
    · rw [hheap t]
      exact ⟨⟨rfl, rfl, rfl⟩, rfl, rfl⟩

theorem Shape.notMem_left (h : Shape s al dead) (hdead : dead = l ++ z :: l') : z ∉ l := by
  intro hm
  have hnd := (nodup_append.mp h.nodup).2.1
  rw [hdead] at hnd
  exact (nodup_append.mp hnd).2.2 z hm z (by simp) rfl

/-- The zombie list without one of its threads. -/
theorem Shape.unlinked (h : Shape s al dead)
    {q : Option ThreadPtr} {next' : ThreadPtr → Option ThreadPtr} (hdead : dead = l ++ z :: l')
    (hq : q = if l.getLast? = none then s.next z else s.zombieHead)
    (hp : ∀ p, l.getLast? = some p → next' p = s.next z)
    (hn : ∀ b, l.getLast? ≠ some b → b ≠ z → next' b = s.next b) :
    Chain next' q (dead.erase z) := by
  have hzs := h.zombies
  rw [hdead] at hzs
  rw [hdead, erase_append_right _ (h.notMem_left hdead), erase_cons_head]
  exact hzs.remove hq hp hn

theorem Shape.getLast_ne (h : Shape s al dead)
    (hdead : dead = l ++ z :: l') : l.getLast? ≠ some z :=
  fun e => h.notMem_left hdead (mem_of_getLast? e)

theorem getLast_mem_of_eq (hdead : dead = l ++ z :: l') (hp : l.getLast? = some p) : p ∈ dead := by
  rw [hdead]
  exact mem_append_left _ (mem_of_getLast? hp)

/-- **A zombie freed and then unlinked.** -/
theorem Shape.reaped_of_freed (h : Shape s al dead)
    (hdead : dead = l ++ z :: l') (hf : Freed s z s₁) (hr : Relinked s₁ (s.next z) l.getLast? s₂) :
    Reaped s dead z s₂ := by
  have hz : z ∈ dead := by simp [hdead]
  refine ⟨⟨?_, ?_, ?_, hr.readyHead.trans hf.readyHead, hr.current.trans hf.current,
    hr.initThread.trans hf.initThread, hr.initDead.trans hf.initDead,
    hr.history.trans hf.history⟩, ?_, ?_, ?_⟩
  · intro a ha hm
    rw [hr.live]
    exact hf.live a ha hm
  · intro k hk hm
    rw [hr.kstacks]
    exact hf.kstacks k hk hm
  · intro r hne hm
    rw [hr.roots]
    exact hf.roots r hne hm
  · intro t ht
    rw [hr.heap t, hf.other t ht]
  · intro t ht
    have htz : t ≠ z := fun e => ht (e ▸ hz)
    rw [hr.other t fun e => ht (getLast_mem_of_eq hdead e), hf.other t htz]
  · refine h.unlinked hdead ?_ hr.link ?_
    · rw [hr.zombieHead, hf.zombieHead]
    · intro b hb hbz
      rw [State.next, hr.other b hb, hf.other b hbz, State.next]

/-- **A zombie unlinked and then freed.** -/
theorem Shape.reaped_of_relinked (h : Shape s al dead)
    (hdead : dead = l ++ z :: l') (hr : Relinked s (s.next z) l.getLast? s₁) (hf : Freed s₁ z s₂) :
    Reaped s dead z s₂ := by
  have hz : z ∈ dead := by simp [hdead]
  have hlz := h.getLast_ne hdead
  have hheapz : s₁.heap z = s.heap z := hr.other z hlz
  refine ⟨⟨?_, ?_, ?_, hf.readyHead.trans hr.readyHead, hf.current.trans hr.current,
    hf.initThread.trans hr.initThread, hf.initDead.trans hr.initDead,
    by rw [hf.history, hr.history]⟩, ?_, ?_, ?_⟩
  · intro a ha hm
    exact hf.live a ha (by rw [hr.live]; exact hm)
  · intro k hk hm
    exact hf.kstacks k (by rw [hheapz]; exact hk) (by rw [hr.kstacks]; exact hm)
  · intro r hne hm
    exact hf.roots r (by rw [hheapz]; exact hne) (by rw [hr.roots]; exact hm)
  · intro t ht
    rw [State.next, hf.other t ht]
    exact hr.heap t
  · intro t ht
    have htz : t ≠ z := fun e => ht (e ▸ hz)
    rw [hf.other t htz, hr.other t fun e => ht (getLast_mem_of_eq hdead e)]
  · refine h.unlinked hdead ?_ ?_ ?_
    · rw [hf.zombieHead, hr.zombieHead]
    · intro p hp
      have hpz : p ≠ z := fun e => hlz (e ▸ hp)
      rw [State.next, hf.other p hpz]
      exact hr.link p hp
    · intro b hb hbz
      rw [State.next, hf.other b hbz, hr.other b hb, State.next]

/-- **The search of `sched_reap_zombie`** ends at the thread before `z`. -/
theorem unlinkZombie_spec (fuel : ℕ)
    (hl : Chain s.next (some p) (p :: l)) (hz : z ∈ l) (hv : ∀ u ∈ p :: l, s.valid u = true)
    (hfuel : l.length < fuel) : ∃ l₁ l₂, p :: l = l₁ ++ z :: l₂ ∧
      unlinkZombie s z fuel p = setZombieLink s (s.next z) l₁.getLast? := by
  induction l generalizing p fuel with
  | nil => exact absurd hz not_mem_nil
  | cons a l ih =>
    obtain _ | fuel := fuel
    · omega
    have hnext : (s.heap p).next = some a := hl.2.1
    rw [unlinkZombie, thread_eq (hv p mem_cons_self)]
    simp only [bind_eq_bind, bind_some, hnext]
    by_cases haz : a = z
    · subst haz
      refine ⟨[p], l, rfl, ?_⟩
      rw [if_pos rfl, thread_eq (hv a (by simp))]
      rfl
    · have hzl : z ∈ l := (mem_cons.mp hz).resolve_left (Ne.symm haz)
      obtain ⟨l₁, l₂, hsplit, hun⟩ := ih fuel ⟨rfl, hl.2.2⟩ hzl
        (fun u hu => hv u (mem_cons_of_mem _ hu)) (by simp at hfuel; omega)
      refine ⟨p :: l₁, l₂, by rw [hsplit]; rfl, ?_⟩
      rw [if_neg haz, hun]
      cases l₁ with
      | nil => exact absurd (cons.inj hsplit).1 haz
      | cons b l₁ => rw [getLast?_cons_cons]

/-- **`sched_reap_zombie`** reaps a zombie. -/
theorem Shape.schedReapZombie (h : Shape s al dead) (hz : z ∈ dead) :
    ∃ s', schedReapZombie s z = some s' ∧ Reaped s dead z s' ∧ Calm s s' := by
  -- The list is cut at `z`, whichever way the pointer to it is found.
  have hunlink : ∃ l l', dead = l ++ z :: l' ∧
      Sched.schedReapZombie s z =
        (setZombieLink s (s.next z) l.getLast?).bind fun s => Sched.freeThread s z := by
    cases dead with
    | nil => exact absurd hz not_mem_nil
    | cons a l =>
      have hhead : s.zombieHead = some a := h.zombies.1
      rw [Sched.schedReapZombie, hhead]
      by_cases haz : a = z
      · subst haz
        refine ⟨[], l, rfl, ?_⟩
        simp only [thread_eq (h.valid_dead hz)]
        rfl
      · have hzl : z ∈ l := (mem_cons.mp hz).resolve_left (Ne.symm haz)
        have hlen := h.dead_length_lt
        rw [length_cons] at hlen
        have hchain : Chain s.next (some a) (a :: l) := ⟨rfl, h.zombies.2⟩
        obtain ⟨l1, l2, hsplit, hun⟩ := unlinkZombie_spec s.fuel hchain hzl
          (fun u hu => h.valid_dead hu) (by omega)
        refine ⟨l1, l2, hsplit, ?_⟩
        simp only [if_neg haz, hun]
        rfl
  obtain ⟨l, l', hdead, heq⟩ := hunlink
  obtain ⟨s₁, hs1, hr, h1⟩ := setZombieLink_spec (s.next z)
    fun p hp => h.valid_dead (getLast_mem_of_eq hdead hp)
  obtain ⟨s₂, hs2, hf, h2⟩ :=
    h.freeThread hz hr.live hr.kstacks hr.roots (hr.other z (h.getLast_ne hdead))
  refine ⟨s₂, ?_, h.reaped_of_relinked hdead hr hf, h1.trans h2⟩
  rw [heq, hs1]
  exact hs2

/-! ### The invariant -/

/-- What holds between two calls.  The running thread is on the ring; the boot thread, unless it
runs, is ready; and init, whose parent is the boot thread, is on the ring or, from its exit to the
next `sched_yield` of the boot thread, a zombie. -/
structure Inv (s : State) : Prop where
  shape : Shape s (alive s.history) (unreaped s.history)
  current : s.current ∈ .main :: alive s.history
  mainState : (s.heap .main).state = if s.current = .main then .running else .ready
  init : ∀ t, s.initThread = some t → (s.heap t).parentPid = 1 ∧
    if s.initDead then s.current = .main ∧ t ∈ unreaped s.history else t ∈ alive s.history
  initDead : s.initDead = true → s.initThread ≠ none

theorem Inv.valid_current (h : Inv s) : s.valid s.current = true := h.shape.valid_ring h.current

theorem Inv.init_alive (h : Inv s) (hc : s.initDead = true → s.current ≠ .main)
    (ht : s.initThread = some t) : t ∈ alive s.history := by
  have hi := (h.init t ht).2
  split at hi
  case isTrue hd => exact absurd hi.1 (hc hd)
  case isFalse => exact hi

/-- A zombie other than init can be reaped. -/
theorem Inv.reap (h : Inv s) (hz : z ∈ unreaped s.history)
    (hinit : s.initThread ≠ some z) (hr : Reaped s (unreaped s.history) z s') : Inv s' := by
  have hal : alive s'.history = alive s.history := by rw [hr.history]; rfl
  have hun : unreaped s'.history = (unreaped s.history).erase z := by rw [hr.history]; rfl
  have hmain : s'.heap .main = s.heap .main := hr.ring _ (h.shape.notMem_dead mem_cons_self)
  constructor
  · rw [hal, hun]
    exact h.shape.reap hz hr
  · rw [hal, hr.current]
    exact h.current
  · rw [hmain, hr.current]
    exact h.mainState
  · intro t ht
    rw [hr.initThread] at ht
    have htz : t ≠ z := fun e => hinit (e ▸ ht)
    rw [hal, hun, hr.current, hr.initDead, hr.other t htz, mem_erase_of_ne htz]
    exact h.init t ht
  · rw [hr.initDead, hr.initThread]
    exact h.initDead

/-! ### The sweep -/

theorem Inv.orphan (h : Inv s) (x : Thread) :
    ∃ b, orphan s x = some b ∧ (x.parentPid = 1 → b = false) := by
  rw [Sched.orphan]
  split
  · rename_i h0
    exact ⟨true, rfl, fun h1 => absurd (h0.symm.trans h1) (by decide)⟩
  · obtain ⟨r, hr, -, hfound⟩ := h.shape.threadFindByPid h.valid_current x.parentPid
    refine ⟨r.isNone, by rw [hr]; rfl, fun h1 => ?_⟩
    cases r with
    | none => exact absurd rfl (hfound h1)
    | some u => rfl

/-- Whether a zombie has somebody who can wait for it does not depend on the other zombies. -/
theorem Inv.orphan_of_reaped (h : Inv s) (h' : Inv s') {w : ThreadPtr}
    (hz : z ∈ unreaped s.history) (hr : Reaped s (unreaped s.history) z s') (hwz : w ≠ z) :
    Sched.orphan s' (s'.heap w) = Sched.orphan s (s.heap w) := by
  have hal : alive s'.history = alive s.history := by rw [hr.history]; rfl
  have hring : ∀ t ∈ s.current :: .main :: .idle :: .main :: alive s.history,
      (s'.heap t).pid = (s.heap t).pid := by
    intro t ht
    have htz : t ≠ z := by
      rintro rfl
      simp only [mem_cons] at ht
      rcases ht with ht | ht | ht | ht
      · exact h.shape.notMem_dead (ht ▸ h.current) hz
      · exact h.shape.main_notMem (ht ▸ mem_append_right _ hz)
      · exact h.shape.idle_notMem (ht ▸ mem_append_right _ hz)
      · exact h.shape.notMem_dead (mem_cons.mpr ht) hz
    rw [hr.other t htz]
  have hfind : ∀ pid, threadFindByPid s' pid = threadFindByPid s pid := by
    intro pid
    rw [h.shape.threadFindByPid_eq h.valid_current, h'.shape.threadFindByPid_eq h'.valid_current,
      hr.current, hal]
    rw [find?_congr fun t ht => by rw [hring t ht]]
  rw [Sched.orphan, Sched.orphan, hfind, hr.other w hwz]

/-- What the sweep leaves: of the zombies, those that somebody can wait for. -/
structure Swept (s s' : State) : Prop where
  current : s'.current = s.current
  initThread : s'.initThread = s.initThread
  initDead : s'.initDead = s.initDead
  zombies : ∀ z, z ∈ unreaped s'.history ↔
    z ∈ unreaped s.history ∧ Sched.orphan s (s.heap z) = some false

/-- **The sweep over the zombies** ends and keeps the invariant: of the zombies `kept ++ rest` it
has passed `kept`, the last of which is `prev`. -/
theorem reapLoop_spec (rest kept : List ThreadPtr) {fuel : ℕ} (h : Inv s)
    (hdead : unreaped s.history = kept ++ rest)
    (hkept : ∀ z ∈ kept, Sched.orphan s (s.heap z) = some false) (hfuel : rest.length < fuel) :
    ∃ s', reapLoop fuel kept.getLast? rest.head? s = some s' ∧ Inv s' ∧ Swept s s' ∧ Calm s s' := by
  induction rest generalizing s kept fuel with
  | nil =>
    rw [append_nil] at hdead
    refine ⟨s, ?_, h, ⟨rfl, rfl, rfl, fun z => ⟨fun hz => ⟨hz, hkept z (hdead ▸ hz)⟩, And.left⟩⟩,
      Calm.refl s⟩
    cases fuel <;> rfl
  | cons z rest ih =>
    obtain _ | fuel := fuel
    · omega
    have hlen : rest.length < fuel := by
      rw [length_cons] at hfuel
      omega
    have hz : z ∈ unreaped s.history := by simp [hdead]
    have hnext : (s.heap z).next = rest.head? := by
      have hzs := h.shape.zombies
      rw [hdead] at hzs
      obtain ⟨q, -, hq⟩ := Seg.split hzs
      exact Chain.head_eq hq.2
    obtain ⟨b, hb, hkeep⟩ := h.orphan (s.heap z)
    rw [head?_cons, reapLoop, thread_eq (h.shape.valid_dead hz)]
    simp only [bind_eq_bind, bind_some, hb]
    cases b with
    | false =>
      have hkept' : ∀ w ∈ kept ++ [z], Sched.orphan s (s.heap w) = some false := by
        intro w hw
        rcases mem_append.mp hw with hw | hw
        · exact hkept w hw
        · rw [mem_singleton.mp hw]
          exact hb
      obtain ⟨s', hs', hrest⟩ := ih (kept ++ [z]) h (by rw [hdead]; simp) hkept' hlen
      refine ⟨s', ?_, hrest⟩
      rw [hnext]
      rw [getLast?_append, getLast?_singleton, some_or] at hs'
      exact hs'
    | true =>
      -- Init is no orphan: if it waits to be respawned its parent is the boot thread.
      have hinit : s.initThread ≠ some z := by
        intro ht
        obtain ⟨hp, -⟩ := h.init z ht
        exact absurd (hkeep hp) (by decide)
      obtain ⟨s₁, hs1, hf, hc1⟩ := h.shape.freeThread hz rfl rfl rfl rfl
      have hprev : ∀ p, kept.getLast? = some p → s₁.valid p = true := by
        intro p hp
        have hpd := getLast_mem_of_eq hdead hp
        have hpz : p ≠ z := fun e => h.shape.getLast_ne hdead (e ▸ hp)
        obtain ⟨a, ha, rfl⟩ := h.shape.heap p (mem_append_right _ hpd)
        exact decide_eq_true (hf.live a hpz ha)
      obtain ⟨s₂, hs2, hr, hc2⟩ := setZombieLink_spec (s.next z) hprev
      have hreaped := h.shape.reaped_of_freed hdead hf hr
      have hun : unreaped s₂.history = kept ++ rest := by
        rw [hreaped.history, unreaped, hdead,
          erase_append_right _ (h.shape.notMem_left hdead), erase_cons_head]
      have h2 := h.reap hz hinit hreaped
      have hmem : ∀ w, w ∈ unreaped s₂.history ↔ w ≠ z ∧ w ∈ unreaped s.history := by
        intro w
        rw [hreaped.history, unreaped]
        exact (nodup_append.mp h.shape.nodup).2.1.mem_erase_iff
      have horphan : ∀ w, w ≠ z → Sched.orphan s₂ (s₂.heap w) = Sched.orphan s (s.heap w) :=
        fun w hw => h.orphan_of_reaped h2 hz hreaped hw
      have hkept' : ∀ w ∈ kept, Sched.orphan s₂ (s₂.heap w) = some false := by
        intro w hw
        have hwd : w ∈ unreaped s₂.history := by
          rw [hun]
          exact mem_append_left _ hw
        rw [horphan w ((hmem w).mp hwd).1]
        exact hkept w hw
      obtain ⟨s', hs', hinv, hsw, hc⟩ := ih kept h2 hun hkept' hlen
      refine ⟨s', ?_, hinv, ⟨hsw.current.trans hreaped.current,
        hsw.initThread.trans hreaped.initThread, hsw.initDead.trans hreaped.initDead, ?_⟩,
        (hc1.trans hc2).trans hc⟩
      · rw [if_pos rfl, hs1]
        simp only [bind_some]
        rw [show (s.heap z).next = s.next z from rfl, hs2]
        rw [show s.next z = rest.head? from hnext]
        exact hs'
      · intro w
        rw [hsw.zombies w, hmem w]
        constructor
        · rintro ⟨⟨hwz, hw⟩, how⟩
          exact ⟨hw, horphan w hwz ▸ how⟩
        · rintro ⟨hw, how⟩
          have hwz : w ≠ z := by
            rintro rfl
            exact absurd (some.inj (how.symm.trans hb)) (by decide)
          exact ⟨⟨hwz, hw⟩, (horphan w hwz).trans how⟩

theorem Inv.reapZombies (h : Inv s) :
    ∃ s', reapZombies s = some s' ∧ Inv s' ∧ Swept s s' ∧ Calm s s' := by
  obtain ⟨s', hs', hrest⟩ := reapLoop_spec _ [] h rfl (by simp) h.shape.dead_length_lt
  refine ⟨s', ?_, hrest⟩
  rw [Sched.reapZombies, h.shape.zombies.head_eq]
  exact hs'

/-! ### Creating a thread -/

/-- What `linkReady` changes: the new thread `t` stands between `p`, the last one, and the boot
thread. -/
structure Linked (s : State) (t p : ThreadPtr) (s' : State) : Prop where
  heap : ∀ u, s'.heap u = { s.heap u with next := s'.next u, prev := s'.prev u }
  nextNew : s'.next t = some .main
  prevNew : s'.prev t = some p
  nextLast : s'.next p = some t
  prevMain : s'.prev .main = some t
  next : ∀ u, u ≠ t → u ≠ p → s'.next u = s.next u
  prev : ∀ u, u ≠ t → u ≠ .main → s'.prev u = s.prev u
  rest : s' = { s with heap := s'.heap }

theorem State.set_links_heap (s : State) (t u : ThreadPtr) (n p : Option ThreadPtr) :
    (s.set t { s.heap t with next := n, prev := p }).heap u =
      { s.heap u with
        next := if u = t then n else s.next u
        prev := if u = t then p else s.prev u } := by
  by_cases hu : u = t
  · rw [hu, set_heap_self, if_pos rfl, if_pos rfl]
  · rw [set_heap_of_ne _ _ hu, if_neg hu, if_neg hu]
    rfl

theorem linkReady_spec (hhead : s.readyHead = some .main)
    (hp : s.prev .main = some p) (ht : s.valid t = true) (hpv : s.valid p = true)
    (htm : t ≠ .main) (htp : t ≠ p) : ∃ s', linkReady s t = some s' ∧ Linked s t p s' := by
  obtain ⟨s₁, hs1⟩ : ∃ s₁, s₁ = s.set t { s.heap t with next := some .main, prev := some p } :=
    ⟨_, rfl⟩
  obtain ⟨s₂, hs2⟩ : ∃ s₂, s₂ = s₁.set p { s₁.heap p with next := some t } := ⟨_, rfl⟩
  obtain ⟨s3, hs3⟩ : ∃ s3, s3 = s₂.set .main { s₂.heap .main with prev := some t } := ⟨_, rfl⟩
  have hlink : linkReady s t = some s3 := by
    have hp' : (s.heap .main).prev = some p := hp
    rw [linkReady, hhead]
    simp only [thread_eq (s := s) (t := .main) rfl, bind_eq_bind, bind_some, hp']
    rw [modify_eq ht]
    simp only [bind_some, ← hs1]
    rw [modify_eq (by rw [hs1, valid_set]; exact hpv)]
    simp only [bind_some, ← hs2]
    rw [modify_eq rfl, ← hs3]
  have h1 := fun u => hs1 ▸ s.set_links_heap t u (some .main) (some p)
  have h2 := fun u => hs2 ▸ s₁.set_links_heap p u (some t) (s₁.prev p)
  have h3 := fun u => hs3 ▸ s₂.set_links_heap .main u (s₂.next .main) (some t)
  have hheap : ∀ u, s3.heap u =
      { s.heap u with
        next := if u = p then some t else if u = t then some .main else s.next u
        prev := if u = .main then some t else if u = t then some p else s.prev u } := by
    intro u
    simp only [h3, State.next, State.prev, h2, h1]
    rcases eq_or_ne u .main with rfl | hum
    · rcases eq_or_ne .main p with rfl | hup <;> simp [*]
    · rcases eq_or_ne u p with rfl | hup <;> simp [*]
  have hnext : ∀ u, s3.next u = if u = p then some t else if u = t then some .main else s.next u :=
    fun u => congrArg Thread.next (hheap u)
  have hprev : ∀ u, s3.prev u = if u = .main then some t else if u = t then some p else s.prev u :=
    fun u => congrArg Thread.prev (hheap u)
  refine ⟨s3, hlink, fun u => ?_, ?_, ?_, ?_, ?_, fun u hut hup => ?_, fun u hut hum => ?_, ?_⟩
  · rw [State.next, State.prev, hheap]
  · rw [hnext, if_neg htp, if_pos rfl]
  · rw [hprev, if_neg htm, if_pos rfl]
  · rw [hnext, if_pos rfl]
  · rw [hprev, if_pos rfl]
  · rw [hnext, if_neg hup, if_neg hut]
  · rw [hprev, if_neg hum, if_neg hut]
  · rw [hs3, hs2, hs1]
    rfl

/-- What a spawn adds to a state. -/
structure Added (s : State) (t : ThreadPtr) (parentPid : Int32) (s' : State) : Prop where
  other : ∀ u, u ≠ t → s'.heap u = { s.heap u with next := s'.next u, prev := s'.prev u }
  parentPid : (s'.heap t).parentPid = parentPid
  current : s'.current = s.current
  initThread : s'.initThread = s.initThread
  initDead : s'.initDead = s.initDead
  history : s'.history = .created t :: s.history

/-- At most one thread has been created, with the next pid; the others are left alone. -/
structure Grows (s s' : State) (parentPid : Int32) (r : Option ThreadPtr) : Prop where
  kin : ∀ t, s.valid t = true → Kin (s.heap t) (s'.heap t)
  current : s'.current = s.current
  alive : alive s'.history = alive s.history ++ r.toList
  unreaped : unreaped s'.history = unreaped s.history
  new : ∀ t, r = some t → (s'.heap t).pid = s.nextPid ∧ (s'.heap t).parentPid = parentPid ∧
    (s'.heap t).state = .ready
  nextPid : s'.nextPid = if r.isSome then s.nextPid + 1 else s.nextPid
  initThread : ∀ t, s'.initThread = some t → s.initThread = some t ∨ r = some t

theorem Grows.same (s : State) (parentPid : Int32) : Grows s s parentPid none :=
  ⟨fun _ _ => Kin.refl _, rfl, (append_nil _).symm, rfl, by simp, rfl, fun _ h => .inl h⟩

theorem Grows.of_roots (R : Finset ℕ) (h : Grows { s with roots := R } s' parentPid r) :
    Grows s s' parentPid r :=
  { h with }

/-- **A new thread** with memory of its own is added at the end of the ring. -/
theorem Shape.newThread (h : Shape s al dead) (ha : a ∉ s.live) (hk : k ∉ s.kstacks)
    (hm : ∀ r, mmu = .user r →
      r ∈ s.roots ∧ ∀ t ∈ al ++ dead, (s.heap t).mmu ≠ some (.user r)) (parentPid : Int32) :
    ∃ s', newThread { s with live := insert a s.live, kstacks := insert k s.kstacks } (.heap a) k
        mmu parentPid = some s' ∧
      Shape s' (al ++ [.heap a]) dead ∧ Added s (.heap a) parentPid s' ∧
      Grows s s' parentPid (some (.heap a)) := by
  obtain ⟨x, hx⟩ : ∃ x, x = Thread.fill s.nextPid parentPid mmu k (s.heap (.heap a)) := ⟨_, rfl⟩
  obtain ⟨s₁, hs1⟩ : ∃ s₁, s₁ = { State.set { s with
      live := insert a s.live, kstacks := insert k s.kstacks } (.heap a) x with
      nextPid := s.nextPid + 1 } := ⟨_, rfl⟩
  have hnew : ∀ u ∈ al ++ dead, u ≠ .heap a := by
    intro u hu e
    obtain ⟨b, hb, rfl⟩ := h.heap u hu
    exact ha (ThreadPtr.heap.inj e ▸ hb)
  have hnewRing : ∀ u ∈ .main :: al, u ≠ .heap a := by
    intro u hu
    rcases mem_cons.mp hu with rfl | hu
    · simp
    · exact hnew u (mem_append_left _ hu)
  have hold : ∀ u, u ≠ .heap a → s₁.heap u = s.heap u := fun u hu => by
    rw [hs1]
    exact set_heap_of_ne _ _ hu
  have ht : s₁.heap (.heap a) = x := by
    rw [hs1]
    exact set_heap_self _ _ _
  have hlive : s₁.live = insert a s.live := by rw [hs1]; rfl
  have hv : s₁.valid (.heap a) = true := by
    rw [State.valid, hlive]
    exact decide_eq_true (Finset.mem_insert_self a _)
  obtain ⟨p, hpmem, hpm, hnp⟩ := h.ring.exists_prev mem_cons_self
  have hpv : s₁.valid p = true := by
    rcases mem_cons.mp hpmem with rfl | hp
    · rfl
    · obtain ⟨b, hb, rfl⟩ := h.heap p (mem_append_left _ hp)
      rw [State.valid, hlive]
      exact decide_eq_true (Finset.mem_insert_of_mem hb)
  obtain ⟨s₂, hs2, hl⟩ := linkReady_spec
    (by rw [hs1]; exact h.head) (by rw [State.prev, hold _ (by simp)]; exact hpm) hv hpv (by simp)
    (Ne.symm (hnewRing p hpmem))
  have hrest : ∀ u, u ≠ .heap a →
      s₂.heap u = { s.heap u with next := s₂.next u, prev := s₂.prev u } := by
    intro u hu
    rw [← hold u hu]
    exact hl.heap u
  have hstack := fun t ht => congrArg Thread.stackBase (hrest t ht)
  have hmmu := fun t ht => congrArg Thread.mmu (hrest t ht)
  have hpid : (s₂.heap .main).pid = (s.heap .main).pid := by rw [hrest .main (by simp)]
  obtain ⟨hstackNew, hmmuNew, hpidNew, hparent, hready⟩ :
      (s₂.heap (.heap a)).stackBase = some k ∧ (s₂.heap (.heap a)).mmu = some mmu ∧
      (s₂.heap (.heap a)).pid = s.nextPid ∧ (s₂.heap (.heap a)).parentPid = parentPid ∧
      (s₂.heap (.heap a)).state = .ready := by
    rw [hl.heap, ht, hx]
    exact ⟨rfl, rfl, rfl, rfl, rfl⟩
  have hkin : ∀ t, s.valid t = true → Kin (s.heap t) (s₂.heap t) := by
    intro t htv
    rw [hrest t]
    · exact ⟨⟨rfl, rfl, rfl⟩, rfl, rfl⟩
    · rintro rfl
      exact ha (of_decide_eq_true htv)
  have hnext : ∀ u, u ≠ .heap a → u ≠ p → s₂.next u = s.next u := fun u hu hup =>
    (hl.next u hu hup).trans (congrArg Thread.next (hold u hu))
  have hcall : Sched.newThread { s with live := insert a s.live, kstacks := insert k s.kstacks }
      (.heap a) k mmu parentPid = some { s₂ with history := .created (.heap a) :: s₂.history } := by
    rw [Sched.newThread, modify_eq (by exact decide_eq_true (Finset.mem_insert_self a _))]
    simp only [bind_eq_bind, bind_some]
    rw [← hx, ← hs1, hs2]
    rfl
  -- Besides the threads the links change nothing.
  obtain ⟨H, rfl⟩ : ∃ H, s₂ = { s₁ with heap := H } := ⟨_, hl.rest⟩
  subst hs1
  refine ⟨_, hcall, ?_, ⟨hrest, hparent, rfl, rfl, rfl, rfl⟩, ⟨hkin, rfl, rfl, rfl, ?_, rfl,
    fun _ => .inl⟩⟩
  swap
  · intro t ht
    rw [← some.inj ht]
    exact ⟨hpidNew, hparent, hready⟩
  have hmem : ∀ t ∈ al ++ [.heap a] ++ dead, t ∈ al ++ dead ∨ t = .heap a := by
    intro t ht
    simp only [mem_append, mem_singleton] at ht ⊢
    tauto
  refine ⟨?_, h.head, ?_, ?_, ?_, ?_, ?_, ?_, ?_, ?_, ?_, ?_⟩
  · refine h.ring.insert (fun hm => hnewRing _ hm rfl) hpm hl.nextNew hl.prevNew hl.nextLast
      hl.prevMain (fun u hu => hnext u (hnewRing u hu)) ?_
    intro u hu hum
    exact (hl.prev u (hnewRing u hu) hum).trans (congrArg Thread.prev (hold u (hnewRing u hu)))
  · refine h.zombies.frame fun t ht => ?_
    exact hnext t (hnew t (mem_append_right _ ht)) fun e => h.notMem_dead hpmem (e ▸ ht)
  · have hperm : (al ++ [ThreadPtr.heap a] ++ dead).Perm (.heap a :: (al ++ dead)) := by
      rw [append_assoc]
      exact perm_middle
    exact hperm.nodup_iff.mpr (nodup_cons.mpr ⟨fun hm => hnew _ hm rfl, h.nodup⟩)
  · intro t ht
    rcases hmem t ht with ht | rfl
    · obtain ⟨b, hb, rfl⟩ := h.heap t ht
      exact ⟨b, Finset.mem_insert_of_mem hb, rfl⟩
    · exact ⟨a, Finset.mem_insert_self a _, rfl⟩
  · intro t ht
    rcases hmem t ht with ht | rfl
    · obtain ⟨j, hj, hjt⟩ := h.stack t ht
      exact ⟨j, Finset.mem_insert_of_mem hj, (hstack t (hnew t ht)).trans hjt⟩
    · exact ⟨k, Finset.mem_insert_self k _, hstackNew⟩
  · -- No other thread has the new stack.
    have hone : ∀ t ∈ al ++ [.heap a] ++ dead, ∀ u ∈ al ++ [.heap a] ++ dead, ∀ b,
        (H t).stackBase = b → (H u).stackBase = b → t = u := by
      refine owner_unique (fun t ht u hu b htb hub => h.stackInj t ht u hu (htb.trans hub.symm))
        (fun t ht => (hmem t ht).imp_right fun e => ⟨e, ?_⟩)
        fun t ht b htb => (hstack t (hnew t ht)).symm.trans htb
      rintro u hu b hub rfl
      obtain ⟨j, hj, hju⟩ := h.stack u hu
      rw [e, hstackNew, hju] at hub
      exact hk (some.inj hub ▸ hj)
    exact fun t ht u hu htu => hone t ht u hu _ htu rfl
  · intro t ht r htr
    rcases hmem t ht with ht | rfl
    · exact h.root t ht r ((hmmu t (hnew t ht)).symm.trans htr)
    · exact (hm r (some.inj (hmmuNew.symm.trans htr))).1
  · refine owner_unique h.rootInj (fun t ht => (hmem t ht).imp_right fun e => ⟨e, ?_⟩)
      fun t ht r htr => (hmmu t (hnew t ht)).symm.trans htr
    rintro u hu r hur htr
    rw [e] at htr
    exact (hm r (some.inj (hmmuNew.symm.trans htr))).2 u hu hur
  · exact (hstack _ (by simp)).trans h.mainStack
  · exact (hmmu _ (by simp)).trans h.mainMmu
  · exact hpid.trans h.mainPid

theorem Inv.init_mem (h : Inv s) (ht : s.initThread = some t) :
    t ∈ alive s.history ++ unreaped s.history := by
  have hi := (h.init t ht).2
  split at hi
  · exact mem_append_right _ hi.2
  · exact mem_append_left _ hi

/-- What a successful or failed spawn leaves. -/
structure Spawned (s : State) (parentPid : Int32) (s' : State) (r : Option ThreadPtr) : Prop where
  inv : Inv s'
  current : s'.current = s.current
  initThread : s'.initThread = s.initThread
  initDead : s'.initDead = s.initDead
  thread : ∀ t, r = some t → t ∈ alive s'.history ∧ (s'.heap t).parentPid = parentPid

theorem Spawned.none (h : Inv s) (parentPid : Int32) : Spawned s parentPid s none :=
  ⟨h, rfl, rfl, rfl, by simp⟩

theorem Inv.added (h : Inv s)
    (hs : Shape s' (alive s.history ++ [t]) (unreaped s.history)) (ha : Added s t parentPid s') :
    Spawned s parentPid s' (some t) := by
  have hal : alive s'.history = alive s.history ++ [t] := by rw [ha.history]; rfl
  have hun : unreaped s'.history = unreaped s.history := by rw [ha.history]; rfl
  have hnew : ∀ u ∈ alive s.history ++ unreaped s.history, u ≠ t := by
    have hnd := hs.nodup
    rw [append_assoc] at hnd
    have hnd' := (perm_middle.nodup_iff.mp hnd)
    exact fun u hu e => (nodup_cons.mp hnd').1 (e ▸ hu)
  have hmain : ThreadPtr.main ≠ t := by
    intro e
    exact hs.main_notMem (by simp [e])
  refine ⟨⟨?_, ?_, ?_, ?_, ?_⟩, ha.current, ha.initThread, ha.initDead, ?_⟩
  · rw [hal, hun]
    exact hs
  · rw [hal, ha.current]
    exact mem_append_left [t] h.current
  · rw [ha.other _ hmain, ha.current]
    exact h.mainState
  · intro u hu
    rw [ha.initThread] at hu
    rw [hal, hun, ha.current, ha.initDead, ha.other u (hnew u (h.init_mem hu))]
    refine (h.init u hu).imp_right fun hi => ?_
    split at hi
    case isTrue hd => exact (if_pos hd).mpr hi
    case isFalse hd => exact (if_neg hd).mpr (mem_append_left _ hi)
  · rw [ha.initDead, ha.initThread]
    exact h.initDead
  · intro u hu
    rw [← some.inj hu]
    refine ⟨?_, ha.parentPid⟩
    rw [hal]
    simp

/-- The memory for a thread: nothing is changed, or there is a structure and a stack. -/
theorem allocThread_spec (s : State) (m : Mem) :
    allocThread s m = some (s, none) ∨ ∃ a k, a ∉ s.live ∧ k ∉ s.kstacks ∧
      allocThread s m = some ({ s with live := insert a s.live, kstacks := insert k s.kstacks },
        some (.heap a, k)) := by
  rw [allocThread]
  cases ha : m.thread.pick s.live with
  | none => exact .inl rfl
  | some a =>
    have hfresh := m.thread.fresh _ _ ha
    cases hk : m.stack.pick s.kstacks with
    | none =>
      refine .inl ?_
      simp only [kfree, Finset.mem_insert_self, if_true, Finset.erase_insert hfresh]
      rfl
    | some k => exact .inr ⟨a, k, hfresh, m.stack.fresh _ _ hk, rfl⟩

/-- A root that is new or the kernel's own. -/
def FreeRoot (s : State) (mmu : MmuRoot) : Prop :=
  ∀ r, mmu = .user r → r ∈ s.roots ∧
    ∀ t ∈ alive s.history ++ unreaped s.history, (s.heap t).mmu ≠ some (.user r)

theorem FreeRoot.kernel (s : State) : FreeRoot s .kernel := by
  exact nofun

theorem Inv.schedSpawn (h : Inv s) (m : Mem) :
    ∃ s' r, schedSpawn s m = some (s', r) ∧ Spawned s 0 s' r ∧ Grows s s' 0 r := by
  rw [Sched.schedSpawn]
  rcases allocThread_spec s m with hal | ⟨a, k, ha, hk, hal⟩
  · rw [hal]
    exact ⟨s, none, rfl, Spawned.none h 0, Grows.same s 0⟩
  · obtain ⟨s', hs', hshape, hadd, hg⟩ := h.shape.newThread ha hk (FreeRoot.kernel s) 0
    refine ⟨s', some (.heap a), ?_, h.added hshape hadd, hg⟩
    rw [hal]
    simp only [bind_eq_bind, bind_some, hs']

theorem Inv.schedSpawnUserIn (h : Inv s) (m : Mem) (hm : FreeRoot s mmu) :
    ∃ s' r, schedSpawnUserIn s m mmu = some (s', r) ∧
      Spawned s (s.heap s.current).pid s' r ∧ Grows s s' (s.heap s.current).pid r := by
  rw [Sched.schedSpawnUserIn]
  rcases allocThread_spec s m with hal | ⟨a, k, ha, hk, hal⟩
  · rw [hal]
    exact ⟨s, none, rfl, .none h _, .same s _⟩
  · obtain ⟨s', hs', hshape, hadd, hg⟩ := h.shape.newThread ha hk hm (s.heap s.current).pid
    refine ⟨s', some (.heap a), ?_, h.added hshape hadd, hg⟩
    have hv : State.valid { s with live := insert a s.live, kstacks := insert k s.kstacks }
        s.current = true := by
      have hc := h.valid_current
      cases hcur : s.current with
      | main => rfl
      | idle => rfl
      | heap b =>
        rw [hcur] at hc
        exact decide_eq_true (Finset.mem_insert_of_mem (of_decide_eq_true hc))
    rw [hal]
    simp only [bind_eq_bind, bind_some, thread_eq hv, hs']

theorem Inv.insert_root (h : Inv s) (r : ℕ) : Inv { s with roots := insert r s.roots } := by
  refine { h with shape := { h.shape with root := ?_ } }
  intro t ht r' hr'
  exact Finset.mem_insert_of_mem (h.shape.root t ht r' hr')

theorem Inv.freeRoot (h : Inv s) {r : ℕ} (hr : r ∉ s.roots) :
    FreeRoot { s with roots := insert r s.roots } (.user r) := by
  intro r' hr'
  obtain rfl : r = r' := MmuRoot.user.inj hr'
  exact ⟨Finset.mem_insert_self r _, fun t ht htr => hr (h.shape.root t ht r htr)⟩

theorem Spawned.of_insert_root {q : ℕ}
    (h : Spawned { s with roots := insert q s.roots } parentPid s' r) :
    Spawned s parentPid s' r := { h with }

section

variable (h : Inv s) (m : Mem) (elf : Bool)
include h

theorem Inv.spawnProcessWithArgs : ∃ s' r, spawnProcessWithArgs s m elf = some (s', r) ∧
      Spawned s (s.heap s.current).pid s' r ∧ Grows s s' (s.heap s.current).pid r := by
  rw [Sched.spawnProcessWithArgs]
  cases hr : m.root.pick s.roots with
  | none => exact ⟨s, none, rfl, .none h _, .same s _⟩
  | some r =>
    have hfresh := m.root.fresh _ _ hr
    cases elf with
    | true =>
      obtain ⟨s', t, hs', hsp, hg⟩ := (h.insert_root r).schedSpawnUserIn m (h.freeRoot hfresh)
      exact ⟨s', t, hs', hsp.of_insert_root, .of_roots _ hg⟩
    | false =>
      refine ⟨s, none, ?_, .none h _, .same s _⟩
      simp only [vmmFreeRoot, Finset.mem_insert_self, if_true, Finset.erase_insert hfresh]
      rfl

theorem Inv.forkProcess :
    ∃ s' r, forkProcess s m = some (s', r) ∧ Spawned s (s.heap s.current).pid s' r ∧
      Grows s s' (s.heap s.current).pid r := by
  have hrun := h.shape.runnable h.current
  have hroot : s.rootOk (s.heap s.current).mmu = true := (Bool.and_eq_true_iff.mp hrun).2
  rw [Sched.forkProcess, thread_eq h.valid_current]
  simp only [bind_eq_bind, bind_some, hroot, if_true]
  cases hr : m.root.pick s.roots with
  | none => exact ⟨s, none, rfl, .none h _, .same s _⟩
  | some r =>
    obtain ⟨s', t, hs', hsp, hg⟩ :=
      (h.insert_root r).schedSpawnUserIn m (h.freeRoot (m.root.fresh _ _ hr))
    exact ⟨s', t, hs', hsp.of_insert_root, .of_roots _ hg⟩

/-! ### Init -/

/-- **Starting init** from the boot thread, which becomes its parent. -/
theorem Inv.execUserProgram (hc : s.current = .main) (hd : s.initDead = false) :
    ∃ s', execUserProgram s m elf = some s' ∧ Inv s' ∧ s'.current = s.current ∧
      s'.initDead = false ∧ ∃ r, Grows s s' (s.heap s.current).pid r := by
  obtain ⟨s', r, hs', hsp, hg⟩ := h.spawnProcessWithArgs m elf
  have hpid : (s.heap s.current).pid = 1 := by rw [hc]; exact h.shape.mainPid
  rw [Sched.execUserProgram, hs']
  cases r with
  | none => exact ⟨s', rfl, hsp.inv, hsp.current, hsp.initDead.trans hd, none, hg⟩
  | some t =>
    obtain ⟨hmem, hparent⟩ := hsp.thread t rfl
    have hd' : s'.initDead = false := hsp.initDead.trans hd
    refine ⟨schedMarkInit s' t, rfl, ⟨{ hsp.inv.shape with }, hsp.inv.current,
      hsp.inv.mainState, ?_, ?_⟩, hsp.current, hd', some t, hg.kin, hg.current, hg.alive,
      hg.unreaped, hg.new, hg.nextPid, fun _ => .inr⟩
    · intro u hu
      obtain rfl : t = u := some.inj hu
      refine ⟨hparent.trans hpid, ?_⟩
      rw [show (schedMarkInit s' t).initDead = false from hd']
      exact hmem
    · exact nofun

theorem Inv.kernelRespawnInit (m : InitMem) (hc : s.current = .main) (hd : s.initDead = false) :
    ∃ s', kernelRespawnInit s m = some s' ∧ Inv s' ∧ s'.current = s.current ∧
      s'.initDead = false ∧ ∃ r, Grows s s' (s.heap s.current).pid r := by
  rw [Sched.kernelRespawnInit]
  split
  · exact h.execUserProgram m.mem m.elf hc hd
  · exact ⟨s, rfl, h, rfl, hd, none, .same s _⟩

end

/-- What a call that may create a thread leaves of the ring and of the zombies: only a dead init is
reaped. -/
structure Grown (s s' : State) (r : Option ThreadPtr) : Prop where
  ring : ∀ t ∈ .main :: alive s.history, Kin (s.heap t) (s'.heap t)
  zombies : ∀ z ∈ unreaped s'.history, z ∈ unreaped s.history ∧ Kin (s.heap z) (s'.heap z)
  kept : ∀ z ∈ unreaped s.history, s.initThread ≠ some z → z ∈ unreaped s'.history
  current : s'.current = s.current
  alive : alive s'.history = alive s.history ++ r.toList
  new : ∀ t, r = some t → (s'.heap t).pid = s.nextPid ∧
    ((s'.heap t).parentPid = 0 ∨ (s'.heap t).parentPid = (s.heap s.current).pid) ∧
    (s'.heap t).state = .ready
  nextPid : s'.nextPid = if r.isSome then s.nextPid + 1 else s.nextPid
  initThread : ∀ t, s'.initThread = some t → s.initThread = some t ∨ r = some t

theorem Grows.grown (h : Inv s) (hg : Grows s s' parentPid r)
    (hp : parentPid = 0 ∨ parentPid = (s.heap s.current).pid) : Grown s s' r := by
  refine ⟨fun t ht => hg.kin t (h.shape.valid_ring ht), ?_, ?_, hg.current, hg.alive, ?_,
    hg.nextPid, hg.initThread⟩
  · intro z hz
    rw [hg.unreaped] at hz
    exact ⟨hz, hg.kin z (h.shape.valid_dead hz)⟩
  · intro z hz _
    rw [hg.unreaped]
    exact hz
  · intro t ht
    obtain ⟨hpid, hparent, hready⟩ := hg.new t ht
    rw [hparent]
    exact ⟨hpid, hp, hready⟩

/-- **The check for init.**  If init has died it is still on the zombie list, it is reaped here,
and the new one is again a child of the boot thread. -/
theorem Inv.schedCheckInit (h : Inv s) (m : InitMem) :
    ∃ s', schedCheckInit s m = some s' ∧ Inv s' ∧ s'.current = s.current ∧
      s'.initDead = false ∧ ∃ r, Grown s s' r ∧ (r.isSome = true → s.initDead = true) := by
  rw [Sched.schedCheckInit]
  cases hd : s.initDead with
  | false => exact ⟨s, rfl, h, rfl, hd, none, (Grows.same s 0).grown h (.inl rfl), by simp⟩
  | true =>
    obtain ⟨z, hz⟩ := ne_none_iff_exists'.mp (h.initDead hd)
    have hi := (h.init z hz).2
    rw [hd] at hi
    obtain ⟨hc, hzdead⟩ := hi
    have hshape : Shape { s with initDead := false } (alive s.history) (unreaped s.history) :=
      { h.shape with }
    obtain ⟨s₁, hs1, hr, hcalm⟩ := hshape.schedReapZombie hzdead
    have hmain : s₁.heap .main = s.heap .main := hr.ring _ (h.shape.notMem_dead mem_cons_self)
    have hun : unreaped s₁.history = (unreaped s.history).erase z := by rw [hr.history]; rfl
    have hsh1 := hshape.reap hzdead hr
    have hinv : Inv { s₁ with initThread := none } := by
      refine ⟨?_, ?_, ?_, ?_, ?_⟩
      · rw [hr.history]
        exact { hsh1 with }
      · rw [hr.history, hr.current]
        exact h.current
      · rw [hmain, hr.current]
        exact h.mainState
      · exact nofun
      · intro e
        exact absurd (hr.initDead.symm.trans e) Bool.false_ne_true
    obtain ⟨s', hs', hinv', hcur', hdead', r, hg⟩ :=
      hinv.kernelRespawnInit m (hr.current.trans hc) hr.initDead
    refine ⟨s', ?_, hinv', hcur'.trans hr.current, hdead', r, ⟨?_, ?_, ?_,
      hg.current.trans hcalm.current, ?_, ?_, ?_, ?_⟩, fun _ => rfl⟩
    · simp only [if_true, hz, bind_eq_bind]
      rw [hz] at hs1
      rw [hs1]
      exact hs'
    · intro t ht
      exact (hcalm.kin t).trans (hg.kin t (hsh1.valid_ring ht))
    · intro t ht
      rw [hg.unreaped] at ht
      change t ∈ unreaped s₁.history at ht
      rw [hun] at ht
      exact ⟨mem_of_mem_erase ht, (hcalm.kin t).trans (hg.kin t (hsh1.valid_dead ht))⟩
    · intro t ht hne
      rw [hg.unreaped]
      rw [hun, mem_erase_of_ne fun e => hne (by rw [e]; exact hz)]
      exact ht
    · rw [hg.alive]
      rw [hcalm.alive]
    · intro t ht
      obtain ⟨hpid, hparent, hready⟩ := hg.new t ht
      refine ⟨hpid.trans hcalm.nextPid, .inr (hparent.trans ?_), hready⟩
      rw [(hcalm.kin _).pid, hcalm.current]
    · rw [hg.nextPid]
      rw [hcalm.nextPid]
    · intro t ht
      rcases hg.initThread t ht with hnone | hr
      · cases hnone
      · exact .inr hr

end AxiomeOS.Sched
