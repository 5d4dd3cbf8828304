import AxiomeOS.Lib.Ring
import AxiomeOS.Sched.Thread
import Mathlib.Data.List.Find

/-!
# The shape of the scheduler's lists

The history of a state says which threads have been created and not yet exited (`alive`) and which
have exited and not yet been reaped (`unreaped`).  `Shape s al dead` says that the pointers of `s`
represent two such lists: the boot thread and `al` form the run ring, `dead` the zombie list, and
each of these threads has its own structure, kernel stack and address space, none of them freed.

The loops of the scheduler are then loops over these lists: they end, they touch nothing that has
been freed, and they find what they look for (`findReady_spec`, `findRing_eq`, `findZombie_eq`).
-/

namespace AxiomeOS.Sched

open Chains List Option State

variable {t : ThreadPtr}

/-! ### Accesses -/

variable {s : State} {x : Thread} {l : List ThreadPtr} {fuel : ℕ}

theorem State.thread_eq (h : s.valid t = true) : s.thread t = some (s.heap t) := if_pos h

theorem State.modify_eq (h : s.valid t = true) (f : Thread → Thread) :
    s.modify t f = some (s.set t (f (s.heap t))) := if_pos h

@[simp] theorem State.set_heap_self (s : State) (t : ThreadPtr) (x : Thread) :
    (s.set t x).heap t = x := Function.update_self ..

theorem State.set_heap_of_ne (s : State) {u : ThreadPtr} (x : Thread) (h : u ≠ t) :
    (s.set t x).heap u = s.heap u := Function.update_of_ne h ..

@[simp] theorem State.valid_set (s : State) (t u : ThreadPtr) (x : Thread) :
    (s.set t x).valid u = s.valid u := by
  cases u <;> rfl

theorem State.valid_congr {s' : State} (h : s'.live = s.live) (t : ThreadPtr) :
    s'.valid t = s.valid t := by
  cases t with
  | main => rfl
  | idle => rfl
  | heap a => rw [valid, valid, h]

/-- The links of the lists. -/
def State.next (s : State) (t : ThreadPtr) : Option ThreadPtr := (s.heap t).next

def State.prev (s : State) (t : ThreadPtr) : Option ThreadPtr := (s.heap t).prev

/-! ### Histories -/

/-- The threads created and not yet exited, in the order of their creation. -/
def alive : List Life → List ThreadPtr
  | [] => []
  | .created t :: h => alive h ++ [t]
  | .exited t :: h => (alive h).erase t
  | .freed _ :: h => alive h

/-- The threads that have exited and have not been reaped, the latest first. -/
def unreaped : List Life → List ThreadPtr
  | [] => []
  | .created _ :: h => unreaped h
  | .exited t :: h => t :: unreaped h
  | .freed t :: h => (unreaped h).erase t

/-! ### The invariant of the lists -/

/-- The pointers of `s` represent the run ring of the boot thread and `al` and the zombie list
`dead`, and nothing these threads hold has been freed. -/
structure Shape (s : State) (al dead : List ThreadPtr) : Prop where
  ring : Ring s.next s.prev .main (.main :: al)
  head : s.readyHead = some .main
  zombies : Chain s.next s.zombieHead dead
  nodup : (al ++ dead).Nodup
  heap : ∀ t ∈ al ++ dead, ∃ a ∈ s.live, t = .heap a
  stack : ∀ t ∈ al ++ dead, ∃ k ∈ s.kstacks, (s.heap t).stackBase = some k
  stackInj : ∀ t ∈ al ++ dead, ∀ u ∈ al ++ dead,
    (s.heap t).stackBase = (s.heap u).stackBase → t = u
  root : ∀ t ∈ al ++ dead, ∀ r, (s.heap t).mmu = some (.user r) → r ∈ s.roots
  rootInj : ∀ t ∈ al ++ dead, ∀ u ∈ al ++ dead, ∀ r, (s.heap t).mmu = some (.user r) →
    (s.heap u).mmu = some (.user r) → t = u
  mainStack : (s.heap .main).stackBase = none
  mainMmu : (s.heap .main).mmu = some .kernel
  mainPid : (s.heap .main).pid = 1

variable {s s' : State} {al dead : List ThreadPtr}

section Facts

variable (h : Shape s al dead)

include h

theorem Shape.valid (ht : t ∈ al ++ dead) : s.valid t = true := by
  obtain ⟨a, ha, rfl⟩ := h.heap t ht
  exact decide_eq_true ha

theorem Shape.valid_alive (ht : t ∈ al) : s.valid t = true := h.valid (mem_append_left _ ht)

theorem Shape.valid_dead (ht : t ∈ dead) : s.valid t = true := h.valid (mem_append_right _ ht)

theorem Shape.valid_ring (ht : t ∈ .main :: al) : s.valid t = true := by
  rcases mem_cons.mp ht with rfl | ht
  · rfl
  · exact h.valid_alive ht

/-- A thread of the ring can run. -/
theorem Shape.runnable (ht : t ∈ .main :: al) : s.runnable t = true := by
  have hv := h.valid_ring ht
  rcases mem_cons.mp ht with rfl | ht
  · rw [runnable, hv, h.mainStack, h.mainMmu]
    rfl
  · have hmem : t ∈ al ++ dead := mem_append_left _ ht
    obtain ⟨k, hk, hstack⟩ := h.stack t hmem
    have hroot : s.rootOk (s.heap t).mmu = true := by
      cases hm : (s.heap t).mmu with
      | none => rfl
      | some r =>
        cases r with
        | kernel => rfl
        | user r => exact decide_eq_true (h.root t hmem r hm)
    rw [State.runnable, hv, hstack, hroot]
    exact Bool.and_eq_true_iff.mpr ⟨decide_eq_true hk, rfl⟩

theorem Shape.main_notMem : .main ∉ al ++ dead := by
  intro hm
  obtain ⟨a, -, ha⟩ := h.heap _ hm
  cases ha

theorem Shape.idle_notMem : .idle ∉ al ++ dead := by
  intro hm
  obtain ⟨a, -, ha⟩ := h.heap _ hm
  cases ha

theorem Shape.notMem_dead (ht : t ∈ .main :: al) : t ∉ dead := by
  intro hd
  rcases mem_cons.mp ht with rfl | ht
  · exact h.main_notMem (mem_append_right _ hd)
  · exact (nodup_append.mp h.nodup).2.2 t ht t hd rfl

theorem Shape.length_le : (al ++ dead).length ≤ s.live.card := by
  have hsub : (al ++ dead).toFinset ⊆ s.live.image ThreadPtr.heap := by
    intro t ht
    obtain ⟨a, ha, rfl⟩ := h.heap t (mem_toFinset.mp ht)
    exact Finset.mem_image_of_mem _ ha
  calc (al ++ dead).length = (al ++ dead).toFinset.card := (toFinset_card_of_nodup h.nodup).symm
    _ ≤ (s.live.image ThreadPtr.heap).card := Finset.card_le_card hsub
    _ ≤ s.live.card := Finset.card_image_le

theorem Shape.ring_length_lt : (ThreadPtr.main :: al).length < s.fuel := by
  have := h.length_le
  rw [length_append] at this
  rw [fuel, length_cons]
  omega

theorem Shape.dead_length_lt : dead.length < s.fuel := by
  have := h.length_le
  rw [length_append] at this
  rw [fuel]
  omega

end Facts

/-! ### States with the same lists -/

/-- Two threads that differ in state, quantum, exit status and deadline only. -/
structure Alike (x y : Thread) : Prop where
  next : y.next = x.next
  prev : y.prev = x.prev
  stackBase : y.stackBase = x.stackBase
  mmu : y.mmu = x.mmu
  pid : y.pid = x.pid
  parentPid : y.parentPid = x.parentPid

theorem Alike.refl (x : Thread) : Alike x x := ⟨rfl, rfl, rfl, rfl, rfl, rfl⟩

theorem Alike.trans {y z : Thread} (h : Alike x y) (h' : Alike y z) : Alike x z :=
  ⟨h'.next.trans h.next, h'.prev.trans h.prev, h'.stackBase.trans h.stackBase, h'.mmu.trans h.mmu,
    h'.pid.trans h.pid, h'.parentPid.trans h.parentPid⟩

/-- Two states with the same lists and the same memory. -/
structure Same (s s' : State) : Prop where
  alike : ∀ t, Alike (s.heap t) (s'.heap t)
  live : s'.live = s.live
  kstacks : s'.kstacks = s.kstacks
  roots : s'.roots = s.roots
  readyHead : s'.readyHead = s.readyHead
  zombieHead : s'.zombieHead = s.zombieHead

theorem Same.refl (s : State) : Same s s := ⟨fun _ => Alike.refl _, rfl, rfl, rfl, rfl, rfl⟩

theorem Same.trans {s₁ s₂ s₃ : State} (h : Same s₁ s₂) (h' : Same s₂ s₃) : Same s₁ s₃ :=
  ⟨fun t => (h.alike t).trans (h'.alike t), h'.live.trans h.live, h'.kstacks.trans h.kstacks,
    h'.roots.trans h.roots, h'.readyHead.trans h.readyHead, h'.zombieHead.trans h.zombieHead⟩

theorem Same.set (h : Alike (s.heap t) x) : Same s (s.set t x) := by
  refine ⟨fun u => ?_, rfl, rfl, rfl, rfl, rfl⟩
  by_cases hu : u = t
  · rw [hu, set_heap_self]
    exact h
  · rw [set_heap_of_ne _ _ hu]
    exact .refl _

theorem Same.valid (h : Same s s') (t : ThreadPtr) : s'.valid t = s.valid t :=
  valid_congr h.live t

/-- **The lists rearranged.**  Threads that were on the lists, and what they hold, may be linked in
another way. -/
theorem Shape.frame {al' dead' : List ThreadPtr} (h : Shape s al dead)
    (hring : Ring s'.next s'.prev .main (.main :: al')) (hhead : s'.readyHead = s.readyHead)
    (hzombies : Chain s'.next s'.zombieHead dead') (hnodup : (al' ++ dead').Nodup)
    (hsub : al' ++ dead' ⊆ al ++ dead)
    (hheld : ∀ t ∈ .main :: (al' ++ dead'), (s'.heap t).stackBase = (s.heap t).stackBase ∧
      (s'.heap t).mmu = (s.heap t).mmu ∧ (s'.heap t).pid = (s.heap t).pid)
    (hlive : ∀ a ∈ s.live, .heap a ∈ al' ++ dead' → a ∈ s'.live)
    (hkstacks : ∀ k ∈ s.kstacks, ∀ t ∈ al' ++ dead', (s.heap t).stackBase = some k →
      k ∈ s'.kstacks)
    (hroots : ∀ r ∈ s.roots, ∀ t ∈ al' ++ dead', (s.heap t).mmu = some (.user r) →
      r ∈ s'.roots) : Shape s' al' dead' := by
  have hmain := hheld .main mem_cons_self
  have hheld' := fun t ht => hheld t (mem_cons_of_mem _ ht)
  refine ⟨hring, hhead.trans h.head, hzombies, hnodup, fun t ht => ?_, fun t ht => ?_,
    fun t ht u hu => ?_, fun t ht r hr => ?_, fun t ht u hu r => ?_, hmain.1.trans h.mainStack,
    hmain.2.1.trans h.mainMmu, hmain.2.2.trans h.mainPid⟩
  · obtain ⟨a, ha, rfl⟩ := h.heap t (hsub ht)
    exact ⟨a, hlive a ha ht, rfl⟩
  · obtain ⟨k, hk, hkt⟩ := h.stack t (hsub ht)
    exact ⟨k, hkstacks k hk t ht hkt, (hheld' t ht).1.trans hkt⟩
  · rw [(hheld' t ht).1, (hheld' u hu).1]
    exact h.stackInj t (hsub ht) u (hsub hu)
  · rw [(hheld' t ht).2.1] at hr
    exact hroots r (h.root t (hsub ht) r hr) t ht hr
  · rw [(hheld' t ht).2.1, (hheld' u hu).2.1]
    exact h.rootInj t (hsub ht) u (hsub hu) r

theorem Shape.of_same (h : Shape s al dead) (hs : Same s s') : Shape s' al dead := by
  refine h.frame (h.ring.frame (fun t _ => (hs.alike t).next) fun t _ => (hs.alike t).prev)
    hs.readyHead ?_ h.nodup (Subset.refl _)
    (fun t _ => ⟨(hs.alike t).stackBase, (hs.alike t).mmu, (hs.alike t).pid⟩)
    (fun a ha _ => hs.live ▸ ha) (fun k hk _ _ _ => hs.kstacks ▸ hk)
    fun r hr _ _ _ => hs.roots ▸ hr
  rw [hs.zombieHead]
  exact h.zombies.frame fun t _ => (hs.alike t).next

/-! ### The loops -/

/-- **The search for a ready thread** over the nodes `l` that lead back to `old` ends; it finds a
ready one among them if there is one, and comes back to `old` otherwise. -/
theorem findReady_spec {old : ThreadPtr} {p : Option ThreadPtr}
    (hseg : Seg s.next p l (some old)) (hold : old ∉ l) (hv : ∀ t ∈ l, s.valid t = true)
    (hfuel : l.length < fuel) : ∃ t, findReady s old fuel p = some t ∧
      ((t ∈ l ∧ (s.heap t).state = .ready) ∨ (t = old ∧ ∀ u ∈ l, (s.heap u).state ≠ .ready)) := by
  induction l generalizing p fuel with
  | nil =>
    obtain _ | fuel := fuel
    · omega
    rw [show p = some old from hseg, findReady, if_pos rfl]
    exact ⟨old, rfl, .inr ⟨rfl, by simp⟩⟩
  | cons a l ih =>
    obtain _ | fuel := fuel
    · omega
    have hne : a ≠ old := fun e => hold (e ▸ mem_cons_self)
    rw [hseg.1, findReady, if_neg hne, thread_eq (hv a mem_cons_self)]
    by_cases hready : (s.heap a).state = .ready
    · refine ⟨a, ?_, .inl ⟨mem_cons_self, hready⟩⟩
      simp only [bind_eq_bind, bind_some, if_pos hready]
    · obtain ⟨t, hfind, hcase⟩ := ih hseg.2 (fun hm => hold (mem_cons_of_mem _ hm))
        (fun t ht => hv t (mem_cons_of_mem _ ht)) (by simp at hfuel; omega)
      refine ⟨t, ?_, ?_⟩
      · simp only [bind_eq_bind, bind_some, if_neg hready]
        exact hfind
      · refine hcase.imp (fun h => ⟨mem_cons_of_mem _ h.1, h.2⟩) fun h => ⟨h.1, ?_⟩
        intro u hu
        rcases mem_cons.mp hu with rfl | hu
        · exact hready
        · exact h.2 u hu

/-- **The loop over the ring** ends at `head`; it finds the first thread with the property. -/
theorem findRing_eq {head : ThreadPtr} (p : Thread → Bool)
    (hseg : Seg s.next (some t) (t :: l) (some head)) (hhead : head ∉ l)
    (hv : ∀ u ∈ t :: l, s.valid u = true) (hfuel : l.length < fuel) :
    findRing s head p fuel t = some ((t :: l).find? fun u => p (s.heap u)) := by
  induction l generalizing t fuel with
  | nil =>
    obtain _ | fuel := fuel
    · omega
    have hnext : (s.heap t).next = some head := hseg.2
    rw [findRing, thread_eq (hv t mem_cons_self)]
    simp only [bind_eq_bind, bind_some, hnext, if_true]
    rw [find?_cons, find?_nil]
    cases p (s.heap t) <;> rfl
  | cons a l ih =>
    obtain _ | fuel := fuel
    · omega
    have hnext : (s.heap t).next = some a := hseg.2.1
    have hne : a ≠ head := fun e => hhead (e ▸ mem_cons_self)
    have hseg' : Seg s.next (some a) (a :: l) (some head) := ⟨rfl, hseg.2.2⟩
    have hrest : findRing s head p fuel a = some ((a :: l).find? fun u => p (s.heap u)) :=
      ih hseg' (fun hm => hhead (mem_cons_of_mem _ hm))
        (fun u hu => hv u (mem_cons_of_mem _ hu)) (by simp at hfuel; omega)
    rw [findRing, thread_eq (hv t mem_cons_self)]
    simp only [bind_eq_bind, bind_some, hnext, if_neg hne, hrest]
    rw [find?_cons (a := t)]
    cases p (s.heap t) <;> rfl

/-- **The loop over the zombies** ends; it finds the first one with the property. -/
theorem findZombie_eq {z : Option ThreadPtr} (p : Thread → Bool)
    (hl : Chain s.next z l) (hv : ∀ u ∈ l, s.valid u = true) (hfuel : l.length < fuel) :
    findZombie s p fuel z = some (l.find? fun u => p (s.heap u)) := by
  induction l generalizing z fuel with
  | nil =>
    rw [show z = none from hl]
    cases fuel <;> rfl
  | cons a l ih =>
    obtain _ | fuel := fuel
    · omega
    have hrest : findZombie s p fuel (s.next a) = some (l.find? fun u => p (s.heap u)) :=
      ih hl.2 (fun u hu => hv u (mem_cons_of_mem _ hu)) (by simp at hfuel; omega)
    rw [hl.1, findZombie, thread_eq (hv a mem_cons_self)]
    simp only [bind_eq_bind, bind_some]
    rw [show (s.heap a).next = s.next a from rfl, hrest, find?_cons]
    cases p (s.heap a) <;> rfl

section

variable (h : Shape s al dead) (p : Thread → Bool)
include h

theorem Shape.findRing_eq :
    findRing s .main p s.fuel .main = some ((.main :: al).find? fun u => p (s.heap u)) :=
  Sched.findRing_eq p h.ring.seg (nodup_cons.mp h.ring.nodup).1 (fun _ hu => h.valid_ring hu)
    (Nat.lt_of_succ_lt h.ring_length_lt)

theorem Shape.findZombie_eq :
    findZombie s p s.fuel s.zombieHead = some (dead.find? fun u => p (s.heap u)) :=
  Sched.findZombie_eq p h.zombies (fun _ hu => h.valid_dead hu) h.dead_length_lt

/-- **Looking up a pid** looks at the running thread, the two static ones and the ring. -/
theorem Shape.threadFindByPid_eq (hc : s.valid s.current = true) (pid : Int32) :
    threadFindByPid s pid = some (if pid ≤ 0 then none else
      (s.current :: .main :: .idle :: .main :: al).find?
        fun u => decide ((s.heap u).pid = pid)) := by
  rw [threadFindByPid]
  split
  · rfl
  · rw [thread_eq hc]
    simp only [bind_eq_bind, bind_some, h.head]
    have hcons : ∀ (u : ThreadPtr) (l : List ThreadPtr),
        (u :: l).find? (fun u => decide ((s.heap u).pid = pid)) =
          if (s.heap u).pid = pid then some u
          else l.find? fun u => decide ((s.heap u).pid = pid) := by
      intro u l
      rw [find?_cons]
      by_cases hu : (s.heap u).pid = pid
      · rw [if_pos hu, decide_eq_true hu]
      · rw [if_neg hu, decide_eq_false hu]
    rw [h.findRing_eq, hcons s.current, hcons .main (.idle :: .main :: al), hcons .idle]
    split
    · rfl
    · split
      · rfl
      · split <;> rfl

/-- The lookup finds a thread that may be accessed; the boot thread's pid is always found. -/
theorem Shape.threadFindByPid (hc : s.valid s.current = true) (pid : Int32) :
    ∃ r, threadFindByPid s pid = some r ∧ (∀ u, r = some u → s.valid u = true) ∧
      (pid = 1 → r ≠ none) := by
  refine ⟨_, h.threadFindByPid_eq hc pid, ?_, ?_⟩
  · intro u hu
    split at hu
    · cases hu
    · have hmem := mem_of_find?_eq_some hu
      simp only [mem_cons] at hmem
      rcases hmem with rfl | rfl | rfl | hu
      · exact hc
      · rfl
      · rfl
      · exact h.valid_ring (mem_cons.mpr hu)
  · rintro rfl
    rw [if_neg (by decide)]
    intro hnone
    have hmain := find?_eq_none.mp hnone .main (by simp)
    exact hmain (decide_eq_true h.mainPid)

end

end AxiomeOS.Sched
