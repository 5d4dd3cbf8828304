import AxiomeOS.Security.Credentials

/-!
# The `SYSTEM` role is not regained

The whole system of threads this time, not one family: the boot and idle threads that
`sched_init` makes `SYSTEM` (`thread_set_system`), kernel threads, the userspace init that `kmain`
starts, and every thread that these fork or spawn.  Beside the credential calls there are the two
places where the kernel itself writes a security context: `sched_spawn`, which gives a kernel
thread the default one, and `sched_check_init`, which `sched_yield` runs for whatever thread is
current and which starts init again through `exec_user_program` after it exited.

Each thread remembers by which thread it was created.  `never_system_again` says of every run that
a thread that is not `SYSTEM`, and all that it creates from then on, are never `SYSTEM` again, and
that no thread's effective set is larger than its permitted one.
-/

namespace AxiomeOS.Security

open Bits Runs List

variable {ts : List Thread}

/-! ### The system -/

/-- A thread: its security context, and the thread that was current when it was created; `none`
for those that the kernel starts with a context of their own. -/
structure Thread where
  cred : Cred
  parent : Option ℕ
  deriving DecidableEq, Repr

/-- All threads ever created, `g_init_thread` and `g_init_dead`. -/
structure Machine where
  tasks : List Thread
  initThread : Option ℕ
  initDead : Bool
  deriving DecidableEq, Repr

/-- `thread_set_system`. -/
def threadSetSystem : Cred :=
  { uid := 0, euid := 0, suid := 0, gid := 0, egid := 0, sgid := 0, role := .system
    capsEff := 0xFFFFFFFF, capsPrm := 0xFFFFFFFF, capsInh := 0xFFFFFFFF }

/-- `sched_init`: the boot thread and the idle thread. -/
def schedInit : Machine := ⟨[⟨threadSetSystem, none⟩, ⟨threadSetSystem, none⟩], none, false⟩

/-- What a thread can do to the security contexts. -/
inductive Event
  /-- A system call. -/
  | call (c : Syscall)
  /-- Any path into `sched_yield`, with the outcome of building init should it be respawned. -/
  | yield (built : Bool)
  /-- `sched_exit`. -/
  | exit
  /-- `exec_init_from_disk`, which `kmain` calls. -/
  | execInit (built : Bool)
  /-- `sched_spawn` of a kernel thread. -/
  | kernelThread (built : Bool)
  deriving DecidableEq, Repr

/-- A new thread, created while thread `i` with context `c` is current. -/
def Machine.addUser (s : Machine) (i : ℕ) (c : Cred) : Machine :=
  { s with tasks := s.tasks ++ [⟨schedSpawnUserIn (some c), some i⟩] }

/-- A new context for thread `i`. -/
def Machine.setCred (s : Machine) (i : ℕ) (t : Thread) (c : Cred) : Machine :=
  { s with tasks := s.tasks.set i { t with cred := c } }

/-- `exec_user_program`: the new thread becomes init. -/
def execUserProgram (s : Machine) (i : ℕ) (c : Cred) (built : Bool) : Machine :=
  if built then { s.addUser i c with initThread := some s.tasks.length } else s

/-- `sched_check_init`. -/
def schedCheckInit (s : Machine) (i : ℕ) (c : Cred) (built : Bool) : Machine :=
  if s.initDead then execUserProgram { s with initDead := false, initThread := none } i c built
  else s

/-- A system call of thread `i`. -/
def syscall (s : Machine) (i : ℕ) (t : Thread) : Syscall → Machine
  | .setuid a1 => s.setCred i t (sysSetuid t.cred a1).2
  | .setgid a1 => s.setCred i t (sysSetgid t.cred a1).2
  | .setcap a1 => s.setCred i t (sysSetcap t.cred a1).2
  | .fork built => if built then s.addUser i t.cred else s
  | .spawn built => if built then s.addUser i t.cred else s
  | .exec _ => s

/-- One event of thread `i`. -/
def act (s : Machine) (i : ℕ) (e : Event) : Machine :=
  match s.tasks[i]? with
  | none => s
  | some t =>
    match e with
    | .call c => syscall s i t c
    | .yield built => schedCheckInit s i t.cred built
    | .exit => if s.initThread = some i then { s with initDead := true } else s
    | .execInit built => execUserProgram s i t.cred built
    | .kernelThread built =>
      if built then { s with tasks := s.tasks ++ [⟨threadInitCred, none⟩] } else s

def MachineStep (s : Machine) (e : ℕ × Event) (s' : Machine) : Prop := s' = act s e.1 e.2

/-! ### What one event can do -/

/-- The effective set lies in the permitted set. -/
def Bounded (c : Cred) : Prop := c.capsEff &&& c.capsPrm = c.capsEff

instance (c : Cred) : Decidable (Bounded c) := by
  unfold Bounded
  infer_instance

/-- A change of context that never leads to `SYSTEM` and keeps the effective set bounded. -/
def Lowers (c c' : Cred) : Prop :=
  (c.role ≠ .system → c'.role ≠ .system) ∧ (Bounded c → Bounded c')

theorem Lowers.refl (c : Cred) : Lowers c c := ⟨id, id⟩

theorem lowers_setuid (c : Cred) (a1 : U64) : Lowers c (sysSetuid c a1).2 := by
  rw [sysSetuid]
  split
  · exact .refl c
  · refine ⟨fun _ => posixUidToRole_ne_system _, fun _ => ?_⟩
    exact BitVec.and_self

theorem lowers_setgid (c : Cred) (a1 : U64) : Lowers c (sysSetgid c a1).2 := by
  rw [sysSetgid]
  split
  · exact .refl c
  · exact ⟨id, id⟩

theorem lowers_setcap (c : Cred) (a1 : U64) : Lowers c (sysSetcap c a1).2 := by
  rw [sysSetcap]
  split
  · exact .refl c
  · refine ⟨id, fun _ => ?_⟩
    show a1 &&& c.capsPrm &&& c.capsPrm = a1 &&& c.capsPrm
    rw [BitVec.and_assoc, BitVec.and_self]

/-- **One event, inverted.**  The threads are as before; or one of them has a lower context; or
there is one thread more, with the context of the current one or with the default one. -/
theorem act_cases (s : Machine) (i : ℕ) (e : Event) : (act s i e).tasks = s.tasks ∨
      (∃ t c, s.tasks[i]? = some t ∧ Lowers t.cred c ∧
        (act s i e).tasks = s.tasks.set i { t with cred := c }) ∨
      (∃ t, s.tasks[i]? = some t ∧ (act s i e).tasks = s.tasks ++ [⟨t.cred, some i⟩]) ∨
      (act s i e).tasks = s.tasks ++ [⟨threadInitCred, none⟩] := by
  rw [act]
  cases hi : s.tasks[i]? with
  | none => exact .inl rfl
  | some t =>
    have hexec : ∀ (s' : Machine) (built : Bool), s'.tasks = s.tasks →
        (execUserProgram s' i t.cred built).tasks = s.tasks ∨
          (execUserProgram s' i t.cred built).tasks = s.tasks ++ [⟨t.cred, some i⟩] := by
      intro s' built hs'
      cases built
      · exact .inl hs'
      · right
        show s'.tasks ++ [⟨schedSpawnUserIn (some t.cred), some i⟩] = _
        rw [hs', schedSpawnUserIn_some]
    cases e with
    | call c =>
      cases c with
      | setuid a1 => exact .inr (.inl ⟨t, _, rfl, lowers_setuid t.cred a1, rfl⟩)
      | setgid a1 => exact .inr (.inl ⟨t, _, rfl, lowers_setgid t.cred a1, rfl⟩)
      | setcap a1 => exact .inr (.inl ⟨t, _, rfl, lowers_setcap t.cred a1, rfl⟩)
      | fork built | spawn built =>
        cases built
        · exact .inl rfl
        · exact .inr (.inr (.inl ⟨t, rfl, rfl⟩))
      | exec installed => exact .inl rfl
    | yield built =>
      dsimp only
      rw [schedCheckInit]
      split
      · rcases hexec { s with initDead := false, initThread := none } built rfl with h | h
        · exact .inl h
        · exact .inr (.inr (.inl ⟨t, rfl, h⟩))
      · exact .inl rfl
    | exit =>
      dsimp only
      split <;> exact .inl rfl
    | execInit built =>
      rcases hexec s built rfl with h | h
      · exact .inl h
      · exact .inr (.inr (.inl ⟨t, rfl, h⟩))
    | kernelThread built =>
      cases built
      · exact .inl rfl
      · exact .inr (.inr (.inr rfl))

/-! ### Descent -/

/-- Thread `j` is thread `i` or descends from it through threads created since there were `n`. -/
inductive Since (n i : ℕ) (ts : List Thread) : ℕ → Prop
  | self : Since n i ts i
  | child {j k : ℕ} {t : Thread} : n ≤ j → ts[j]? = some t → t.parent = some k → Since n i ts k →
      Since n i ts j

/-- Threads are created by threads that exist. -/
def Ancestors (ts : List Thread) : Prop :=
  ∀ (j : ℕ) (t : Thread) (k : ℕ), ts[j]? = some t → t.parent = some k → k < j

/-- What is kept from thread `i` on, since there were `n` threads. -/
def Dropped (n i : ℕ) (ts : List Thread) : Prop :=
  ∀ (j : ℕ) (t : Thread), Since n i ts j → ts[j]? = some t → t.cred.role ≠ .system

variable {i i₀ j n : ℕ} {t u : Thread} {s : Machine}

theorem Since.congr {ts' : List Thread} (h : Since n i ts' j)
    (hanc : Ancestors ts') (hj : j < ts.length) (hpar : ∀ k t', k < ts.length → ts'[k]? = some t' →
      ∃ t, ts[k]? = some t ∧ t.parent = t'.parent) : Since n i ts j := by
  induction h with
  | self => exact .self
  | child hn hget hparent _ ih =>
    obtain ⟨t, ht, hpt⟩ := hpar _ _ hj hget
    have hlt := hanc _ _ _ hget hparent
    exact .child hn ht (hpt.trans hparent) (ih (by omega))

theorem getElem?_append_one (h : (ts ++ [u])[j]? = some t) :
    (j < ts.length ∧ ts[j]? = some t) ∨ (j = ts.length ∧ t = u) := by
  by_cases hj : j < ts.length
  · rw [getElem?_append_left hj] at h
    exact .inl ⟨hj, h⟩
  · obtain ⟨hlt, -⟩ := List.getElem?_eq_some_iff.mp h
    rw [List.length_append, List.length_singleton] at hlt
    have heq : j = ts.length := by omega
    rw [heq, getElem?_append_right (Nat.le_refl _), Nat.sub_self] at h
    cases h
    exact .inr ⟨heq, rfl⟩

/-- The invariant of the whole system. -/
structure Sane (ts : List Thread) : Prop where
  ancestors : Ancestors ts
  bounded : ∀ t ∈ ts, Bounded t.cred

/-- A lower context for one thread. -/
theorem Sane.set (h : Sane ts) {c : Cred} (hi : ts[i]? = some t) (hc : Lowers t.cred c) :
    Sane (ts.set i { t with cred := c }) := by
  refine ⟨fun j u k hu hp => ?_, fun u hu => ?_⟩
  · rw [getElem?_set] at hu
    split at hu
    case isTrue heq =>
      split at hu
      case isTrue =>
        cases hu
        rw [← heq]
        exact h.ancestors i t k hi hp
      case isFalse => cases hu
    case isFalse => exact h.ancestors j u k hu hp
  · rcases mem_or_eq_of_mem_set hu with hu | rfl
    · exact h.bounded u hu
    · exact hc.2 (h.bounded t (mem_of_getElem? hi))

theorem Sane.append (h : Sane ts) (hb : Bounded u.cred)
    (hp : ∀ k, u.parent = some k → k < ts.length) : Sane (ts ++ [u]) := by
  refine ⟨fun j t k ht hk => ?_, fun t ht => ?_⟩
  · rcases getElem?_append_one ht with ⟨-, ht⟩ | ⟨rfl, rfl⟩
    · exact h.ancestors j t k ht hk
    · exact hp k hk
  · rcases mem_append.mp ht with ht | ht
    · exact h.bounded t ht
    · rw [mem_singleton.mp ht]
      exact hb

theorem sane_schedInit : Sane schedInit.tasks := by
  refine ⟨fun j t k ht hp => ?_, by decide⟩
  have hall : ∀ t ∈ schedInit.tasks, t.parent = none := by decide
  rw [hall t (mem_of_getElem? ht)] at hp
  cases hp

/-- **Step lemma**: one event keeps the system sane. -/
theorem Sane.act (h : Sane s.tasks) (i : ℕ) (e : Event) : Sane (act s i e).tasks := by
  rcases act_cases s i e with heq | ⟨t, c, ht, hc, heq⟩ | ⟨t, ht, heq⟩ | heq
  · rw [heq]
    exact h
  · rw [heq]
    exact h.set ht hc
  · rw [heq]
    refine h.append (h.bounded t (mem_of_getElem? ht)) fun k hk => ?_
    cases hk
    exact (List.getElem?_eq_some_iff.mp ht).1
  · rw [heq]
    exact h.append (by decide) nofun

/-- A thread more: it descends from `i₀` only through its parent. -/
theorem Dropped.append (h : Dropped n i₀ ts)
    (hs : Sane (ts ++ [u])) (hn : n ≤ ts.length) (hi₀ : i₀ < n)
    (hu : ∀ k, u.parent = some k → Since n i₀ ts k → u.cred.role ≠ .system) :
    Dropped n i₀ (ts ++ [u]) := by
  have hold : ∀ j, Since n i₀ (ts ++ [u]) j → j < ts.length → Since n i₀ ts j := by
    intro j hj hlt
    refine hj.congr hs.ancestors hlt fun k t' hk ht' => ⟨t', ?_, rfl⟩
    rwa [getElem?_append_left hk] at ht'
  intro j t hj ht
  rcases getElem?_append_one ht with ⟨hlt, ht⟩ | ⟨hlen, rfl⟩
  · exact h j t (hold j hj hlt) ht
  · cases hj with
    | self => omega
    | child _ hget hparent hk =>
      rw [ht] at hget
      cases hget
      exact hu _ hparent (hold _ hk (by
        have := hs.ancestors _ _ _ ht hparent
        omega))

/-- **Step lemma**: one event keeps a thread and what it created since below `SYSTEM`. -/
theorem Dropped.act (hs : Sane s.tasks) (h : Dropped n i₀ s.tasks)
    (hn : n ≤ s.tasks.length) (hi₀ : i₀ < n) (i : ℕ) (e : Event) :
    Dropped n i₀ (act s i e).tasks := by
  have hsane := hs.act i e
  rcases act_cases s i e with heq | ⟨t, c, ht, hc, heq⟩ | ⟨t, ht, heq⟩ | heq
  · rw [heq]
    exact h
  · rw [heq] at hsane ⊢
    intro j u hj hu
    have hlt : j < s.tasks.length := by
      have := (List.getElem?_eq_some_iff.mp hu).1
      rwa [List.length_set] at this
    have hold : Since n i₀ s.tasks j := by
      refine hj.congr hsane.ancestors hlt fun k t' _ hk => ?_
      rw [getElem?_set] at hk
      split at hk
      case isTrue hik =>
        split at hk
        case isTrue =>
          cases hk
          exact ⟨t, by rw [← hik, ht], rfl⟩
        case isFalse => cases hk
      case isFalse => exact ⟨t', hk, rfl⟩
    rw [getElem?_set] at hu
    split at hu
    case isTrue hij =>
      split at hu
      case isTrue =>
        cases hu
        exact hc.1 (h j t hold (by rw [← hij, ht]))
      case isFalse => cases hu
    case isFalse => exact h j u hold hu
  · rw [heq] at hsane ⊢
    exact h.append hsane hn hi₀ fun k hk hsince => by
      cases hk
      exact h i t hsince ht
  · rw [heq] at hsane ⊢
    exact h.append hsane hn hi₀ nofun

theorem length_act (s : Machine) (i : ℕ) (e : Event) :
    s.tasks.length ≤ (act s i e).tasks.length := by
  rcases act_cases s i e with heq | ⟨t, c, -, -, heq⟩ | ⟨t, -, heq⟩ | heq
  · exact Nat.le_of_eq (by rw [heq])
  · exact Nat.le_of_eq (by rw [heq, length_set])
  · rw [heq, length_append]
    omega
  · rw [heq, length_append]
    omega

theorem dropped_now (ht : ts[i]? = some t) (hrole : t.cred.role ≠ .system) :
    Dropped ts.length i ts := by
  intro j u hj hu
  cases hj with
  | self =>
    rw [ht] at hu
    cases hu
    exact hrole
  | child hn _ _ _ =>
    have := (List.getElem?_eq_some_iff.mp hu).1
    omega

/-- **`SYSTEM` is not regained.**  In every run of the system, from a state that `sched_init` leads
to: if thread `i` is not `SYSTEM`, then from then on neither it nor any thread it forks or spawns,
nor any that these do, is `SYSTEM`; and the effective set of every thread lies in its permitted
one. -/
theorem never_system_again {evs evs' : List (ℕ × Event)} {s s' : Machine}
    (h : Run MachineStep schedInit evs s) (h' : Run MachineStep s evs' s') :
    (∀ t ∈ s'.tasks, t.cred.capsEff &&& t.cred.capsPrm = t.cred.capsEff) ∧
      ∀ i t, s.tasks[i]? = some t → t.cred.role ≠ .system →
        ∀ j u, Since s.tasks.length i s'.tasks j → s'.tasks[j]? = some u →
          u.cred.role ≠ .system := by
  have hstep : ∀ s e s', Sane s.tasks → MachineStep s e s' → Sane s'.tasks := by
    intro s e s' hs hst
    rw [MachineStep] at hst
    rw [hst]
    exact hs.act e.1 e.2
  have hsane : Sane s.tasks := h.invariant (fun s => Sane s.tasks) hstep sane_schedInit
  refine ⟨(h'.invariant (fun s => Sane s.tasks) hstep hsane).bounded, fun i t ht hrole => ?_⟩
  have hi : i < s.tasks.length := (List.getElem?_eq_some_iff.mp ht).1
  have hinv := h'.invariant
    (fun u => Sane u.tasks ∧ s.tasks.length ≤ u.tasks.length ∧ Dropped s.tasks.length i u.tasks)
    (fun u e u' hu hst => by
      obtain ⟨hus, hlen, hdrop⟩ := hu
      rw [MachineStep] at hst
      rw [hst]
      exact ⟨hus.act e.1 e.2, Nat.le_trans hlen (length_act u e.1 e.2),
        hdrop.act hus hlen hi e.1 e.2⟩)
    ⟨hsane, Nat.le_refl _, dropped_now ht hrole⟩
  exact hinv.2.2

/-- Boot, the start of init, and init drops to uid 1000. -/
def initDrops : List (ℕ × Event) := [(0, .execInit true), (2, .call (.setuid 1000))]

/-- It forks, the child asks for uid 0 and all capabilities, init exits and is started again. -/
def initForks : List (ℕ × Event) :=
  [(2, .call (.fork true)), (3, .call (.setuid 0)), (3, .call (.setcap 0xFFFFFFFF)), (2, .exit),
    (0, .yield true), (3, .call (.spawn true))]

theorem never_system_again_init : ∃ s s', Run MachineStep schedInit initDrops s ∧
    Run MachineStep s initForks s' ∧
    (∀ t ∈ s'.tasks, t.cred.capsEff &&& t.cred.capsPrm = t.cred.capsEff) ∧
    ∀ j u, Since 3 2 s'.tasks j → s'.tasks[j]? = some u → u.cred.role ≠ .system := by
  have h := run_foldl (fun s (e : ℕ × Event) => act s e.1 e.2) schedInit initDrops
  have h' := run_foldl (fun s (e : ℕ × Event) => act s e.1 e.2)
    (initDrops.foldl (fun s e => act s e.1 e.2) schedInit) initForks
  obtain ⟨hbound, hdrop⟩ := never_system_again h h'
  have hlen : (initDrops.foldl (fun s e => act s e.1 e.2) schedInit).tasks.length = 3 := by
    decide +kernel
  rw [hlen] at hdrop
  exact ⟨_, _, h, h', hbound, hdrop 2 ⟨(sysSetuid threadSetSystem 1000).2, some 0⟩
    (by decide +kernel) (by decide +kernel)⟩

end AxiomeOS.Security
