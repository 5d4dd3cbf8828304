import AxiomeOS.Lib.Bits
import AxiomeOS.Lib.Runs

/-!
# Credentials: roles, capabilities and the calls that change them

The security context of a thread (`kernel/sched.h`), the role table (`kernel/security.c`),
the uid-to-role map (`kernel/posix.c`) and the system calls that read or write the context:
`setuid`, `setgid` and `setcap` (`kernel/syscall.c`), and `fork`, `spawn` and `exec`, which
create a thread through `sched_spawn_user_in` or keep the calling one
(`sched_set_current_image`).

A *family* is a thread together with its descendants.  A run of a family is a list of
calls, each made by one of its members; a call that creates a thread carries the outcome of
its allocations, since `sched_spawn_user_in` may fail.

`setuid` is gated by `CAP_SETUID`, and replaces the whole context by the row of the role
table for the new uid.  So what a family may come to hold is its first thread's permitted
set together with the rows it reached through successful `setuid` calls, and a family whose
first thread lacks `CAP_SETUID` never gains anything.
-/

namespace AxiomeOS.Security

open Bits Runs List

variable {fam : List Cred}

/-- `uid_t` and `gid_t`. -/
abbrev Uid := BitVec 32

/-- `enum user_role`. -/
inductive UserRole where
  | guest | user | admin | system
  deriving DecidableEq, Repr

def capFork : U64 := 1#64 <<< 0
def capFileRead : U64 := 1#64 <<< 1
def capFileWriteSelf : U64 := 1#64 <<< 2
def capFileWriteAny : U64 := 1#64 <<< 3
def capKillSelf : U64 := 1#64 <<< 4
def capKillAny : U64 := 1#64 <<< 5
def capMount : U64 := 1#64 <<< 6
def capUmount : U64 := 1#64 <<< 7
def capDriver : U64 := 1#64 <<< 8
def capNet : U64 := 1#64 <<< 9
def capNetRaw : U64 := 1#64 <<< 10
def capIpc : U64 := 1#64 <<< 11
def capSetuid : U64 := 1#64 <<< 12
def capSetgid : U64 := 1#64 <<< 13
def capUserMgmt : U64 := 1#64 <<< 14
def capServiceMgmt : U64 := 1#64 <<< 15
def capSysAdmin : U64 := 1#64 <<< 16
def capSignalOther : U64 := 1#64 <<< 17
def capPtrace : U64 := 1#64 <<< 18
def capBoot : U64 := 1#64 <<< 19
def capTime : U64 := 1#64 <<< 20
def capResource : U64 := 1#64 <<< 21
def capExecute : U64 := 1#64 <<< 22
def capFileWriteTmp : U64 := 1#64 <<< 23

/-- The static role table `role_caps`. -/
def roleCaps : UserRole → U64
  | .guest => capFork ||| capFileRead ||| capFileWriteTmp ||| capExecute
  | .user =>
    capFork ||| capFileRead ||| capFileWriteSelf ||| capKillSelf ||| capNet ||| capIpc |||
      capSetuid ||| capSetgid ||| capExecute
  | .admin =>
    capFork ||| capFileRead ||| capFileWriteSelf ||| capKillSelf ||| capNet ||| capIpc |||
      capSetuid ||| capSetgid ||| capExecute |||
      capFileWriteAny ||| capKillAny ||| capSignalOther ||| capMount ||| capUmount |||
      capDriver ||| capNetRaw ||| capUserMgmt ||| capServiceMgmt ||| capSysAdmin |||
      capPtrace ||| capBoot ||| capTime ||| capResource
  | .system => 0xFFFFFFFF

/-- `posix_uid_to_role`. -/
def posixUidToRole (uid : Uid) : UserRole :=
  if uid = 0 then .admin
  else if uid < 1000 then .admin
  else if uid = 65534 then .guest
  else .user

theorem posixUidToRole_ne_system (uid : Uid) : posixUidToRole uid ≠ .system := by
  unfold posixUidToRole
  split
  · simp
  · split
    · simp
    · split <;> simp

/-- The per-process security context of `struct thread`. -/
structure Cred where
  uid : Uid
  euid : Uid
  suid : Uid
  gid : Uid
  egid : Uid
  sgid : Uid
  role : UserRole
  capsEff : U64
  capsPrm : U64
  capsInh : U64
  deriving DecidableEq, Repr

/-- `(uint64_t)-EPERM` and the value of a call that succeeded. -/
def negEperm : U64 := -1
def retOk : U64 := 0

/-- `sys_setuid`. -/
def sysSetuid (t : Cred) (a1 : U64) : U64 × Cred :=
  if t.role ≠ .system ∧ ¬ flagSet t.capsPrm capSetuid then (negEperm, t)
  else
    let uid : Uid := a1.setWidth 32
    let role := posixUidToRole uid
    (retOk, { t with
      uid := uid, euid := uid, suid := uid, role := role
      capsEff := roleCaps role, capsPrm := roleCaps role, capsInh := roleCaps role })

/-- `sys_setgid`. -/
def sysSetgid (t : Cred) (a1 : U64) : U64 × Cred :=
  if t.role ≠ .system ∧ ¬ flagSet t.capsPrm capSetgid then (negEperm, t)
  else
    let gid : Uid := a1.setWidth 32
    (retOk, { t with gid := gid, egid := gid, sgid := gid })

/-- `sys_setcap`. -/
def sysSetcap (t : Cred) (a1 : U64) : U64 × Cred :=
  if t.role ≠ .system ∧ ¬ flagSet t.capsPrm capSysAdmin then (negEperm, t)
  else (retOk, { t with capsEff := a1 &&& t.capsPrm })

/-- The default context that `thread_init_vfs` writes. -/
def threadInitCred : Cred :=
  { uid := 0, euid := 0, suid := 0, gid := 0, egid := 0, sgid := 0, role := .user
    capsEff := roleCaps .user, capsPrm := roleCaps .user, capsInh := roleCaps .user }

/-- The context `sched_spawn_user_in` gives a new thread: the default one, overwritten field
by field with that of the current thread when there is one. -/
def schedSpawnUserIn (current : Option Cred) : Cred :=
  match current with
  | none => threadInitCred
  | some parent =>
    { threadInitCred with
      uid := parent.uid, euid := parent.euid, suid := parent.suid
      gid := parent.gid, egid := parent.egid, sgid := parent.sgid
      role := parent.role
      capsEff := parent.capsEff, capsPrm := parent.capsPrm, capsInh := parent.capsInh }

theorem schedSpawnUserIn_some (parent : Cred) : schedSpawnUserIn (some parent) = parent := rfl

/-- A system call of a family member.  `fork` and `spawn` carry whether the new thread could
be built (address space, program image, thread structure and kernel stack); `exec` carries
whether the new image was installed, which leaves the context alone either way. -/
inductive Syscall where
  | setuid (a1 : U64)
  | setgid (a1 : U64)
  | setcap (a1 : U64)
  | fork (built : Bool)
  | spawn (built : Bool)
  | exec (installed : Bool)
  deriving DecidableEq, Repr

/-- What a call does to the family, made by its member number `i`.  A number that names no
member makes no call. -/
def issue (fam : List Cred) (i : ℕ) (c : Syscall) : List Cred :=
  match fam[i]? with
  | none => fam
  | some t =>
    match c with
    | .setuid a1 => fam.set i (sysSetuid t a1).2
    | .setgid a1 => fam.set i (sysSetgid t a1).2
    | .setcap a1 => fam.set i (sysSetcap t a1).2
    | .fork built => if built then fam ++ [schedSpawnUserIn (some t)] else fam
    | .spawn built => if built then fam ++ [schedSpawnUserIn (some t)] else fam
    | .exec _ => fam

/-- One call of one member, as a step of the family. -/
def FamilyStep (fam : List Cred) (call : ℕ × Syscall) (fam' : List Cred) : Prop :=
  fam' = issue fam call.1 call.2

/-! ### What one call can do -/

/-- The uid that a call hands to a `setuid` that succeeds, if it is one. -/
def grantedBy (fam : List Cred) (call : ℕ × Syscall) : List Uid :=
  match fam[call.1]?, call.2 with
  | some t, .setuid a1 => if (sysSetuid t a1).1 = retOk then [a1.setWidth 32] else []
  | _, _ => []

/-- The uids handed to successful `setuid` calls along a run, in order. -/
def grantedUids (fam : List Cred) : List (ℕ × Syscall) → List Uid
  | [] => []
  | call :: calls => grantedBy fam call ++ grantedUids (issue fam call.1 call.2) calls

section

variable (t : Cred) (a1 : U64)

/-- `setuid` either refuses and changes nothing, or is made with `CAP_SETUID` (or by a
`SYSTEM` thread) and installs the row of the role table for the new uid. -/
theorem sysSetuid_cases :
    (sysSetuid t a1 = (negEperm, t) ∧ t.role ≠ .system ∧ flagSet t.capsPrm capSetuid = false) ∨
      ((sysSetuid t a1).1 = retOk ∧
        (t.role = .system ∨ flagSet t.capsPrm capSetuid = true) ∧
        (sysSetuid t a1).2.role = posixUidToRole (a1.setWidth 32) ∧
        (sysSetuid t a1).2.capsPrm = roleCaps (posixUidToRole (a1.setWidth 32))) := by
  unfold sysSetuid
  split
  · rename_i h
    exact .inl ⟨rfl, h.1, by simpa using h.2⟩
  · rename_i h
    refine .inr ⟨rfl, ?_, rfl, rfl⟩
    by_cases hs : t.role = .system
    · exact .inl hs
    · exact .inr (by simpa [hs] using h)

theorem sysSetgid_role : (sysSetgid t a1).2.role = t.role := by
  unfold sysSetgid
  split <;> rfl

theorem sysSetgid_capsPrm : (sysSetgid t a1).2.capsPrm = t.capsPrm := by
  unfold sysSetgid
  split <;> rfl

theorem sysSetcap_role : (sysSetcap t a1).2.role = t.role := by
  unfold sysSetcap
  split <;> rfl

theorem sysSetcap_capsPrm : (sysSetcap t a1).2.capsPrm = t.capsPrm := by
  unfold sysSetcap
  split <;> rfl

end

/-- **One call, inverted.**  After a call every member carries either the role and permitted
set of a member before it, or those of a uid the call was granted. -/
theorem mem_issue {call : ℕ × Syscall} {t : Cred} (ht : t ∈ issue fam call.1 call.2) :
    (∃ t' ∈ fam, t.role = t'.role ∧ t.capsPrm = t'.capsPrm) ∨
      ∃ uid ∈ grantedBy fam call, t.role = posixUidToRole uid ∧
        t.capsPrm = roleCaps (posixUidToRole uid) := by
  obtain ⟨i, c⟩ := call
  unfold issue at ht
  cases hi : fam[i]? with
  | none =>
    rw [hi] at ht
    exact .inl ⟨t, ht, rfl, rfl⟩
  | some t1 =>
    have hmem : t1 ∈ fam := mem_of_getElem? hi
    simp only [hi] at ht
    cases c with
    | setuid a1 =>
      rcases mem_or_eq_of_mem_set ht with ht | rfl
      · exact .inl ⟨t, ht, rfl, rfl⟩
      · rcases sysSetuid_cases t1 a1 with ⟨heq, -, -⟩ | ⟨hret, -, hrole, hcaps⟩
        · rw [heq]
          exact .inl ⟨t1, hmem, rfl, rfl⟩
        · refine .inr ⟨a1.setWidth 32, ?_, hrole, hcaps⟩
          simp [grantedBy, hi, hret]
    | setgid a1 =>
      rcases mem_or_eq_of_mem_set ht with ht | rfl
      · exact .inl ⟨t, ht, rfl, rfl⟩
      · exact .inl ⟨t1, hmem, sysSetgid_role t1 a1, sysSetgid_capsPrm t1 a1⟩
    | setcap a1 =>
      rcases mem_or_eq_of_mem_set ht with ht | rfl
      · exact .inl ⟨t, ht, rfl, rfl⟩
      · exact .inl ⟨t1, hmem, sysSetcap_role t1 a1, sysSetcap_capsPrm t1 a1⟩
    | fork built | spawn built =>
      cases built with
      | false => exact .inl ⟨t, by simpa using ht, rfl, rfl⟩
      | true =>
        have happ : t ∈ fam ++ [schedSpawnUserIn (some t1)] := ht
        rcases mem_append.mp happ with ht | ht
        · exact .inl ⟨t, ht, rfl, rfl⟩
        · rw [mem_singleton.mp ht, schedSpawnUserIn_some]
          exact .inl ⟨t1, hmem, rfl, rfl⟩
    | exec installed => exact .inl ⟨t, ht, rfl, rfl⟩

/-! ### What a run can do -/

/-- No member is `SYSTEM`, and every permitted capability satisfies `P`. -/
def PermittedWithin (P : ℕ → Prop) (fam : List Cred) : Prop :=
  ∀ t ∈ fam, t.role ≠ .system ∧ ∀ k, t.capsPrm.getLsbD k = true → P k

variable {P : ℕ → Prop}

/-- **Step lemma.**  A call keeps the bound `P` when every uid it is granted has a role whose
row lies within `P`. -/
theorem PermittedWithin.issue (h : PermittedWithin P fam) (call : ℕ × Syscall)
    (hgrant : ∀ uid ∈ grantedBy fam call,
      ∀ k, (roleCaps (posixUidToRole uid)).getLsbD k = true → P k) :
    PermittedWithin P (issue fam call.1 call.2) := by
  intro t ht
  rcases mem_issue ht with ⟨t', ht', hrole, hcaps⟩ | ⟨uid, huid, hrole, hcaps⟩
  · rw [hrole, hcaps]
    exact h t' ht'
  · rw [hrole, hcaps]
    exact ⟨posixUidToRole_ne_system uid, hgrant uid huid⟩

/-- **Run lemma.**  The bound is kept along a run when every granted uid stays within it. -/
theorem PermittedWithin.run {fam' : List Cred} {calls : List (ℕ × Syscall)}
    (hrun : Run FamilyStep fam calls fam') (h : PermittedWithin P fam)
    (hgrant : ∀ uid ∈ grantedUids fam calls,
      ∀ k, (roleCaps (posixUidToRole uid)).getLsbD k = true → P k) : PermittedWithin P fam' := by
  induction hrun with
  | nil => exact h
  | cons hstep _ ih =>
    subst hstep
    simp only [grantedUids, mem_append] at hgrant
    exact ih (h.issue _ fun uid huid => hgrant uid (.inl huid))
      fun uid huid => hgrant uid (.inr huid)

theorem flagSet_capSetuid (caps : U64) : flagSet caps capSetuid = caps.getLsbD 12 :=
  flagSet_shift caps 12 (by decide)

/-- A family bounded by a set without `CAP_SETUID` is granted no uid by any call. -/
theorem PermittedWithin.grantedBy_nil
    (h : PermittedWithin P fam) (hP : ¬ P 12) (call : ℕ × Syscall) : grantedBy fam call = [] := by
  obtain ⟨i, c⟩ := call
  unfold grantedBy
  cases hi : fam[i]? with
  | none => rfl
  | some t =>
    cases c with
    | setuid a1 =>
      obtain ⟨hsys, hbits⟩ := h t (mem_of_getElem? hi)
      rcases sysSetuid_cases t a1 with ⟨heq, -, -⟩ | ⟨-, hgate, -, -⟩
      · simp [heq, negEperm, retOk]
      · rcases hgate with hgate | hgate
        · exact absurd hgate hsys
        · rw [flagSet_capSetuid] at hgate
          exact absurd (hbits 12 hgate) hP
    | setgid | setcap | fork | spawn | exec => rfl

theorem grantedUids_nil (hP : ¬ P 12) (calls : List (ℕ × Syscall)) :
    ∀ fam, PermittedWithin P fam → grantedUids fam calls = [] := by
  induction calls with
  | nil => intro fam _; rfl
  | cons call calls ih =>
    intro fam h
    have hnil := h.grantedBy_nil hP call
    have hnext : PermittedWithin P (issue fam call.1 call.2) := h.issue call (by simp [hnil])
    rw [grantedUids, hnil, ih _ hnext]
    rfl

/-- **What a family may hold.**  Along every run of calls of a `USER` or `GUEST` thread and its
descendants, each permitted capability of each member was permitted to the first thread at the
start, or belongs to the role of a uid the family passed to a successful `setuid`; the second
only happens when the first thread held `CAP_SETUID`. -/
theorem family_permitted_bounded (t₀ : Cred) (hrole : t₀.role = .user ∨ t₀.role = .guest)
    (calls : List (ℕ × Syscall)) (fam : List Cred) (hrun : Run FamilyStep [t₀] calls fam)
    (t : Cred) (ht : t ∈ fam) (k : ℕ) (hk : t.capsPrm.getLsbD k = true) :
    t₀.capsPrm.getLsbD k = true ∨
      (flagSet t₀.capsPrm capSetuid = true ∧
        ∃ uid ∈ grantedUids [t₀] calls, (roleCaps (posixUidToRole uid)).getLsbD k = true) := by
  have hsys : t₀.role ≠ .system := by
    rcases hrole with h | h <;> simp [h]
  by_cases hcap : flagSet t₀.capsPrm capSetuid = true
  · have h0 : PermittedWithin (fun k => t₀.capsPrm.getLsbD k = true ∨
        ∃ uid ∈ grantedUids [t₀] calls, (roleCaps (posixUidToRole uid)).getLsbD k = true) [t₀] := by
      intro t' ht'
      rw [mem_singleton.mp ht']
      exact ⟨hsys, fun k hk => .inl hk⟩
    have h1 := h0.run hrun fun uid huid k hk => .inr ⟨uid, huid, hk⟩
    exact ((h1 t ht).2 k hk).imp_right fun h => ⟨hcap, h⟩
  · have h0 : PermittedWithin (fun k => t₀.capsPrm.getLsbD k = true) [t₀] := by
      intro t' ht'
      rw [mem_singleton.mp ht']
      exact ⟨hsys, fun k hk => hk⟩
    have hnil : grantedUids [t₀] calls = [] :=
      grantedUids_nil (by rwa [flagSet_capSetuid] at hcap) calls [t₀] h0
    have h1 := h0.run hrun (by simp [hnil])
    exact .inl ((h1 t ht).2 k hk)

/-- A human user's context, as the login path leaves it. -/
def userCred : Cred :=
  { uid := 1000, euid := 1000, suid := 1000, gid := 1000, egid := 1000, sgid := 1000
    role := .user
    capsEff := roleCaps .user, capsPrm := roleCaps .user, capsInh := roleCaps .user }

/-- The bound at work: a user forks, and the child becomes uid 0. -/
theorem family_permitted_bounded_fork_setuid :
    ∃ fam, Run FamilyStep [userCred] [(0, .fork true), (1, .setuid 0)] fam ∧
      ∀ t ∈ fam, ∀ k, t.capsPrm.getLsbD k = true → userCred.capsPrm.getLsbD k = true ∨
          (flagSet userCred.capsPrm capSetuid = true ∧
            ∃ uid ∈ grantedUids [userCred] [(0, .fork true), (1, .setuid 0)],
              (roleCaps (posixUidToRole uid)).getLsbD k = true) := by
  refine ⟨_, .cons rfl (.cons rfl (.nil _)), fun t ht k hk => ?_⟩
  exact family_permitted_bounded userCred (.inl rfl) _ _ (.cons rfl (.cons rfl (.nil _))) t ht k hk

/-- A user thread that calls `setuid(0)` comes to hold `CAP_SYS_ADMIN`, which it did not hold:
the permitted set of a `USER` family is not bounded by the one it started with. -/
theorem user_setuid_gains_sys_admin : ¬ ∀ (t₀ : Cred), t₀.role = .user ∨ t₀.role = .guest →
      ∀ (calls : List (ℕ × Syscall)) (fam : List Cred), Run FamilyStep [t₀] calls fam →
        ∀ t ∈ fam, ∀ k, t.capsPrm.getLsbD k = true → t₀.capsPrm.getLsbD k = true := by
  intro h
  have hrun : Run FamilyStep [userCred] [(0, .setuid 0)] (issue [userCred] 0 (.setuid 0)) :=
    .cons rfl (.nil _)
  have hmem : (sysSetuid userCred 0).2 ∈ issue [userCred] 0 (.setuid 0) := by decide
  have hadmin := h userCred (.inl rfl) _ _ hrun _ hmem 16 (by decide)
  cases hadmin

end AxiomeOS.Security
