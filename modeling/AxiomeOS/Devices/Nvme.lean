import Mathlib.Algebra.Group.Nat.Defs
import Mathlib.Data.List.Induction
import Mathlib.Logic.Function.Basic

/-!
# The completion queue of the NVMe driver

`nvme_submit` writes a command, rings the doorbell and then scans the whole completion ring, again
and again, for an entry with the expected phase and the id of the command.  The controller posts
one completion per command in ring order, with a phase bit that is inverted on each lap.

The ring holds the entries of the current lap before the head, which have the expected phase and
other ids, and entries of the lap before behind it, which have the other phase (`Inv`).  So the
only entry a scan can stop at is the one under the head (`Inv.scan`), and over any number of
commands each call returns the status of its own (`submits_return_own_status`).
-/

namespace AxiomeOS.Nvme

open List

/-- What the driver reads of a completion entry: the id in 16 bits, and the status code in 15 bits
below the phase. -/
structure Cqe where
  cid : ℕ
  status : ℕ

/-- A queue of 64 entries: word 0 of the submission entries and the indices of `nvme_queue`, with
the counter that names the commands of the admin queue. -/
structure Queue where
  admin : Bool
  adminCid : ℕ
  sq : ℕ → ℕ
  sqTail : ℕ
  cqHead : ℕ
  cqPhase : ℕ

/-- The id of the next command. -/
def Queue.cid (q : Queue) : ℕ := if q.admin then q.adminCid else q.sqTail

/-- The command is written and the tail moved on. -/
def Queue.ring (q : Queue) (opcode : ℕ) : Queue :=
  { q with
    adminCid := if q.admin then (q.adminCid + 1) % 2 ^ 16 else q.adminCid
    sq := Function.update q.sq q.sqTail (opcode + q.cid * 2 ^ 16)
    sqTail := (q.sqTail + 1) % 64 }

/-- One pass over the completion ring, which the controller writes meanwhile: `cq τ` is the ring at
the time `τ` of a read. -/
def scan (q : Queue) (cid : ℕ) (cq : ℕ → ℕ → Cqe) (guard : ℕ) : Option ℕ :=
  (range 64).find? fun i =>
    let c := cq (64 * guard + i) ((q.cqHead + i) % 64)
    decide (c.status / 2 ^ 15 = q.cqPhase ∧ c.cid = cid)

/-- The loop that consumes the entries up to the one found.  The head passes all slots in 64
turns. -/
def consume (consumed : ℕ) : ℕ → Queue → Queue
  | 0, q => q
  | n + 1, q =>
    if q.cqHead = consumed then q
    else
      let head := (q.cqHead + 1) % 64
      consume consumed n
        { q with cqHead := head, cqPhase := if head = 0 then q.cqPhase ^^^ 1 else q.cqPhase }

/-- The polling loop: the entry found, or nothing when the passes are used up. -/
def poll (q : Queue) (cid : ℕ) (cq : ℕ → ℕ → Cqe) : ℕ → ℕ → Queue × Option Cqe
  | 0, _ => (q, none)
  | n + 1, guard =>
    match scan q cid cq guard with
    | some i =>
      let idx := (q.cqHead + i) % 64
      (consume ((idx + 1) % 64) 64 q, some (cq (64 * guard + i) idx))
    | none => poll q cid cq n (guard + 1)

/-- `nvme_submit`: the queue after the call, the value returned and the entry for `out`.  The
completion ring over time depends on the submission ring, which the controller reads. -/
def nvmeSubmit (q : Queue) (opcode : ℕ) (cq : (ℕ → ℕ) → ℕ → ℕ → Cqe) : Queue × ℕ × Option Cqe :=
  let r := poll (q.ring opcode) q.cid (cq (q.ring opcode).sq) 4000000 0
  (r.1, r.2.elim 0xFFFF fun c => c.status % 2 ^ 15, r.2)

/-! ### The controller -/

/-- A command: its opcode, the status code that it completes with, and the time at which the
controller posts the completion. -/
structure Command where
  opcode : ℕ
  code : ℕ
  time : ℕ
  opcode_lt : opcode < 2 ^ 8
  code_lt : code < 2 ^ 15

/-- The driver's queue, the completion ring in memory, the number of completions posted, and what
the calls of `nvme_submit` returned. -/
structure System where
  queue : Queue
  cq : ℕ → Cqe
  posted : ℕ
  returned : List ℕ

/-- The phase of the completion `n`. -/
def lapPhase (n : ℕ) : ℕ := (n / 64 + 1) % 2

/-- The controller fetches the next command and posts its completion in the next slot. -/
def System.post (s : System) (code : ℕ) (sq : ℕ → ℕ) : ℕ → Cqe :=
  Function.update s.cq (s.posted % 64)
    ⟨sq (s.posted % 64) / 2 ^ 16, code + lapPhase s.posted * 2 ^ 15⟩

/-- One command, from its submission to the return of `nvme_submit`. -/
def System.submit (s : System) (c : Command) : System :=
  let r := nvmeSubmit s.queue c.opcode fun sq τ => if τ < c.time then s.cq else s.post c.code sq
  { queue := r.1
    cq := s.post c.code (s.queue.ring c.opcode).sq
    posted := s.posted + 1
    returned := s.returned ++ [r.2.1] }

/-- The queue as `nvme_probe` sets it up, in memory filled with zeros. -/
def probed (admin : Bool) : System :=
  ⟨⟨admin, 0, fun _ => 0, 0, 0, 1⟩, fun _ => ⟨0, 0⟩, 0, []⟩

/-! ### One command -/

/-- The id of the command `n`. -/
def nthCid (admin : Bool) (n : ℕ) : ℕ := if admin then n % 2 ^ 16 else n % 64

/-- The queue after `n` commands: the slots before the head were written in this lap, the others
in the lap before. -/
structure Inv (admin : Bool) (n : ℕ) (s : System) : Prop where
  kind : s.queue.admin = admin
  cid : s.queue.cid = nthCid admin n
  tail : s.queue.sqTail = n % 64
  head : s.queue.cqHead = n % 64
  phase : s.queue.cqPhase = lapPhase n
  posted : s.posted = n
  now : ∀ j, j < n % 64 → (s.cq j).status / 2 ^ 15 = lapPhase n ∧
    (s.cq j).cid = nthCid admin (n / 64 * 64 + j)
  old : ∀ j, n % 64 ≤ j → j < 64 → (s.cq j).status / 2 ^ 15 = (lapPhase n + 1) % 2

/-- The completion of the command `n`. -/
def own (admin : Bool) (n : ℕ) (c : Command) : Cqe := ⟨nthCid admin n, c.code + lapPhase n * 2 ^ 15⟩

variable {admin : Bool} {n : ℕ} {s : System} {q : Queue} {c : Command}

theorem own_status : (own admin n c).status / 2 ^ 15 = lapPhase n ∧
    (own admin n c).status % 2 ^ 15 = c.code := by
  have := c.code_lt
  simp only [own]
  omega

theorem nthCid_ne {j : ℕ} (hj : j < n % 64) : nthCid admin (n / 64 * 64 + j) ≠ nthCid admin n := by
  cases admin <;> simp only [nthCid, Bool.false_eq_true, if_true, if_false] <;> omega

theorem consume_next (q : Queue) : consume ((q.cqHead + 1) % 64) 64 q =
    { q with
      cqHead := (q.cqHead + 1) % 64
      cqPhase := if (q.cqHead + 1) % 64 = 0 then q.cqPhase ^^^ 1 else q.cqPhase } := by
  rw [consume, if_neg (by omega), consume, if_pos rfl]

/-- **The polling loop** stops at the first pass after the completion was posted, if it still makes
that pass. -/
theorem poll_eq {cid : ℕ} {cq : ℕ → ℕ → Cqe} {time : ℕ} {e : Cqe} (hq : q.cqHead < 64)
    (hscan : ∀ g, scan q cid cq g = if time ≤ 64 * g then some 0 else none)
    (he : ∀ τ, time ≤ τ → cq τ q.cqHead = e) (n guard : ℕ) (h : 64 * guard < time + 64) :
    poll q cid cq n guard = if time + 64 ≤ 64 * (guard + n) then
      (consume ((q.cqHead + 1) % 64) 64 q, some e) else (q, none) := by
  induction n generalizing guard with
  | zero => rw [poll, if_neg (by omega)]
  | succ n ih =>
    rw [poll, hscan]
    by_cases hg : time ≤ 64 * guard
    · simp only [if_pos hg, if_pos (show time + 64 ≤ 64 * (guard + (n + 1)) by omega),
        Nat.add_zero, Nat.mod_eq_of_lt hq, he _ hg]
    · rw [if_neg hg, ← Nat.add_assoc, Nat.add_right_comm]
      exact ih (guard + 1) (by omega)

namespace Inv

variable (h : Inv admin n s)
include h

/-- No entry in the ring passes for the completion of the next command. -/
theorem stale {j : ℕ} (hj : j < 64) :
    ¬ ((s.cq j).status / 2 ^ 15 = lapPhase n ∧ (s.cq j).cid = nthCid admin n) := by
  rintro ⟨hphase, hcid⟩
  by_cases hlt : j < n % 64
  · exact nthCid_ne hlt ((h.now j hlt).2.symm.trans hcid)
  · have hold := h.old j (Nat.not_lt.mp hlt) hj
    rw [hphase, lapPhase] at hold
    omega

/-- The entry that the controller posts is under the head and carries the id of the command. -/
theorem post_eq (c : Command) : s.post c.code (s.queue.ring c.opcode).sq =
    Function.update s.cq (n % 64) (own admin n c) := by
  have hop := c.opcode_lt
  have hcid : (c.opcode + nthCid admin n * 2 ^ 16) / 2 ^ 16 = nthCid admin n := by omega
  simp only [System.post, h.posted, Queue.ring, ← h.tail, Function.update_self, h.cid, hcid, own]

/-- **A pass over the ring** finds the entry under the head, once it is posted, and no other. -/
theorem scan_eq (c : Command) (guard : ℕ) : scan (s.queue.ring c.opcode) (nthCid admin n)
    (fun τ => if τ < c.time then s.cq else s.post c.code (s.queue.ring c.opcode).sq) guard =
      if c.time ≤ 64 * guard then some 0 else none := by
  rw [h.post_eq c]
  simp only [scan, Queue.ring, h.head, h.phase]
  split
  · rename_i hg
    rw [find?_range_eq_some]
    refine ⟨?_, mem_range.mpr (by decide), fun j hj => absurd hj (Nat.not_lt_zero j)⟩
    rw [decide_eq_true_eq, if_neg (by omega), Nat.add_zero, Nat.mod_mod, Function.update_self]
    exact ⟨own_status.1, rfl⟩
  · rename_i hg
    rw [find?_range_eq_none]
    intro i hi
    rw [Bool.not_eq_true', decide_eq_false_iff_not]
    split
    · exact h.stale (Nat.mod_lt _ (by decide))
    · -- the completion came during the pass, after the slot under the head was read
      rw [Function.update_of_ne (by omega)]
      exact h.stale (Nat.mod_lt _ (by decide))

/-- The call of `nvme_submit` for one command. -/
theorem nvmeSubmit_eq (c : Command) : nvmeSubmit s.queue c.opcode
    (fun sq τ => if τ < c.time then s.cq else s.post c.code sq) =
      if c.time + 64 ≤ 64 * 4000000 then
        ({ s.queue.ring c.opcode with cqHead := (n + 1) % 64, cqPhase := lapPhase (n + 1) },
          c.code, some (own admin n c))
      else (s.queue.ring c.opcode, 0xFFFF, none) := by
  have hhead : (s.queue.ring c.opcode).cqHead = n % 64 := h.head
  have hphase : (s.queue.ring c.opcode).cqPhase = lapPhase n := h.phase
  have hlap : (if (n % 64 + 1) % 64 = 0 then lapPhase n ^^^ 1 else lapPhase n) =
      lapPhase (n + 1) := by
    have hflip : lapPhase n ^^^ 1 = (lapPhase n + 1) % 2 := by
      rcases Nat.mod_two_eq_zero_or_one (n / 64 + 1) with h | h <;> simp [lapPhase, h]
    rw [hflip, lapPhase, lapPhase]
    split <;> omega
  have hpoll := poll_eq (hhead ▸ Nat.mod_lt n (by decide)) (h.scan_eq c)
    (fun τ hτ => by rw [if_neg (Nat.not_lt.mpr hτ), h.post_eq c, hhead, Function.update_self])
    4000000 0 (by omega)
  rw [consume_next, hhead, hphase, hlap, Nat.mod_add_mod, Nat.zero_add] at hpoll
  simp only [nvmeSubmit, h.cid, hpoll]
  split
  · rw [Option.elim_some, own_status.2]
  · rfl

theorem returned (c : Command) : (s.submit c).returned =
    s.returned ++ [if c.time + 64 ≤ 64 * 4000000 then c.code else 0xFFFF] := by
  simp only [System.submit, h.nvmeSubmit_eq c]
  split <;> rfl

/-- **One command** moves the queue on by one entry. -/
theorem submit (c : Command) (hc : c.time + 64 ≤ 64 * 4000000) :
    Inv admin (n + 1) (s.submit c) := by
  have hlap : lapPhase n = (n / 64 + 1) % 2 ∧ lapPhase (n + 1) = ((n + 1) / 64 + 1) % 2 :=
    ⟨rfl, rfl⟩
  simp only [System.submit, h.nvmeSubmit_eq c, if_pos hc, h.post_eq c]
  refine ⟨h.kind, ?_, ?_, rfl, rfl, by rw [h.posted], fun j hj => ?_, fun j hj hj' => ?_⟩
  · have hcid := h.cid
    simp only [Queue.cid, Queue.ring, h.kind, h.tail, nthCid] at hcid ⊢
    cases admin <;> simp only [Bool.false_eq_true, if_true, if_false] at hcid ⊢ <;> omega
  · show (s.queue.sqTail + 1) % 64 = _
    rw [h.tail]
    omega
  · have hdiv : (n + 1) / 64 = n / 64 := by omega
    rw [hlap.2, hdiv, ← hlap.1]
    by_cases hjn : j = n % 64
    · simp only [hjn, Function.update_self, Nat.div_add_mod' n 64]
      exact ⟨own_status.1, rfl⟩
    · simp only [Function.update_of_ne hjn]
      exact h.now j (by omega)
  · by_cases hjn : j = n % 64
    · simp only [hjn, Function.update_self, own_status.1]
      omega
    · simp only [Function.update_of_ne hjn]
      by_cases hlt : j < n % 64
      · rw [(h.now j hlt).1]
        omega
      · rw [h.old j (by omega) hj']
        omega

end Inv

theorem inv_probed (admin : Bool) : Inv admin 0 (probed admin) :=
  ⟨rfl, by cases admin <;> rfl, rfl, rfl, rfl, rfl, fun j hj => absurd hj (Nat.not_lt_zero j),
    fun _ _ _ => by simp [probed, lapPhase]⟩

/-- The queue after any number of commands that complete in time. -/
theorem inv_submits (admin : Bool) (cs : List Command)
    (hcs : ∀ c ∈ cs, c.time + 64 ≤ 64 * 4000000) :
    Inv admin cs.length (cs.foldl System.submit (probed admin)) ∧
      (cs.foldl System.submit (probed admin)).returned = cs.map Command.code := by
  induction cs using reverseRecOn with
  | nil => exact ⟨inv_probed admin, rfl⟩
  | append_singleton cs c ih =>
    obtain ⟨hinv, hret⟩ := ih fun c hc => hcs c (mem_append_left _ hc)
    have hc := hcs c (mem_append_right _ (mem_singleton_self c))
    rw [foldl_append, length_append, map_append, ← hret]
    refine ⟨hinv.submit c hc, (hinv.returned c).trans ?_⟩
    rw [if_pos hc, map_singleton]

/-- **Each call returns the status of its own command.**  For any number of commands, on either
queue, to a controller that posts each completion before `nvme_submit` makes the last of its
4,000,000 passes. -/
theorem submits_return_own_status (admin : Bool) (cs : List Command)
    (hcs : ∀ c ∈ cs, c.time + 64 ≤ 64 * 4000000) :
    let s := cs.foldl System.submit (probed admin)
    s.returned = cs.map Command.code ∧ s.queue.cqHead = cs.length % 64 ∧
      s.queue.sqTail = cs.length % 64 ∧ s.queue.cqPhase = (cs.length / 64 + 1) % 2 := by
  obtain ⟨hinv, hret⟩ := inv_submits admin cs hcs
  exact ⟨hret, hinv.head, hinv.tail, hinv.phase⟩

/-- A hundred reads, each answered during the first pass, with the status code 3. -/
theorem submits_return_own_status_hundred :
    ((replicate 100 (⟨2, 3, 5, by decide, by decide⟩ : Command)).foldl System.submit
      (probed false)).returned = replicate 100 3 :=
  (submits_return_own_status false _ fun c hc => by
    rw [eq_of_mem_replicate hc]
    decide).1.trans (map_replicate ..)

/-- **A late completion.**  It comes after the last pass, and `nvme_submit` has given up by
then. -/
theorem late_completion_not_returned :
    ((probed false).submit ⟨2, 0, 64 * 4000000, by decide, by decide⟩).returned = [0xFFFF] :=
  (inv_probed false).returned _

end AxiomeOS.Nvme
