import AxiomeOS.Init.Units

/-!
# The restart limit of init

`on_child_exit` gives a unit up when `restarts` has reached `maxfail`.  But only `start_unit`
counts, and `on_child_exit` starts the command again without it, so `restarts` stays 1: a limit
above 1 is never reached.
-/

namespace AxiomeOS.Init

open List

/-- `enum restart_policy`. -/
inductive RestartPolicy
  | once
  | always
  | onFailure

/-- `struct unit` as the supervision loop reads it, and how often the command was started. -/
structure Supervised extends InitUnit where
  policy : RestartPolicy
  maxfail : ℕ
  fails : ℕ
  starts : ℕ

/-- An exit of the process: its status, and what `sys_spawn_cmd` would return for a restart. -/
structure Exit where
  status : ℤ
  pid : ℤ

def Exit.failed (e : Exit) : Bool := 128 ≤ e.status || e.status != 0

/-- `want_restart` -/
def RestartPolicy.wants : RestartPolicy → Exit → Bool
  | .once, _ => false
  | .always, _ => true
  | .onFailure, e => e.failed

/-- `start_unit` -/
def Supervised.startUnit (u : Supervised) (pid : ℤ) : Supervised :=
  { u with
    toInitUnit := spawned pid u.toInitUnit
    starts := if pid < 0 then u.starts else u.starts + 1 }

def onChildExit (u : Supervised) (e : Exit) : Supervised :=
  if u.policy.wants e then
    let u := { u with fails := if e.failed then u.fails + 1 else 0 }
    if 0 < u.maxfail ∧ u.maxfail ≤ u.restarts then { u with state := .failed, pid := -1 }
    else if e.pid < 0 then { u with state := .failed, pid := -1 }
    else { u with state := .running, pid := e.pid, starts := u.starts + 1 }
  else { u with state := if e.failed then .failed else .exited, pid := -1 }

/-- An exit in the loop of `main`.  A unit without a process has none. -/
def supervise (u : Supervised) (e : Exit) : Supervised :=
  if u.state = .running then onChildExit { u with pid := -1 } e else u

variable (unit : List Char × List Char × List Char) (policy : RestartPolicy) (maxfail : ℕ)

/-- A unit of the configuration from its start on. -/
def life (pid : ℤ) (es : List Exit) : Supervised :=
  es.foldl supervise
    (Supervised.startUnit ⟨loadUnit unit.1 unit.2.1 unit.2.2, policy, maxfail, 0, 0⟩ pid)

/-- The command is started at most `maxfail` times, and the exit after the last time that wants a
restart marks the unit. -/
def Limited (pid : ℤ) (es : List Exit) : Prop :=
  (life unit policy maxfail pid es).starts ≤ maxfail ∧
    (maxfail ≤ (es.takeWhile policy.wants).length →
      (life unit policy maxfail pid es).state = .failed)

/-- The exit wants a restart, and the command can be started. -/
def RestartPolicy.respawns (e : Exit) : Bool := policy.wants e && decide (0 ≤ e.pid)

theorem foldl_supervise_of_down {u : Supervised} (h : u.state ≠ .running) (es : List Exit) :
    es.foldl supervise u = u := by
  induction es with
  | nil => rfl
  | cons e es ih => rw [foldl_cons, supervise, if_neg h, ih]

variable {policy}

theorem foldl_supervise_unwanted {u : Supervised} (hrun : u.state = .running) {e : Exit}
    (hw : u.policy.wants e = false) (es : List Exit) :
    (es.foldl supervise (supervise u e)).starts = u.starts := by
  have hstop : (if e.failed then UnitState.failed else .exited) ≠ .running := by split <;> simp
  rw [supervise, if_pos hrun, onChildExit, hw, if_neg Bool.false_ne_true,
    foldl_supervise_of_down hstop]

/-- **Below the limit** every exit that wants a restart leads to one, unless it cannot be
started. -/
theorem foldl_supervise_below (es : List Exit) : ∀ u : Supervised, u.state = .running →
    u.restarts < u.maxfail →
    (es.foldl supervise u).starts = u.starts + (es.takeWhile u.policy.respawns).length ∧
      ((es.takeWhile u.policy.respawns).length < (es.takeWhile u.policy.wants).length →
        (es.foldl supervise u).state = .failed) := by
  induction es with
  | nil => exact fun u _ _ => ⟨rfl, nofun⟩
  | cons e es ih =>
    intro u hrun hlt
    cases hw : u.policy.wants e with
    | false => simp [foldl_supervise_unwanted hrun hw, RestartPolicy.respawns, hw]
    | true =>
      rw [foldl_cons, supervise, if_pos hrun, onChildExit, if_pos hw,
        if_neg fun h => Nat.not_le.mpr hlt h.2]
      by_cases hpid : e.pid < 0
      · rw [if_pos hpid, foldl_supervise_of_down (by simp)]
        simp [RestartPolicy.respawns, hw, hpid]
      · have hr : u.policy.respawns e = true := by
          simpa [RestartPolicy.respawns, hw] using hpid
        rw [if_neg hpid, takeWhile_cons_of_pos hr, takeWhile_cons_of_pos hw, length_cons,
          length_cons, Nat.add_lt_add_iff_right, ← Nat.add_assoc, Nat.add_right_comm u.starts]
        apply ih
        · rfl
        · exact hlt

/-- **When the limit holds.**  For every unit, every limit and every sequence of exits. -/
theorem restart_limit_iff (hm : 0 < maxfail) (pid : ℤ) (es : List Exit) :
    Limited unit policy maxfail pid es ↔
      pid < 0 ∨ maxfail = 1 ∨ (es.takeWhile policy.respawns).length < maxfail := by
  rw [Limited, life, Supervised.startUnit, spawned]
  by_cases hpid : pid < 0
  · rw [if_pos hpid, if_pos hpid, foldl_supervise_of_down (by simp)]
    simp [hpid]
  rw [if_neg hpid, if_neg hpid]
  by_cases hone : maxfail = 1
  · subst hone
    refine iff_of_true ?_ (.inr (.inl rfl))
    cases es with
    | nil => exact ⟨Nat.le_refl _, by simp⟩
    | cons e es =>
      cases hw : policy.wants e with
      | false => exact ⟨Nat.le_of_eq (foldl_supervise_unwanted rfl hw es), by simp [hw]⟩
      | true =>
        rw [foldl_cons, supervise, if_pos rfl, onChildExit, if_pos hw,
          if_pos ⟨hm, Nat.le_refl _⟩, foldl_supervise_of_down (by simp)]
        simp
  · obtain ⟨hstarts, hfailed⟩ := foldl_supervise_below es
      ⟨{ loadUnit unit.1 unit.2.1 unit.2.2 with restarts := 1, pid := pid, state := .running },
        policy, maxfail, 0, 1⟩ rfl (by dsimp only; omega)
    refine ⟨fun h => .inr (.inr ?_), fun h => ⟨?_, fun hle => hfailed ?_⟩⟩
    · have := hstarts ▸ h.1
      dsimp only at this
      omega
    · refine Nat.le_trans (Nat.le_of_eq hstarts) ?_
      dsimp only
      omega
    · dsimp only
      omega

theorem restart_limit_iff_one : Limited ([], [], []) .always 1 10 [⟨1, 11⟩] :=
  (restart_limit_iff _ 1 (by decide) 10 [⟨1, 11⟩]).mpr (.inr (.inl rfl))

/-- **Three crashes** with `maxfail = 2`: the fourth process runs. -/
theorem crash_loop_goes_on :
    (life ([], [], []) .always 2 10 [⟨1, 11⟩, ⟨1, 12⟩, ⟨1, 13⟩]).starts = 4 ∧
      (life ([], [], []) .always 2 10 [⟨1, 11⟩, ⟨1, 12⟩, ⟨1, 13⟩]).state = .running := by
  decide

end AxiomeOS.Init
