import Mathlib.Data.Int.Notation
import AxiomeOS.Lib.Dependency

/-!
# The service manager: starting the units in dependency order

`kernel/userspace/init.c` reads a list of units and starts them with `start_all`: pass after pass
over the table, each unit that is still DOWN is started when all its dependencies are up, and
disabled when one of them can no longer come up; when a pass changes nothing, what is still DOWN
is disabled.  A dependency is a name, and `unit_by_name` answers with the *first* unit of that
name.

The state keeps, beside the unit table and the log, the history of the calls of `start_unit`, each
with the table it found: "started only when" is a property of that table.  The outcomes of the
spawns are a parameter, one per call.

What is proved of every unit list and every outcome of the spawns:

* `startLoop_enough`: `length + 1` passes are enough, so the loop stops;
* `Started.ordered`, `Started.ready`: the order of the starts completes every dependency first;
* `startAll_correct`: the run as a whole.
-/

namespace AxiomeOS.Init

open Lib List

variable {us : List InitUnit} {i : ℕ} {u : InitUnit} {s : InitState}

/-! ### The unit table -/

/-- `enum unit_state`. -/
inductive UnitState
  | down
  | running
  | exited
  | failed
  | disabled
  deriving DecidableEq, Repr

/-- `struct unit`, without the restart policy and the failure counters, which only the supervision
loop reads. -/
structure InitUnit where
  name : List Char
  command : List Char
  depends : List Char
  pid : ℤ
  state : UnitState
  restarts : ℕ
  deriving DecidableEq, Repr

/-- What `load_config` stores at a `[name]` header, and the two texts its keys fill in. -/
def loadUnit (name command depends : List Char) : InitUnit :=
  ⟨name, command, depends, -1, .down, 0⟩

/-- The table as it was read: every unit DOWN and not started. -/
def loadUnits (confs : List (List Char × List Char × List Char)) : List InitUnit :=
  confs.map fun c => loadUnit c.1 c.2.1 c.2.2

theorem loadUnits_down (confs : List (List Char × List Char × List Char)) :
    ∀ u ∈ loadUnits confs, u.state = .down := by
  intro u hu
  obtain ⟨c, -, rfl⟩ := mem_map.mp hu
  rfl

/-- The state of init while it starts its units. -/
structure InitState where
  units : List InitUnit
  /-- What `log_evt` wrote: the service and the event. -/
  log : List (List Char × String)
  /-- History: the calls of `start_unit`, newest first, each with the table it found. -/
  starts : List (ℕ × List InitUnit)
  deriving DecidableEq, Repr

/-- `log_evt`. -/
def InitState.logEvt (s : InitState) (svc : List Char) (evt : String) : InitState :=
  { s with log := s.log ++ [(svc, evt)] }

/-- `u->state = st` for the unit in slot `i`. -/
def setState (st : UnitState) (u : InitUnit) : InitUnit := { u with state := st }

/-- The names of the units that were started, as slots of the table, newest first. -/
def InitState.started (s : InitState) : List ℕ := s.starts.map Prod.fst

/-- `unit_by_name`, as a slot: the first unit of that name. -/
def unitIndex (us : List InitUnit) (nm : List Char) : Option ℕ :=
  us.findIdx? (fun u => decide (u.name = nm))

/-- `unit_by_name`. -/
def unitByName (us : List InitUnit) (nm : List Char) : Option InitUnit :=
  us.find? (fun u => decide (u.name = nm))

/-- The characters between two names of a dependency text. -/
def isSep (c : Char) : Bool := c = ' ' || c = ',' || c = '\t'

/-- The tokens of a dependency text, in order. -/
def depNames (depends : List Char) : List (List Char) :=
  (depends.splitOnP isSep).filter (fun nm => decide (nm ≠ []))

/-- What `deps_satisfied` returns. -/
inductive Deps
  /-- `1`: all dependencies are RUNNING or EXITED. -/
  | satisfied
  /-- `0`: one is still DOWN. -/
  | blocked
  /-- `-1`: one is missing, FAILED or DISABLED. -/
  | unsatisfiable
  deriving DecidableEq, Repr

/-- The loop of `deps_satisfied` over the tokens. -/
def depsLoop (us : List InitUnit) : List (List Char) → Bool → Deps
  | [], block => if block then .blocked else .satisfied
  | nm :: rest, block =>
    match unitByName us nm with
    | none => .unsatisfiable
    | some d =>
      match d.state with
      | .running => depsLoop us rest block
      | .exited => depsLoop us rest block
      | .failed => .unsatisfiable
      | .disabled => .unsatisfiable
      | .down => depsLoop us rest true

/-- `deps_satisfied`. -/
def depsSatisfied (us : List InitUnit) (u : InitUnit) : Deps :=
  if u.depends = [] then .satisfied else depsLoop us (depNames u.depends) false

/-- The table after a spawn that gave `pid`: a negative one is a failure. -/
def spawned (pid : ℤ) (u : InitUnit) : InitUnit :=
  if pid < 0 then { u with restarts := u.restarts + 1, state := .failed }
  else { u with restarts := u.restarts + 1, pid := pid, state := .running }

/-- The event that `start_unit` logs. -/
def spawnEvt (pid : ℤ) : String :=
  if pid < 0 then "failed to spawn (command not found?)" else "started pid " ++ toString pid

/-- `start_unit` on slot `i`, which holds `u`.  The outcome of the spawn is that of its turn. -/
def startUnit (spawn : ℕ → ℤ) (s : InitState) (i : ℕ) (u : InitUnit) : InitState :=
  { s with
    units := s.units.modify i (spawned (spawn s.starts.length))
    starts := (i, s.units) :: s.starts }.logEvt u.name (spawnEvt (spawn s.starts.length))

/-- Disabling the unit in slot `i`, with the reason that is logged. -/
def disableUnit (s : InitState) (i : ℕ) (u : InitUnit) (evt : String) : InitState :=
  { s with units := s.units.modify i (setState .disabled) }.logEvt u.name evt

/-- The body of the inner loop of `start_all`: the new state, and whether there was progress. -/
def startSlot (spawn : ℕ → ℤ) (s : InitState) (i : ℕ) : InitState × Bool :=
  match s.units[i]? with
  | none => (s, false)
  | some u =>
    if u.state = .down then
      match depsSatisfied s.units u with
      | .satisfied => (startUnit spawn s i u, true)
      | .unsatisfiable => (disableUnit s i u "disabled: dependency unsatisfied", true)
      | .blocked => (s, false)
    else (s, false)

/-- One pass of `start_all` over the slots `is`. -/
def startPass (spawn : ℕ → ℤ) : List ℕ → InitState → InitState × Bool
  | [], s => (s, false)
  | i :: is, s =>
    let r := startSlot spawn s i
    let rest := startPass spawn is r.1
    (rest.1, r.2 || rest.2)

/-- The loop of `start_all`: passes until one makes no progress. -/
def startLoop (spawn : ℕ → ℤ) : ℕ → InitState → Option InitState
  | 0, _ => none
  | fuel + 1, s =>
    let r := startPass spawn (List.range s.units.length) s
    if r.2 then startLoop spawn fuel r.1 else some r.1

/-- The last loop of `start_all`: what is still DOWN is disabled. -/
def disableRest : List ℕ → InitState → InitState
  | [], s => s
  | i :: is, s =>
    match s.units[i]? with
    | none => disableRest is s
    | some u =>
      if u.state = .down then
        disableRest is (disableUnit s i u "disabled: unsatisfiable (cycle?)")
      else disableRest is s

/-- `start_all` on the units read, with `fuel` passes at most. -/
def startAll (spawn : ℕ → ℤ) (fuel : ℕ) (us : List InitUnit) : Option InitState :=
  (startLoop spawn fuel ⟨us, [], []⟩).map fun s => disableRest (List.range s.units.length) s

/-! ### Names do not change -/

/-- Two tables of the same units: only pids, states and counters may differ. -/
def SameUnits (us us' : List InitUnit) : Prop :=
  us'.map (fun u => (u.name, u.depends)) = us.map (fun u => (u.name, u.depends))

theorem SameUnits.refl (us : List InitUnit) : SameUnits us us := rfl

variable {us' : List InitUnit} {f : InitUnit → InitUnit}

theorem SameUnits.modify (h : SameUnits us us') (i : ℕ)
    (hf : ∀ u, (f u).name = u.name ∧ (f u).depends = u.depends) :
    SameUnits us (us'.modify i f) := by
  rw [SameUnits, ← h]
  apply ext_getElem?
  intro j
  simp only [getElem?_map, getElem?_modify]
  cases us'[j]? with
  | none => rfl
  | some u =>
    by_cases hij : i = j
    · simp [hij, (hf u).1, (hf u).2]
    · simp [hij]

theorem SameUnits.getElem? (h : SameUnits us us') {u' : InitUnit} (hi : us'[i]? = some u') :
    ∃ u, us[i]? = some u ∧ u.name = u'.name ∧ u.depends = u'.depends := by
  have hg : (us'.map (fun u => (u.name, u.depends)))[i]?
      = (us.map (fun u => (u.name, u.depends)))[i]? := by rw [h]
  rw [getElem?_map, getElem?_map, hi] at hg
  cases hu : us[i]? with
  | none => rw [hu] at hg; cases hg
  | some u =>
    rw [hu] at hg
    simp only [Option.map_some, Option.some.injEq, Prod.mk.injEq] at hg
    exact ⟨u, rfl, hg.1.symm, hg.2.symm⟩

theorem SameUnits.unitIndex (h : SameUnits us us') (nm : List Char) :
    unitIndex us' nm = unitIndex us nm := by
  have hmap : ∀ l : List InitUnit, Init.unitIndex l nm
      = (l.map (fun u => (u.name, u.depends))).findIdx? (fun p => decide (p.1 = nm)) := by
    intro l
    rw [Init.unitIndex, findIdx?_map]
    rfl
  rw [hmap, hmap, h]

theorem unitByName_eq (us : List InitUnit) (nm : List Char) :
    unitByName us nm = (unitIndex us nm).bind (us[·]?) := by
  induction us with
  | nil => rfl
  | cons u us ih =>
    rw [unitByName, unitIndex, find?_cons, findIdx?_cons]
    by_cases hu : u.name = nm
    · simp [hu]
    · simp only [hu, decide_false, Bool.false_eq_true, if_false]
      rw [unitByName, unitIndex] at ih
      rw [ih]
      cases us.findIdx? (fun u => decide (u.name = nm)) <;> simp

/-! ### What `deps_satisfied` answers -/

/-- The unit is up: RUNNING or EXITED. -/
def Up (u : InitUnit) : Prop := u.state = .running ∨ u.state = .exited

theorem depsLoop_satisfied {nms : List (List Char)} {block : Bool}
    (h : depsLoop us nms block = .satisfied) :
    block = false ∧ ∀ nm ∈ nms, ∃ d, unitByName us nm = some d ∧ Up d := by
  induction nms generalizing block with
  | nil =>
    cases block
    · exact ⟨rfl, fun nm hnm => absurd hnm (not_mem_nil)⟩
    · cases h
  | cons nm nms ih =>
    rw [depsLoop] at h
    cases hd : unitByName us nm with
    | none => rw [hd] at h; cases h
    | some d =>
      simp only [hd] at h
      -- only a dependency that is up lets the loop go on to `satisfied`
      have hup : Up d ∧ depsLoop us nms block = .satisfied := by
        cases hs : d.state with
        | running => rw [hs] at h; exact ⟨.inl hs, h⟩
        | exited => rw [hs] at h; exact ⟨.inr hs, h⟩
        | failed | disabled => rw [hs] at h; cases h
        | down => rw [hs] at h; exact absurd (ih h).1 (by decide)
      obtain ⟨hb, hall⟩ := ih hup.2
      refine ⟨hb, ?_⟩
      intro nm' hnm'
      rcases mem_cons.mp hnm' with rfl | hnm'
      · exact ⟨d, hd, hup.1⟩
      · exact hall nm' hnm'

/-- **A unit is let through only when every name resolves to a unit that is up.** -/
theorem depsSatisfied_ready (h : depsSatisfied us u = .satisfied) :
    ∀ nm ∈ depNames u.depends, ∃ d, unitByName us nm = some d ∧ Up d := by
  rw [depsSatisfied] at h
  by_cases he : u.depends = []
  · intro nm hnm
    rw [he] at hnm
    exact absurd hnm (by decide +revert)
  · rw [if_neg he] at h
    exact (depsLoop_satisfied h).2

/-! ### The invariant of the starts -/

/-- Unit `i` depends on unit `j`: a name in its dependency text leads to slot `j`. -/
def DependsOn (us : List InitUnit) (i j : ℕ) : Prop :=
  ∃ u, us[i]? = some u ∧ ∃ nm ∈ depNames u.depends, unitIndex us nm = some j

/-- **The invariant of `start_all`** on the units `us`. -/
structure Started (us : List InitUnit) (s : InitState) : Prop where
  same : SameUnits us s.units
  /-- Each start came after the starts of all dependencies, and was the unit's first. -/
  ordered : CompletionOrder (DependsOn us) s.started
  /-- Each start found every dependency up. -/
  ready : ∀ r ∈ s.starts, ∀ u, us[r.1]? = some u →
    ∀ nm ∈ depNames u.depends, ∃ d, unitByName r.2 nm = some d ∧ Up d
  /-- What was started is not DOWN any more. -/
  notDown : ∀ i ∈ s.started, ∀ u, s.units[i]? = some u → u.state ≠ .down
  /-- What is up was started. -/
  up : ∀ i u, s.units[i]? = some u → Up u → i ∈ s.started

theorem started_init (h : ∀ u ∈ us, u.state = .down) : Started us ⟨us, [], []⟩ where
  same := .refl us
  ordered := trivial
  ready := fun r hr => absurd hr (not_mem_nil)
  notDown := fun i hi => absurd hi (not_mem_nil)
  up := fun i u hi hu => by
    have hd := h u (mem_of_getElem? hi)
    rcases hu with hu | hu <;> (rw [hd] at hu; cases hu)

theorem spawned_names (pid : ℤ) (u : InitUnit) :
    (spawned pid u).name = u.name ∧ (spawned pid u).depends = u.depends := by
  rw [spawned]
  split <;> exact ⟨rfl, rfl⟩

theorem spawned_state (pid : ℤ) (u : InitUnit) : (spawned pid u).state ≠ .down := by
  rw [spawned]
  split <;> exact nofun

theorem modify_cases {j : ℕ} (h : (us.modify i f)[j]? = some u) :
    (i = j ∧ ∃ v, us[j]? = some v ∧ u = f v) ∨ (i ≠ j ∧ us[j]? = some u) := by
  rw [getElem?_modify] at h
  cases hv : us[j]? with
  | none => rw [hv] at h; cases h
  | some v =>
    rw [hv] at h
    by_cases hij : i = j
    · simp only [hij, if_true, Option.map_eq_map, Option.map_some, Option.some.injEq] at h
      exact .inl ⟨hij, v, rfl, h.symm⟩
    · simp only [hij, if_false, Option.map_eq_map, Option.map_some, Option.some.injEq] at h
      exact .inr ⟨hij, by rw [h]⟩

/-- Starting a unit whose dependencies are satisfied keeps the invariant. -/
theorem Started.startUnit (h : Started us s)
    (spawn : ℕ → ℤ) (hi : s.units[i]? = some u) (hd : u.state = .down)
    (hr : depsSatisfied s.units u = .satisfied) : Started us (startUnit spawn s i u) := by
  have hready := depsSatisfied_ready hr
  have hnew : i ∉ s.started := fun hmem => h.notDown i hmem u hi hd
  obtain ⟨u0, hu0, -, hdep⟩ := h.same.getElem? hi
  -- every dependency of `i` is up, so it was started before
  have hbefore : ∀ j, DependsOn us i j → j ∈ s.started := by
    rintro j ⟨v, hv, nm, hnm, hj⟩
    rw [hu0] at hv
    cases hv
    rw [hdep] at hnm
    obtain ⟨d, hfound, hup⟩ := hready nm hnm
    rw [unitByName_eq, h.same.unitIndex, hj] at hfound
    exact h.up j d hfound hup
  refine ⟨h.same.modify i (spawned_names _), ⟨hnew, hbefore, h.ordered⟩, ?_, ?_, ?_⟩
  · intro r hrm v hv nm hnm
    rcases mem_cons.mp hrm with rfl | hrm
    · rw [hu0] at hv
      cases hv
      rw [hdep] at hnm
      exact hready nm hnm
    · exact h.ready r hrm v hv nm hnm
  · intro j hj v hv
    rcases modify_cases hv with ⟨-, w, -, rfl⟩ | ⟨hij, hv⟩
    · exact spawned_state _ w
    · rcases mem_cons.mp hj with rfl | hj
      · exact absurd rfl hij
      · exact h.notDown j hj v hv
  · intro j v hv hup
    rcases modify_cases hv with ⟨hij, -⟩ | ⟨-, hv⟩
    · exact mem_cons.mpr (.inl hij.symm)
    · exact mem_cons_of_mem _ (h.up j v hv hup)

theorem Started.disableUnit (h : Started us s) (i : ℕ)
    (u : InitUnit) (evt : String) : Started us (disableUnit s i u evt) := by
  refine ⟨h.same.modify i (fun _ => ⟨rfl, rfl⟩), h.ordered, h.ready, ?_, ?_⟩
  · intro j hj v hv
    rcases modify_cases hv with ⟨-, w, -, rfl⟩ | ⟨-, hv⟩
    · exact nofun
    · exact h.notDown j hj v hv
  · intro j v hv hup
    rcases modify_cases hv with ⟨-, w, -, rfl⟩ | ⟨-, hv⟩
    · rcases hup with hup | hup <;> cases hup
    · exact h.up j v hv hup

/-! ### Each step of progress takes one unit out of DOWN -/

/-- The number of units that are still DOWN. -/
def downCount (us : List InitUnit) : ℕ := us.countP (fun u => decide (u.state = .down))

theorem downCount_modify (hi : us[i]? = some u) (hd : u.state = .down) (hf : (f u).state ≠ .down) :
    downCount (us.modify i f) + 1 = downCount us := by
  induction us generalizing i with
  | nil => cases hi
  | cons v us ih =>
    cases i with
    | zero =>
      simp only [getElem?_cons_zero, Option.some.injEq] at hi
      subst hi
      simp [downCount, hd, hf]
    | succ i =>
      have := ih hi
      simp only [downCount, modify_succ_cons, countP_cons] at this ⊢
      omega

/-- **What one slot's turn does.**  Either nothing, and the slot's unit is not DOWN or is blocked;
or one unit fewer is DOWN.  The invariant is kept. -/
theorem startSlot_spec (h : Started us s) (spawn : ℕ → ℤ)
    (i : ℕ) : Started us (startSlot spawn s i).1 ∧
      ((startSlot spawn s i = (s, false)) ∨
        ((startSlot spawn s i).2 = true ∧
          downCount (startSlot spawn s i).1.units + 1 = downCount s.units)) := by
  rw [startSlot]
  cases hi : s.units[i]? with
  | none => exact ⟨h, .inl rfl⟩
  | some u =>
    by_cases hd : u.state = .down
    · simp only [if_pos hd]
      cases hr : depsSatisfied s.units u with
      | satisfied =>
        exact ⟨h.startUnit spawn hi hd hr, .inr ⟨rfl, downCount_modify hi hd (spawned_state _ u)⟩⟩
      | blocked => exact ⟨h, .inl rfl⟩
      | unsatisfiable =>
        exact ⟨h.disableUnit i u _, .inr ⟨rfl, downCount_modify hi hd (nofun)⟩⟩
    · dsimp only
      rw [if_neg hd]
      exact ⟨h, .inl rfl⟩

/-- **What one pass does**: it keeps the invariant, and if it reports progress then fewer units
are DOWN after it. -/
theorem startPass_spec (spawn : ℕ → ℤ) (is : List ℕ) :
    ∀ {s : InitState}, Started us s → Started us (startPass spawn is s).1 ∧
      downCount (startPass spawn is s).1.units ≤ downCount s.units ∧
      ((startPass spawn is s).2 = true →
        downCount (startPass spawn is s).1.units < downCount s.units) := by
  induction is with
  | nil => intro s h; exact ⟨h, Nat.le_refl _, nofun⟩
  | cons i is ih =>
    intro s h
    obtain ⟨h1, hcase⟩ := startSlot_spec h spawn i
    obtain ⟨h2, hle, hlt⟩ := ih h1
    rw [startPass]
    refine ⟨h2, ?_, ?_⟩
    · rcases hcase with he | ⟨-, hc⟩
      · rw [he] at hle ⊢
        exact hle
      · exact Nat.le_trans hle (by omega)
    · intro hp
      rcases hcase with he | ⟨-, hc⟩
      · rw [he] at hp hlt ⊢
        exact hlt (by simpa using hp)
      · exact Nat.lt_of_le_of_lt hle (by omega)

/-- A pass without progress is the last one. -/
theorem startLoop_of_still {spawn : ℕ → ℤ} {n fuel : ℕ}
    (hno : (startPass spawn (range s.units.length) s).2 ≠ true) (hf : n < fuel) :
    startLoop spawn fuel s = some (startPass spawn (range s.units.length) s).1 := by
  obtain _ | fuel := fuel
  · omega
  rw [startLoop]
  exact if_neg hno

/-- **The loop stops.**  With more passes allowed than there are units DOWN it returns, in a state
that satisfies the invariant, and the result does not depend on how many were allowed. -/
theorem startLoop_enough (spawn : ℕ → ℤ) (n : ℕ) {s : InitState} (h : Started us s)
    (hn : downCount s.units ≤ n) :
    ∃ s', Started us s' ∧ ∀ fuel, n < fuel → startLoop spawn fuel s = some s' := by
  induction n generalizing s with
  | zero =>
    obtain ⟨h1, -, hlt⟩ := startPass_spec spawn (range s.units.length) h
    refine ⟨_, h1, fun fuel => startLoop_of_still fun hp => ?_⟩
    have := hlt hp
    omega
  | succ n ih =>
    obtain ⟨h1, -, hlt⟩ := startPass_spec spawn (range s.units.length) h
    by_cases hp : (startPass spawn (range s.units.length) s).2 = true
    · have hdown := hlt hp
      obtain ⟨s', h', hrun⟩ := ih h1 (by omega)
      refine ⟨s', h', ?_⟩
      intro fuel hf
      obtain _ | fuel := fuel
      · omega
      rw [startLoop]
      simp only [if_pos hp]
      exact hrun fuel (by omega)
    · exact ⟨_, h1, fun fuel => startLoop_of_still hp⟩

/-! ### The last loop -/

/-- Once a slot is not DOWN, the last loop leaves it so; and each slot it visits is not DOWN
afterwards. -/
theorem disableRest_spec (is : List ℕ) :
    ∀ {s : InitState}, Started us s → Started us (disableRest is s) ∧
      (disableRest is s).starts = s.starts ∧
      ∀ j u, (disableRest is s).units[j]? = some u → u.state = .down →
        j ∉ is ∧ s.units[j]? = some u := by
  induction is with
  | nil => intro s h; exact ⟨h, rfl, fun j u hj _ => ⟨not_mem_nil, hj⟩⟩
  | cons i is ih =>
    intro s h
    by_cases hi : ∃ v, s.units[i]? = some v ∧ v.state = .down
    · obtain ⟨v, hi, hv⟩ := hi
      simp only [disableRest, hi, if_pos hv]
      obtain ⟨h1, hs, hrest⟩ := ih (h.disableUnit i v "disabled: unsatisfiable (cycle?)")
      refine ⟨h1, hs, fun j u hj hd => ?_⟩
      obtain ⟨hnot, hju⟩ := hrest j u hj hd
      rcases modify_cases hju with ⟨-, w, -, rfl⟩ | ⟨hij, hju⟩
      · cases hd
      · exact ⟨fun hmem => (mem_cons.mp hmem).elim (fun e => hij e.symm) hnot, hju⟩
    · have hskip : disableRest (i :: is) s = disableRest is s := by
        rw [disableRest]
        split
        · rfl
        · exact if_neg fun hv => hi ⟨_, ‹_›, hv⟩
      obtain ⟨h1, hs, hrest⟩ := ih h
      rw [hskip]
      refine ⟨h1, hs, fun j u hj hd => ?_⟩
      obtain ⟨hnot, hju⟩ := hrest j u hj hd
      refine ⟨fun hmem => ?_, hju⟩
      rcases mem_cons.mp hmem with rfl | hmem
      · exact hi ⟨u, hju, hd⟩
      · exact hnot hmem

theorem disableRest_notDown (h : Started us s) :
    ∀ u ∈ (disableRest (range s.units.length) s).units, u.state ≠ .down := by
  intro u hu hd
  obtain ⟨j, hj⟩ := getElem?_of_mem hu
  obtain ⟨-, -, hrest⟩ := disableRest_spec (range s.units.length) h
  obtain ⟨hnot, hju⟩ := hrest j u hj hd
  obtain ⟨hlt, -⟩ := List.getElem?_eq_some_iff.mp hju
  exact hnot (List.mem_range.mpr hlt)

/-! ### The run as a whole -/

/-- **`start_all` on every unit list, dependency graph and outcome of the spawns.**  It stops
after at most `length + 1` passes; no unit is started twice; each start found, for every name in
the unit's dependency text, that the unit the name leads to was RUNNING or EXITED; no unit is left
DOWN; and no unit on or behind a dependency cycle was started. -/
theorem startAll_correct (confs : List (List Char × List Char × List Char)) (spawn : ℕ → ℤ) :
    ∃ s, (∀ fuel, confs.length < fuel → startAll spawn fuel (loadUnits confs) = some s) ∧
      s.started.Nodup ∧
      (∀ r ∈ s.starts, ∀ u, (loadUnits confs)[r.1]? = some u →
        ∀ nm ∈ depNames u.depends, ∃ d, unitByName r.2 nm = some d ∧ Up d) ∧
      (∀ u ∈ s.units, u.state ≠ .down) ∧
      (∀ i, BehindCycle (DependsOn (loadUnits confs)) i → i ∉ s.started) := by
  have hlen : downCount (loadUnits confs) ≤ confs.length := by
    have := countP_le_length (p := fun u => decide (u.state = .down)) (l := loadUnits confs)
    rwa [loadUnits, length_map] at this
  obtain ⟨s1, h1, hrun⟩ := startLoop_enough spawn confs.length
    (started_init (loadUnits_down confs)) hlen
  obtain ⟨h2, -, -⟩ := disableRest_spec (range s1.units.length) h1
  refine ⟨disableRest (range s1.units.length) s1, ?_, h2.ordered.nodup, h2.ready,
    disableRest_notDown h1, ?_⟩
  · intro fuel hf
    rw [startAll, hrun fuel hf]
    rfl
  · intro i hc hi
    exact h2.ordered.not_behindCycle i hi hc

/-- **Two units of one name.**  `b` depends on `a`, and the table holds two units `a`: `b` is
started while the second of them is DOWN. -/
theorem startAll_shared_name : ∃ s, startAll (fun _ => 7) 4
        (loadUnits [(['a'], ['x'], []), (['b'], ['x'], ['a']), (['a'], ['x'], [])]) = some s ∧
      ∃ r ∈ s.starts, ∃ u d, r.2[r.1]? = some u ∧ d ∈ r.2 ∧ d.name ∈ depNames u.depends ∧
        d.state = .down :=
  ⟨_, rfl, (1, [spawned 7 (loadUnit ['a'] ['x'] []), loadUnit ['b'] ['x'] ['a'],
    loadUnit ['a'] ['x'] []]), by decide +kernel, loadUnit ['b'] ['x'] ['a'],
    loadUnit ['a'] ['x'] [], rfl, by decide +kernel, by decide +kernel, rfl⟩

end AxiomeOS.Init
