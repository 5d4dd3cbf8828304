import Mathlib.Data.Nat.Notation

/-!
# Finite runs of a labelled step relation

A system is a state type, a label type and a step relation.  `Run step s as s'` says that
the labels `as`, taken in order, lead from `s` to `s'`.  Every safety statement of the
development is an instance of one of the rules below:

* `Run.invariant` — a predicate kept by each step is kept by a run;
* `RunIn.invariant` — the same, where a step only has to keep the predicate when a
  guard on the state *before* the step holds, and every step of the run meets that guard;
* `RunIn.simulates` — a run is matched, label by label, by a run of a second system.

`RunIn` carries the guard: a run all of whose steps meet it.  For a system that is executed,
`execList_property_iff` is the rule for a guard that is also necessary.
-/

namespace AxiomeOS.Runs

open List

variable {σ α : Type*} {step : σ → α → σ → Prop} {exec : σ → α → Option σ} {G : σ → α → Prop}
  {I P : σ → Prop} {s s' : σ} {a : α} {as : List α}

/-- The labels `as`, taken in order, lead from the first state to the last. -/
inductive Run (step : σ → α → σ → Prop) : σ → List α → σ → Prop
  | nil (s : σ) : Run step s [] s
  | cons {s s₁ s₂ : σ} {a : α} {as : List α} :
      step s a s₁ → Run step s₁ as s₂ → Run step s (a :: as) s₂

/-- A run each of whose steps meets the guard `G` in the state it is taken from. -/
def RunIn (G : σ → α → Prop) (step : σ → α → σ → Prop) : σ → List α → σ → Prop :=
  Run fun s a s' => G s a ∧ step s a s'

/-- **The invariant rule.**  What every step keeps, every run keeps. -/
theorem Run.invariant (I : σ → Prop) (hstep : ∀ s a s', I s → step s a s' → I s') {s s' : σ}
    (hrun : Run step s as s') (hs : I s) : I s' := by
  induction hrun with
  | nil => exact hs
  | cons hst _ ih => exact ih (hstep _ _ _ hs hst)

theorem Run.append {s s₁ s₂ : σ} {as bs : List α}
    (h : Run step s as s₁) (h' : Run step s₁ bs s₂) : Run step s (as ++ bs) s₂ := by
  induction h with
  | nil => exact h'
  | cons hst _ ih => exact .cons hst (ih h')

/-- **The guarded invariant rule.**  Only steps that meet the guard have to keep `I`. -/
theorem RunIn.invariant (I : σ → Prop) (hstep : ∀ s a s', I s → G s a → step s a s' → I s')
    {s s' : σ} (hrun : RunIn G step s as s') (hs : I s) : I s' :=
  Run.invariant I (fun s a s' hI h => hstep s a s' hI h.1 h.2) hrun hs

/-- **The simulation rule.**  When every step that meets the guard is matched by a step of a second
system with the same label, every run is matched by a run of the second system. -/
theorem RunIn.simulates {τ : Type*} {step' : τ → α → τ → Prop} (R : σ → τ → Prop)
    (hstep : ∀ s q a s', R s q → G s a → step s a s' → ∃ q', step' q a q' ∧ R s' q')
    {q : τ} (hrun : RunIn G step s as s') (hR : R s q) : ∃ q', Run step' q as q' ∧ R s' q' := by
  induction hrun generalizing q with
  | nil => exact ⟨q, .nil q, hR⟩
  | cons hst _ ih =>
    obtain ⟨q1, hq1, hR1⟩ := hstep _ _ _ _ hR hst.1 hst.2
    obtain ⟨q2, hq2, hR2⟩ := ih hR1
    exact ⟨q2, .cons hq1 hq2, hR2⟩

theorem RunIn.mono {G G' : σ → α → Prop}
    (hrun : RunIn G step s as s') (hG : ∀ s a, G s a → G' s a) : RunIn G' step s as s' := by
  induction hrun with
  | nil => exact .nil _
  | cons hst _ ih => exact .cons ⟨hG _ _ hst.1, hst.2⟩ ih

theorem RunIn.run (hrun : RunIn G step s as s') : Run step s as s' := by
  induction hrun with
  | nil => exact .nil _
  | cons hst _ ih => exact .cons hst.2 ih

/-- Two conditions on a step that agree under an invariant hold along the same runs. -/
theorem RunIn.guard_congr {f : σ → α → σ} {P Q : σ → α → Prop} (I : σ → Prop)
    (hstep : ∀ s a, I s → G s a → I (f s a)) (hiff : ∀ s a, I s → G s a → (P s a ↔ Q s a))
    {s s' : σ} (hrun : RunIn G (fun s a s' => s' = f s a) s as s') (hs : I s) :
    RunIn P (fun s a s' => s' = f s a) s as s' ↔ RunIn Q (fun s a s' => s' = f s a) s as s' := by
  induction hrun with
  | nil => exact ⟨fun _ => .nil _, fun _ => .nil _⟩
  | cons hst _ ih =>
    obtain ⟨hg, rfl⟩ := hst
    have ih := ih (hstep _ _ hs hg)
    constructor
    · rintro (_ | ⟨⟨hp, rfl⟩, hrun⟩)
      exact .cons ⟨(hiff _ _ hs hg).mp hp, rfl⟩ (ih.mp hrun)
    · rintro (_ | ⟨⟨hq, rfl⟩, hrun⟩)
      exact .cons ⟨(hiff _ _ hs hg).mpr hq, rfl⟩ (ih.mpr hrun)

/-- Two guards that hold along a run of a function hold together. -/
theorem RunIn.and {f : σ → α → σ} {G G' : σ → α → Prop} {s s₁ s₂ : σ}
    (h : RunIn G (fun s a s' => s' = f s a) s as s₁)
    (h' : RunIn G' (fun s a s' => s' = f s a) s as s₂) :
    RunIn (fun s a => G s a ∧ G' s a) (fun s a s' => s' = f s a) s as s₁ := by
  induction h with
  | nil => exact .nil _
  | cons hst _ ih =>
    cases h' with
    | cons hst' hrun' =>
      obtain ⟨hg, rfl⟩ := hst
      obtain ⟨hg', rfl⟩ := hst'
      exact .cons ⟨⟨hg, hg'⟩, rfl⟩ (ih hrun')

/-- Executing labels one after the other, checking the guard before each step. -/
def execAll (exec : σ → α → Option σ) (G : σ → α → Prop) [∀ s a, Decidable (G s a)] :
    σ → List α → Option σ
  | s, [] => some s
  | s, a :: as => if G s a then (exec s a).bind fun s => execAll exec G s as else none

theorem runIn_of_execAll [∀ s a, Decidable (G s a)] (h : execAll exec G s as = some s') :
    RunIn G (fun s a s' => exec s a = some s') s as s' := by
  induction as generalizing s with
  | nil =>
    cases h
    exact .nil _
  | cons a as ih =>
    rw [execAll] at h
    split at h
    case isTrue hG =>
      obtain ⟨s1, hs1, hrest⟩ := Option.bind_eq_some_iff.mp h
      exact .cons ⟨hG, hs1⟩ (ih hrest)
    case isFalse => cases h

/-- Executing labels one after the other, until one of them cannot be executed. -/
def execList (exec : σ → α → Option σ) : σ → List α → Option σ
  | s, [] => some s
  | s, a :: as => (exec s a).bind fun s => execList exec s as

theorem forall_execList_nil {P : σ → Prop} : (∀ s', execList exec s [] = some s' → P s') ↔ P s :=
  ⟨fun h => h s rfl, fun h _ hs' => Option.some.inj hs' ▸ h⟩

theorem execList_cons {s s₁ : σ} (h : exec s a = some s₁)
    (as : List α) : execList exec s (a :: as) = execList exec s₁ as := by
  rw [execList, h, Option.bind_some]

theorem forall_prefix_cons {P : List α → Prop} :
    (∀ pre, pre <+: a :: as → P pre) ↔ P [] ∧ ∀ pre, pre <+: as → P (a :: pre) := by
  constructor
  · intro h
    exact ⟨h [] nil_prefix, fun pre hpre => h _ (cons_prefix_cons.mpr ⟨rfl, hpre⟩)⟩
  · rintro ⟨hnil, hcons⟩ pre hpre
    cases pre with
    | nil => exact hnil
    | cons b pre =>
      obtain ⟨rfl, hrest⟩ := cons_prefix_cons.mp hpre
      exact hcons pre hrest

theorem forall_snoc_prefix_cons {Q : List α → α → Prop} :
    (∀ pre b, pre ++ [b] <+: a :: as → Q pre b) ↔
      Q [] a ∧ ∀ pre b, pre ++ [b] <+: as → Q (a :: pre) b := by
  constructor
  · intro h
    exact ⟨h [] a (cons_prefix_cons.mpr ⟨rfl, nil_prefix⟩),
      fun pre b hpre => h _ b (cons_prefix_cons.mpr ⟨rfl, hpre⟩)⟩
  · rintro ⟨hnil, hcons⟩ pre b hpre
    cases pre with
    | nil =>
      obtain ⟨rfl, -⟩ := cons_prefix_cons.mp hpre
      exact hnil
    | cons c pre =>
      obtain ⟨rfl, hrest⟩ := cons_prefix_cons.mp hpre
      exact hcons pre b hrest

/-- **The exact rule.**  Where a step from a state with the invariant `I` leads to a state with the
property `P` only under the guard, and under the guard to one with the invariant, all states on the
way have the property exactly when all steps on the way meet the guard. -/
theorem execList_property_iff (hproperty : ∀ s, I s → P s)
    (hstep : ∀ s a s', I s → exec s a = some s' → (P s' → G s a) ∧ (G s a → I s'))
    (hnone : ∀ s a, I s → exec s a = none → G s a) (hs : I s) (as : List α) :
    (∀ pre, pre <+: as → ∀ s', execList exec s pre = some s' → P s') ↔
      ∀ pre a, pre ++ [a] <+: as → ∀ s', execList exec s pre = some s' → G s' a := by
  induction as generalizing s with
  | nil =>
    constructor
    · intro _ pre a hpre
      exact absurd (prefix_nil.mp hpre) (by simp)
    · intro _ pre hpre
      rw [prefix_nil.mp hpre]
      exact forall_execList_nil.mpr (hproperty s hs)
  | cons a as ih =>
    rw [forall_prefix_cons, forall_snoc_prefix_cons, forall_execList_nil, forall_execList_nil]
    cases ha : exec s a with
    | none =>
      -- nothing is executed after the first label
      have hstuck : ∀ pre s', execList exec s (a :: pre) ≠ some s' := by
        intro pre s'
        rw [execList, ha, Option.bind_none]
        simp
      exact ⟨fun _ => ⟨hnone s a hs ha, fun pre _ _ s' hs' => absurd hs' (hstuck pre s')⟩,
        fun _ => ⟨hproperty s hs, fun pre _ s' hs' => absurd hs' (hstuck pre s')⟩⟩
    | some s1 =>
      simp only [execList_cons ha]
      obtain ⟨hneeds, hkeeps⟩ := hstep s a s1 hs ha
      constructor
      · rintro ⟨-, hP⟩
        have hG : G s a := hneeds (forall_execList_nil.mp (hP [] nil_prefix))
        exact ⟨hG, (ih (hkeeps hG)).mp hP⟩
      · rintro ⟨hG, hrest⟩
        exact ⟨hproperty s hs, (ih (hkeeps hG)).mpr hrest⟩

/-- The exact rule for a step relation. -/
theorem run_property_iff (hproperty : ∀ s, I s → P s)
    (hstep : ∀ s a s', I s → step s a s' → (P s' → G s a) ∧ (G s a → I s')) (hs : I s)
    (as : List α) : (∀ pre, pre <+: as → ∀ s', Run step s pre s' → P s') ↔
      ∀ pre a, pre ++ [a] <+: as → ∀ s' s'', Run step s pre s' → step s' a s'' → G s' a := by
  induction as generalizing s with
  | nil =>
    constructor
    · intro _ pre a hpre
      exact absurd (prefix_nil.mp hpre) (by simp)
    · intro _ pre hpre s' hrun
      rw [prefix_nil.mp hpre] at hrun
      cases hrun
      exact hproperty s hs
  | cons a as ih =>
    rw [forall_prefix_cons, forall_snoc_prefix_cons]
    constructor
    · rintro ⟨-, hP⟩
      have hG : ∀ s1, step s a s1 → G s a := fun s1 hs1 =>
        (hstep s a s1 hs hs1).1 (hP [] nil_prefix s1 (.cons hs1 (.nil s1)))
      constructor
      · intro s' s'' hrun hs''
        cases hrun
        exact hG s'' hs''
      · intro pre b hpre s' s'' hrun hs''
        cases hrun with
        | cons hs1 hrest =>
          have hI := (hstep s a _ hs hs1).2 (hG _ hs1)
          exact (ih hI).mp (fun pre hpre s' hr => hP pre hpre s' (.cons hs1 hr)) pre b hpre s' s''
            hrest hs''
    · rintro ⟨hG, hrest⟩
      constructor
      · intro s' hrun
        cases hrun
        exact hproperty s hs
      · intro pre hpre s' hrun
        cases hrun with
        | cons hs1 hr =>
          have hI := (hstep s a _ hs hs1).2 (hG s _ (.nil s) hs1)
          exact (ih hI).mpr (fun pre b hpre s' s'' hr hs'' =>
            hrest pre b hpre s' s'' (.cons hs1 hr) hs'') pre hpre s' hr

theorem run_foldl (f : σ → α → σ) (s : σ) (as : List α) :
    Run (fun s a s' => s' = f s a) s as (as.foldl f s) := by
  induction as generalizing s with
  | nil => exact .nil s
  | cons a as ih => exact .cons rfl (ih (f s a))

theorem execList_some (f : σ → α → σ) (s : σ) (as : List α) :
    execList (fun s a => some (f s a)) s as = some (as.foldl f s) := by
  induction as generalizing s with
  | nil => rfl
  | cons a as ih => exact ih (f s a)

theorem foldl_property_iff {f : σ → α → σ}
    (hproperty : ∀ s, I s → P s) (hneeds : ∀ s a, I s → P (f s a) → G s a)
    (hkeeps : ∀ s a, I s → G s a → I (f s a)) (hs : I s) (as : List α) :
    (∀ pre, pre <+: as → P (pre.foldl f s)) ↔
      ∀ pre a, pre ++ [a] <+: as → G (pre.foldl f s) a := by
  have hstep : ∀ s a s', I s → (fun s a => some (f s a)) s a = some s' →
      (P s' → G s a) ∧ (G s a → I s') := by
    intro s a s' hI heq
    cases heq
    exact ⟨hneeds s a hI, hkeeps s a hI⟩
  have hrule := execList_property_iff hproperty hstep (nofun) hs as
  simp only [execList_some, Option.some.injEq, forall_eq'] at hrule
  exact hrule

/-- The guard is met before each step of the run of a function. -/
def allMet (f : σ → α → σ) (G : σ → α → Prop) [∀ s a, Decidable (G s a)] : σ → List α → Bool
  | _, [] => true
  | s, a :: as => decide (G s a) && allMet f G (f s a) as

theorem runIn_foldl {f : σ → α → σ} [∀ s a, Decidable (G s a)] (h : allMet f G s as = true) :
    RunIn G (fun s a s' => s' = f s a) s as (as.foldl f s) := by
  induction as generalizing s with
  | nil => exact .nil s
  | cons a as ih =>
    rw [allMet, Bool.and_eq_true, decide_eq_true_eq] at h
    exact .cons ⟨h.1, rfl⟩ (ih h.2)

end AxiomeOS.Runs
