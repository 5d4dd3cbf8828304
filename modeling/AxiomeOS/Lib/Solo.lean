import Mathlib.Data.Nat.Notation
import Mathlib.Logic.Function.Basic

/-!
# Threads of which one is at work

`Solo` is the part of an invariant that speaks of the places of the threads: at most one is busy,
something holds while none is in the middle of its work, and each knows what belongs to its place.
An idle thread is in the middle of nothing, and there is nothing it has to know.
-/

namespace AxiomeOS.Threads

open Function

variable {α : Type*} {busy mid : α → Bool} {Held : α → Prop} {Still : Prop} {pc pc' : ℕ → α} {t : ℕ}

/-- What is said of the places `pc`. -/
structure Solo (busy mid : α → Bool) (Held : α → Prop) (Still : Prop) (pc : ℕ → α) : Prop where
  alone : ∀ t t', busy (pc t) = true → busy (pc t') = true → t = t'
  still : (∀ t, mid (pc t) = false) → Still
  held : ∀ t, Held (pc t)

variable (hidle : ∀ r, busy r = false → mid r = false ∧ Held r)
include hidle

/-- Idle threads may be anywhere, as long as they are idle. -/
theorem Solo.relabel (h : Solo busy mid Held Still pc)
    (hpc : ∀ t, pc' t = pc t ∨ busy (pc t) = false ∧ busy (pc' t) = false) :
    Solo busy mid Held Still pc' := by
  have hbusy : ∀ t, busy (pc' t) = busy (pc t) := by
    intro t
    obtain heq | ⟨h1, h2⟩ := hpc t
    · rw [heq]
    · rw [h1, h2]
  refine ⟨?_, fun hall => h.still fun t => ?_, fun t => ?_⟩
  · intro t1 t2 h1 h2
    exact h.alone t1 t2 ((hbusy t1).symm.trans h1) ((hbusy t2).symm.trans h2)
  · obtain heq | hnot := hpc t
    · rw [← heq]
      exact hall t
    · exact (hidle _ hnot.1).1
  · obtain heq | hnot := hpc t
    · rw [heq]
      exact h.held t
    · exact (hidle _ hnot.2).2

variable (hothers : ∀ t', t' ≠ t → busy (pc t') = false)
include hothers

theorem not_mid (hself : mid (pc t) = false) (t' : ℕ) : mid (pc t') = false := by
  by_cases hne : t' = t
  · rw [hne]
    exact hself
  · exact (hidle _ (hothers t' hne)).1

/-- The only thread that may be busy moves on. -/
theorem solo_update {r : α} (hheld : Held r) (hstill : mid r = false → Still) :
    Solo busy mid Held Still (update pc t r) := by
  refine ⟨?_, fun hall => hstill ?_, fun t' => ?_⟩
  · have honly : ∀ t', busy (update pc t r t') = true → t' = t := by
      intro t' hb
      by_contra hne
      rw [update_of_ne hne, hothers t' hne] at hb
      cases hb
    intro t1 t2 h1 h2
    rw [honly t1 h1, honly t2 h2]
  · have ht := hall t
    rwa [update_self] at ht
  · by_cases hne : t' = t
    · rw [hne, update_self]
      exact hheld
    · rw [update_of_ne hne]
      exact (hidle _ (hothers t' hne)).2

end AxiomeOS.Threads
