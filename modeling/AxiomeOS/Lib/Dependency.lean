import Mathlib.Logic.Relation
import Mathlib.Data.List.Nodup

/-!
# Orders of completion of a dependency relation

A relation `R i j` reads "`i` needs `j`".  A list is an *order of completion*, newest first, when
every element needs only elements that stand behind it.  Nothing on such a list can be on a cycle
of `R`, nor reach one: the needs of a member are older members, and there are only finitely many.
-/

namespace AxiomeOS.Lib

variable {α : Type*}

/-- `i` is on a cycle of `R`, or some chain of needs leads from `i` to one. -/
def BehindCycle (R : α → α → Prop) (i : α) : Prop :=
  ∃ k, Relation.ReflTransGen R i k ∧ Relation.TransGen R k k

variable {R : α → α → Prop} {l : List α}

theorem BehindCycle.exists_need {i : α} (h : BehindCycle R i) : ∃ j, R i j ∧ BehindCycle R j := by
  obtain ⟨k, hik, hkk⟩ := h
  rcases Relation.ReflTransGen.cases_head hik with rfl | ⟨j, hij, hjk⟩
  · obtain ⟨j, hij, hji⟩ := Relation.TransGen.head'_iff.mp hkk
    exact ⟨j, hij, i, hji, hkk⟩
  · exact ⟨j, hij, k, hjk, hkk⟩

/-- `l` lists, newest first, what has been completed: no element twice, and each one only after
all it needs. -/
def CompletionOrder (R : α → α → Prop) : List α → Prop
  | [] => True
  | i :: l => i ∉ l ∧ (∀ j, R i j → j ∈ l) ∧ CompletionOrder R l

theorem CompletionOrder.nodup (h : CompletionOrder R l) : l.Nodup := by
  induction l with
  | nil => exact List.nodup_nil
  | cons i l ih => exact List.nodup_cons.mpr ⟨h.1, ih h.2.2⟩

/-- **Nothing behind a cycle is ever completed.** -/
theorem CompletionOrder.not_behindCycle (h : CompletionOrder R l) : ∀ i ∈ l, ¬ BehindCycle R i := by
  induction l with
  | nil => intro i hi; exact absurd hi (List.not_mem_nil)
  | cons a l ih =>
    intro i hi hc
    rcases List.mem_cons.mp hi with rfl | hil
    · obtain ⟨j, hij, hj⟩ := hc.exists_need
      exact ih h.2.2 j (h.2.1 j hij) hj
    · exact ih h.2.2 i hil hc

end AxiomeOS.Lib
