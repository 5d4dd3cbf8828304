import Mathlib.Data.Fintype.BigOperators

/-!
# Counting the entries of tables

A table gives each of finitely many owners a row of entries.  `tally T f P` counts the entries
with the property `P` in the rows of the owners `T`.

* writing one entry changes the tally by that entry (`tally_set`);
* a new owner whose row has no such entry, and an owner that has none left, do not count
  (`tally_insert`, `tally_erase`);
* the tally is zero when no entry has the property (`tally_eq_zero`).
-/

namespace AxiomeOS.Tally

open Function Finset

variable {τ ι β : Type*}

section Tables

variable [DecidableEq τ] [DecidableEq ι]

/-- The table with one entry replaced. -/
def setEntry (f : τ → ι → β) (t : τ) (i : ι) (b : β) : τ → ι → β :=
  update f t (update (f t) i b)

theorem setEntry_self (f : τ → ι → β) (t : τ) (i : ι) (b : β) : setEntry f t i b t i = b := by
  rw [setEntry, update_self, update_self]

theorem setEntry_of_ne (f : τ → ι → β) {t t' : τ} {i i' : ι} (b : β) (h : t' ≠ t ∨ i' ≠ i) :
    setEntry f t i b t' i' = f t' i' := by
  by_cases ht : t' = t
  · subst ht
    rw [setEntry, update_self, update_of_ne (h.resolve_left (fun e => e rfl))]
  · rw [setEntry, update_of_ne ht]

end Tables

variable [Fintype ι]

/-- How many entries of the row have the property. -/
def rowTally (r : ι → β) (P : β → Bool) : ℕ := ∑ i, (P (r i)).toNat

/-- How many entries in the rows of the owners `T` have the property. -/
def tally (T : Finset τ) (f : τ → ι → β) (P : β → Bool) : ℕ := ∑ t ∈ T, rowTally (f t) P

variable {T : Finset τ} {f f' : τ → ι → β} {P P' : β → Bool}

theorem rowTally_update [DecidableEq ι] (r : ι → β) (i : ι) (b : β) (P : β → Bool) :
    rowTally (update r i b) P + (P (r i)).toNat = rowTally r P + (P b).toNat := by
  rw [rowTally, rowTally, ← add_sum_erase _ _ (mem_univ i),
    ← add_sum_erase univ (fun j => (P (r j)).toNat) (mem_univ i),
    update_self]
  have hrest : ∑ j ∈ univ.erase i, (P (update r i b j)).toNat =
      ∑ j ∈ univ.erase i, (P (r j)).toNat := by
    refine sum_congr rfl fun j hj => ?_
    rw [update_of_ne (ne_of_mem_erase hj)]
  rw [hrest]
  omega

/-- **Writing one entry.** -/
theorem tally_set [DecidableEq τ] [DecidableEq ι] {t : τ} (ht : t ∈ T) (f : τ → ι → β) (i : ι)
    (b : β) (P : β → Bool) :
    tally T (setEntry f t i b) P + (P (f t i)).toNat = tally T f P + (P b).toNat := by
  rw [tally, tally, ← add_sum_erase _ _ ht,
    ← add_sum_erase T (fun u => rowTally (f u) P) ht]
  have hrest : ∑ u ∈ T.erase t, rowTally (setEntry f t i b u) P =
      ∑ u ∈ T.erase t, rowTally (f u) P := by
    refine sum_congr rfl fun u hu => ?_
    rw [setEntry, update_of_ne (ne_of_mem_erase hu)]
  have hrow := rowTally_update (f t) i b P
  rw [hrest, setEntry, update_self]
  omega

theorem tally_congr (h : ∀ t ∈ T, ∀ i, P' (f' t i) = P (f t i)) : tally T f' P' = tally T f P := by
  refine sum_congr rfl fun t ht => sum_congr rfl fun i _ => ?_
  rw [h t ht i]

theorem rowTally_eq_zero {r : ι → β} : rowTally r P = 0 ↔ ∀ i, P (r i) = false := by
  rw [rowTally, sum_eq_zero_iff]
  refine forall_congr' fun i => ?_
  cases P (r i) <;> simp

/-- **Nothing to count.** -/
theorem tally_eq_zero : tally T f P = 0 ↔ ∀ t ∈ T, ∀ i, P (f t i) = false := by
  rw [tally, sum_eq_zero_iff]
  exact forall₂_congr fun t _ => rowTally_eq_zero

theorem tally_pos {t : τ} {i : ι} (ht : t ∈ T) (h : P (f t i) = true) : 0 < tally T f P := by
  rw [Nat.pos_iff_ne_zero]
  intro h0
  rw [tally_eq_zero.mp h0 t ht i] at h
  cases h

theorem tally_insert [DecidableEq τ] {t : τ} (ht : t ∉ T) (h : ∀ i, P (f t i) = false) :
    tally (insert t T) f P = tally T f P := by
  rw [tally, sum_insert ht, rowTally_eq_zero.mpr h, Nat.zero_add, tally]

theorem tally_erase [DecidableEq τ] {t : τ} (ht : t ∈ T) (h : ∀ i, P (f t i) = false) :
    tally (T.erase t) f P = tally T f P := by
  rw [tally, tally, ← add_sum_erase _ _ ht, rowTally_eq_zero.mpr h, Nat.zero_add]

end AxiomeOS.Tally
