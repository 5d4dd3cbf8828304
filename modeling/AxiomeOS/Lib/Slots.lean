import Mathlib.Data.List.Basic

/-!
# The used part of an array, as a list

An array with a count: `cells a n` is the list of its first `n` cells.  In-place insertion in C is
a loop that moves the cells above a position up by one, followed by an assignment; `cells_insert`
says that this inserts in the list, and `cells_insert_two` what becomes of the list when two cells
are assigned.
-/

namespace AxiomeOS.Slots

open Function List

variable {α : Type*}

/-- The first `n` cells. -/
def cells (a : ℕ → α) (n : ℕ) : List α := (List.range n).map a

@[simp] theorem length_cells (a : ℕ → α) (n : ℕ) : (cells a n).length = n := by
  rw [cells, length_map, length_range]

theorem getElem?_cells (a : ℕ → α) (n j : ℕ) :
    (cells a n)[j]? = if j < n then some (a j) else none := by
  rw [cells, getElem?_map]
  by_cases hj : j < n
  · rw [getElem?_range hj, if_pos hj, Option.map_some]
  · rw [getElem?_eq_none (by rw [length_range]; omega), if_neg hj, Option.map_none]

variable {a : ℕ → α} {j k lo n : ℕ} {l r : List α} {x : α}

theorem cells_eq_iff : cells a n = l ↔ l.length = n ∧ ∀ j < n, l[j]? = some (a j) := by
  constructor
  · rintro rfl
    refine ⟨length_cells a n, ?_⟩
    intro j hj
    rw [getElem?_cells, if_pos hj]
  · rintro ⟨hlen, hget⟩
    apply ext_getElem?
    intro j
    rw [getElem?_cells]
    by_cases hj : j < n
    · rw [if_pos hj, hget j hj]
    · rw [if_neg hj, getElem?_eq_none (by omega)]

theorem cells_succ (a : ℕ → α) (n : ℕ) : cells a (n + 1) = cells a n ++ [a n] := by
  rw [cells, range_succ, map_append]
  rfl

theorem mem_cells : x ∈ cells a n ↔ ∃ j < n, a j = x := by
  simp only [cells, mem_map, mem_range]

theorem cells_middle (h : cells a n = l ++ x :: r) :
    a l.length = x ∧ n = l.length + 1 + r.length := by
  have hn : n = l.length + 1 + r.length := by
    have hlen := congrArg length h
    rw [length_cells, length_append, length_cons] at hlen
    omega
  refine ⟨?_, hn⟩
  have hget := (cells_eq_iff.mp h).2 l.length (by omega)
  rw [getElem?_append_right (Nat.le_refl _), Nat.sub_self, getElem?_cons_zero] at hget
  exact (Option.some.inj hget).symm

theorem cells_update (h : cells a n = l ++ x :: r) (y : α) :
    cells (update a l.length y) n = l ++ y :: r := by
  have hset : cells (update a l.length y) n = (cells a n).set l.length y := by
    refine cells_eq_iff.mpr ⟨by rw [length_set, length_cells], fun j hj => ?_⟩
    rw [getElem?_set, length_cells, getElem?_cells, if_pos hj, update_apply]
    split_ifs <;> first | rfl | omega
  rw [hset, h, set_append_right _ _ (Nat.le_refl _), Nat.sub_self, set_cons_zero]

theorem cells_update_append (h : cells a n = l ++ x :: r) (y : α) :
    cells (update a l.length y) n = (l ++ [y]) ++ r := by
  rw [cells_update h, append_assoc]
  rfl

/-- `for (j = lo + k; j > lo; j--) a[j] = a[j - 1];` -/
def shiftUp (a : ℕ → α) (lo : ℕ) : ℕ → ℕ → α
  | 0 => a
  | k + 1 => shiftUp (update a (lo + k + 1) (a (lo + k))) lo k

theorem shiftUp_apply (a : ℕ → α) (lo k j : ℕ) :
    shiftUp a lo k j = if lo < j ∧ j ≤ lo + k then a (j - 1) else a j := by
  induction k generalizing a with
  | zero => rw [shiftUp, if_neg (by omega)]
  | succ k ih =>
    rw [shiftUp, ih]
    obtain hlt | rfl | hgt := Nat.lt_trichotomy j (lo + k + 1)
    · by_cases hlo : lo < j
      · rw [if_pos (by omega), if_pos (by omega), update_of_ne (by omega)]
      · rw [if_neg (by omega), if_neg (by omega), update_of_ne (by omega)]
    · rw [if_neg (by omega), if_pos (by omega), update_self]
      rfl
    · rw [if_neg (by omega), if_neg (by omega), update_of_ne (by omega)]

theorem shiftUp_low (a : ℕ → α) (h : j ≤ lo) : shiftUp a lo k j = a j := by
  rw [shiftUp_apply, if_neg (by omega)]

theorem shiftUp_high (a : ℕ → α) (h : lo + k < j) : shiftUp a lo k j = a j := by
  rw [shiftUp_apply, if_neg (by omega)]

/-- **Insertion in place.**  The cells from a position on move up, and the free cell is filled. -/
theorem cells_insert (h : cells a n = l ++ r) (x : α) :
    cells (update (shiftUp a l.length (n - l.length)) l.length x) (n + 1) = l ++ x :: r := by
  have hn : n = l.length + r.length := by
    rw [← length_cells a n, h, length_append]
  rw [cells_eq_iff] at h ⊢
  refine ⟨by rw [length_append, length_cons]; omega, ?_⟩
  intro j hj
  obtain hlt | rfl | hgt := Nat.lt_trichotomy j l.length
  · have hget := h.2 j (by omega)
    rw [getElem?_append_left hlt] at hget ⊢
    rw [update_of_ne (by omega), shiftUp_low a (by omega), hget]
  · rw [getElem?_append_right (Nat.le_refl _), Nat.sub_self, getElem?_cons_zero, update_self]
  · have hget := h.2 (j - 1) (by omega)
    rw [getElem?_append_right (by omega)] at hget ⊢
    rw [update_of_ne (by omega), shiftUp_apply, if_pos (by omega), ← hget,
      show j - l.length = j - 1 - l.length + 1 by omega, getElem?_cons_succ]

/-- Filling two cells after moving by one: the first of the moved cells is lost, and the cell
behind the used part comes in at the end. -/
theorem cells_insert_two (h : cells a n = l ++ r) (x y : α) :
    cells (update (update (shiftUp a l.length (n + 1 - l.length)) l.length x)
      (l.length + 1) y) (n + 2) = l ++ x :: y :: (r ++ [a n]).tail := by
  have hsucc : cells a (n + 1) = l ++ (r ++ [a n]) := by
    rw [cells_succ, h, append_assoc]
  have hins := cells_insert hsucc x
  obtain ⟨z, zs, hz⟩ : ∃ z zs, r ++ [a n] = z :: zs := by
    cases r with
    | nil => exact ⟨_, _, rfl⟩
    | cons z r => exact ⟨_, _, rfl⟩
  rw [hz, show l ++ x :: z :: zs = (l ++ [x]) ++ z :: zs by simp] at hins
  have hset := cells_update hins y
  rw [length_append, length_singleton] at hset
  rw [hset, hz]
  simp

end AxiomeOS.Slots
