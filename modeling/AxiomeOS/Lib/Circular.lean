import Mathlib.Data.Nat.ModEq
import AxiomeOS.Lib.Slots

/-!
# The used part of a circular array

An array of `N` cells with a head and a count: `window N head count a` are the cells from the head
on, going round at the end of the array.  `window_push` and `window_pop` say what becomes of them
when a cell is written behind the last one, and when the head moves on.
-/

namespace AxiomeOS.Circular

open Slots

variable {α : Type*}

/-- The `count` cells from `head` on. -/
def window (N head count : ℕ) (a : ℕ → α) : List α :=
  cells (fun i => a ((head + i) % N)) count

theorem index_ne {N head i j : ℕ} (hij : i < j) (hj : j < N) : (head + i) % N ≠ (head + j) % N := by
  intro heq
  have hmod : i % N = j % N := Nat.ModEq.add_left_cancel' head heq
  rw [Nat.mod_eq_of_lt hj, Nat.mod_eq_of_lt (Nat.lt_trans hij hj)] at hmod
  omega

theorem window_push {N head count : ℕ} (a : ℕ → α) (x : α) (h : count < N) :
    window N head (count + 1) (Function.update a ((head + count) % N) x) =
      window N head count a ++ [x] := by
  rw [window, cells_succ, Function.update_self]
  congr 1
  apply List.map_congr_left
  intro i hi
  exact Function.update_of_ne (index_ne (List.mem_range.mp hi) h) _ _

theorem window_pop {N head : ℕ} (count : ℕ) (a : ℕ → α) (h : head < N) :
    window N head (count + 1) a = a head :: window N ((head + 1) % N) count a := by
  rw [window, cells, List.range_succ_eq_map, List.map_cons, List.map_map, Nat.add_zero,
    Nat.mod_eq_of_lt h]
  congr 1
  apply List.map_congr_left
  intro i _
  show a ((head + (i + 1)) % N) = a (((head + 1) % N + i) % N)
  rw [Nat.mod_add_mod, Nat.add_right_comm, Nat.add_assoc]

end AxiomeOS.Circular
