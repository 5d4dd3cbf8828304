import Mathlib.Data.Int.Notation
import Mathlib.Data.List.Induction
import Mathlib.Order.Lattice

/-!
# Reading a directory into 64 places

`readdir` fills the places it is given and answers how many entries there are.  `rm_recursive`,
`copy_contents` and `remove_tree` visit as many places as it answers, `move_dir` at most 64.
-/

namespace AxiomeOS.Readdir

open List

abbrev Name := List UInt8

/-- An entry met by a file system's `list`: stored while there is room, counted in any case. -/
def emit (max : ℕ) (acc : ℕ × List Name) (nm : Name) : ℕ × List Name :=
  (acc.1 + 1, if acc.1 < max then acc.2 ++ [nm] else acc.2)

def entries (names : List Name) : List Name := [46] :: [46, 46] :: names

def list (names : List Name) (max : ℕ) : ℕ × List Name := (entries names).foldl (emit max) (0, [])

/-- The answer and what is copied out, for an error or the names in the directory. -/
def sysReaddir (dir : Except ℕ (List Name)) (max : ℤ) : ℤ × List Name :=
  match dir with
  | .error e => (-e, [])
  | .ok names =>
    let cap := if max < 1 then 1 else if max > 1024 then 1024 else max
    let (count, kbuf) := list names cap.toNat
    (count, kbuf.take (min (min (count : ℤ) max) cap).toNat)

inductive Routine
  | rmRecursive
  | copyContents
  | removeTree
  | moveDir

/-- The bound of the loop over the places, after the answer `n`. -/
def Routine.bound (r : Routine) (n : ℤ) : ℕ :=
  match r with
  | .moveDir => min n.toNat 64
  | _ => n.toNat

theorem foldl_emit (max : ℕ) (es : List Name) :
    es.foldl (emit max) (0, []) = (es.length, es.take max) := by
  induction es using reverseRecOn with
  | nil => simp
  | append_singleton es e ih =>
    rw [foldl_append, ih]
    by_cases h : es.length < max
    · obtain ⟨k, rfl⟩ := Nat.exists_eq_add_of_lt h
      simp [emit, take_append, Nat.add_assoc]
    · simp [emit, h, take_append, Nat.sub_eq_zero_of_le (Nat.le_of_not_lt h)]

theorem sysReaddir_ok (names : List Name) :
    sysReaddir (.ok names) 64 = ((names.length + 2 : ℤ), (entries names).take 64) := by
  have h : list names 64 = (names.length + 2, (entries names).take 64) :=
    foldl_emit 64 (entries names)
  have hlen : ((entries names).take 64).length ≤ (min (names.length + 2 : ℤ) 64).toNat := by
    simp [entries]
    omega
  simp [sysReaddir, h, take_of_length_le hlen]

/-- **The places visited.**  They are places of the buffer that were filled, with names of the
directory, exactly if it has at most 62 entries beside `.` and `..`, or `move_dir` is reading. -/
theorem readdir_places_iff (r : Routine) (dir : Except ℕ (List Name)) :
    (∀ i < r.bound (sysReaddir dir 64).1, i < 64 ∧ ∃ names nm, dir = .ok names ∧
      nm ∈ entries names ∧ (sysReaddir dir 64).2[i]? = some nm) ↔
      ∀ names, dir = .ok names → r = .moveDir ∨ names.length ≤ 62 := by
  cases dir with
  | error e => cases r <;> simp [sysReaddir, Routine.bound]
  | ok names =>
    have hfilled : ∀ i < 64, i < names.length + 2 →
        ∃ nm ∈ entries names, ((entries names).take 64)[i]? = some nm := by
      intro i hi hlt
      have hlen : i < (entries names).length := hlt
      exact ⟨_, getElem_mem hlen, by rw [getElem?_take_of_lt hi, getElem?_eq_getElem hlen]⟩
    have hn : (names.length + 2 : ℤ).toNat = names.length + 2 := by omega
    have hbound : r.bound (names.length + 2) ≤ 64 ↔ r = .moveDir ∨ names.length ≤ 62 := by
      cases r <;> simp [Routine.bound, hn]
    have hle : r.bound (names.length + 2) ≤ names.length + 2 := by
      cases r <;> simp [Routine.bound, hn]
    simp only [sysReaddir_ok, Except.ok.injEq, forall_eq', exists_eq_left', exists_and_left,
      ← hbound]
    constructor
    · intro h
      by_contra hgt
      exact absurd (h 64 (Nat.lt_of_not_le hgt)).1 (Nat.lt_irrefl 64)
    · intro h i hi
      exact ⟨Nat.lt_of_lt_of_le hi h, hfilled i (Nat.lt_of_lt_of_le hi h)
        (Nat.lt_of_lt_of_le hi hle)⟩

/-- The names of 63 files. -/
def manyNames : List Name := (range 63).map fun i => [UInt8.ofNat (65 + i)]

theorem rm_leaves_buffer : manyNames.Nodup ∧
    ∃ i < Routine.bound .rmRecursive (sysReaddir (.ok manyNames) 64).1, 64 ≤ i := by
  refine ⟨by decide, 64, ?_, Nat.le_refl 64⟩
  rw [sysReaddir_ok]
  decide

end AxiomeOS.Readdir
