import AxiomeOS.Lib.Slots
import Mathlib.Algebra.Group.Nat.Defs
import Mathlib.Data.List.Pairwise

/-!
# Reserving ranges in the boot memory map

`reserve_range` (`bootloader/mmap.c`) takes a range out of the usable entries of the memory map:
entries are retyped, trimmed or split in place while a loop runs over the array.  What the loop
computes is the list of entries with each entry replaced by its pieces (`carve`), as long as the
pieces are put where nothing is lost (`reserveLoop_carve`).

One branch does lose something.  A range strictly inside an entry makes three pieces of it, but the
cells above are moved up by one place only: the next entry is overwritten, and the cell behind
the used part, which nobody wrote, becomes the last entry.  And an entry that ends at `2 ^ 64` has
the computed end 0 and is passed over.  `reserve_range_exact_iff` says that these are the only
ways in which the reservation fails.
-/

namespace AxiomeOS.Boot

open Slots Function List

variable {s : Scan} {l : List Entry}

def axbMemUsable : ℕ := 1
def axbMemReserved : ℕ := 2
def axbootMaxMmap : ℕ := 64

/-- A cell of the array of `struct axboot_mmap_entry`; `written` is false as long as the cell has
not been assigned as a whole. -/
structure Entry where
  base : ℕ
  length : ℕ
  type : ℕ
  reserved : ℕ
  written : Bool
  deriving DecidableEq, Repr

/-- The variables of the loop. -/
structure Scan where
  ents : ℕ → Entry
  n : ℕ
  i : ℕ

/-- The body of the loop of `reserve_range`. -/
def reserveStep (base len : ℕ) (s : Scan) : Scan :=
  let stop := (base + len) % 2 ^ 64
  let e := s.ents s.i
  let eb := e.base
  let ee := (eb + e.length) % 2 ^ 64
  if e.type ≠ axbMemUsable then { s with i := s.i + 1 }
  else if ee ≤ base ∨ stop ≤ eb then { s with i := s.i + 1 }
  else if base ≤ eb ∧ ee ≤ stop then
    -- fully covered
    { s with ents := update s.ents s.i { e with type := axbMemReserved }, i := s.i + 1 }
  else if base ≤ eb then
    -- trim the head
    let ents := update s.ents s.i { e with base := stop, length := ee - stop }
    if axbootMaxMmap < s.n + 1 then { s with ents := ents, i := s.i + 1 }
    else
      let ents := shiftUp ents s.i (s.n - s.i)
      let ents := update ents s.i
        { ents s.i with base := eb, length := stop - eb, type := axbMemReserved }
      ⟨ents, s.n + 1, s.i + 2⟩
  else if ee ≤ stop then
    -- trim the tail
    let ents := update s.ents s.i { e with length := base - eb }
    if axbootMaxMmap < s.n + 1 then { s with ents := ents, i := s.i + 1 }
    else
      let ents := shiftUp ents (s.i + 1) (s.n - (s.i + 1))
      let ents := update ents (s.i + 1) ⟨base, ee - base, axbMemReserved, 0, true⟩
      ⟨ents, s.n + 1, s.i + 2⟩
  else
    -- punch a hole
    let ents := update s.ents s.i { e with length := base - eb }
    if axbootMaxMmap < s.n + 2 then { s with ents := ents, i := s.i + 1 }
    else
      let ents := shiftUp ents (s.i + 1) (s.n + 1 - (s.i + 1))
      let ents := update ents (s.i + 1) ⟨base, len, axbMemReserved, 0, true⟩
      let ents := update ents (s.i + 2) ⟨stop, ee - stop, axbMemUsable, 0, true⟩
      ⟨ents, s.n + 2, s.i + 3⟩

/-- The loop; each round brings `i` one closer to `n`. -/
def reserveLoop (base len : ℕ) : ℕ → Scan → Scan
  | 0, s => s
  | fuel + 1, s => if s.i < s.n then reserveLoop base len fuel (reserveStep base len s) else s

/-- `reserve_range`: the array and the count afterwards. -/
def reserveRange (ents : ℕ → Entry) (count base len : ℕ) : (ℕ → Entry) × ℕ :=
  let s := reserveLoop base len count ⟨ents, count, 0⟩
  (s.ents, s.n)

/-! ### The pieces of an entry -/

def Entry.Covers (e : Entry) (a : ℕ) : Prop := e.base ≤ a ∧ a < e.base + e.length

instance (e : Entry) (a : ℕ) : Decidable (e.Covers a) := inferInstanceAs (Decidable (_ ∧ _))

/-- The end of an entry as the code computes it. -/
def Entry.stop (e : Entry) : ℕ := (e.base + e.length) % 2 ^ 64

/-- The pieces that an entry falls into when `[base, stop)` is taken out. -/
def carve (base stop : ℕ) (e : Entry) : List Entry :=
  if e.type ≠ axbMemUsable then [e]
  else if e.stop ≤ base ∨ stop ≤ e.base then [e]
  else if base ≤ e.base ∧ e.stop ≤ stop then [{ e with type := axbMemReserved }]
  else if base ≤ e.base then
    [{ e with length := stop - e.base, type := axbMemReserved },
      { e with base := stop, length := e.stop - stop }]
  else if e.stop ≤ stop then
    [{ e with length := base - e.base }, ⟨base, e.stop - base, axbMemReserved, 0, true⟩]
  else
    [{ e with length := base - e.base }, ⟨base, stop - base, axbMemReserved, 0, true⟩,
      ⟨stop, e.stop - stop, axbMemUsable, 0, true⟩]

/-- The entry is split in three. -/
def Entry.Holed (base stop : ℕ) (e : Entry) : Prop :=
  e.type = axbMemUsable ∧ e.base < base ∧ stop < e.stop

instance (base stop : ℕ) (e : Entry) : Decidable (e.Holed base stop) :=
  inferInstanceAs (Decidable (_ ∧ _))

variable {base len : ℕ}

theorem length_le_flatMap_carve (base stop : ℕ) (l : List Entry) :
    l.length ≤ (l.flatMap (carve base stop)).length := by
  induction l with
  | nil => exact Nat.le_refl 0
  | cons e l ih =>
    have hone : 1 ≤ (carve base stop e).length := by
      unfold carve
      repeat' split
      all_goals simp
    rw [flatMap_cons, length_append, length_cons]
    omega

variable {e f : Entry} {r : List Entry}

theorem carve_of_holed {stop : ℕ} (hbase : base < stop) (h : e.Holed base stop) :
    carve base stop e =
      [{ e with length := base - e.base }, ⟨base, stop - base, axbMemReserved, 0, true⟩,
        ⟨stop, e.stop - stop, axbMemUsable, 0, true⟩] := by
  obtain ⟨htype, hlow, hhigh⟩ := h
  rw [carve, if_neg (by simpa using htype), if_neg (by omega), if_neg (by omega),
    if_neg (by omega), if_neg (by omega)]

/-- The round that punches a hole: the entry is replaced by its pieces, but the next entry is
lost and a cell from behind the used part comes in at the end. -/
theorem reserveStep_hole (hlen : 0 < len)
    (hstop : base + len < 2 ^ 64) (hcells : cells s.ents s.n = l ++ e :: r) (hi : s.i = l.length)
    (hroom : s.n + 2 ≤ axbootMaxMmap) (hhole : e.Holed base (base + len)) :
    cells (reserveStep base len s).ents (reserveStep base len s).n =
        (l ++ carve base (base + len) e) ++ (r ++ [s.ents s.n]).tail ∧
      (reserveStep base len s).i = (l ++ carve base (base + len) e).length := by
  obtain ⟨he, hn⟩ := cells_middle hcells
  rw [carve_of_holed (by omega) hhole]
  obtain ⟨htype, hlow, hhigh⟩ := hhole
  have hmod : (base + len) % 2 ^ 64 = base + len := Nat.mod_eq_of_lt hstop
  rw [← hi] at he
  unfold reserveStep
  simp only [he, hmod]
  rw [show (e.base + e.length) % 2 ^ 64 = e.stop from rfl, if_neg (by simpa using htype),
    if_neg (by omega), if_neg (by omega), if_neg (by omega), if_neg (by omega), if_neg (by omega)]
  have hset := cells_update_append hcells { e with length := base - e.base }
  have hins := cells_insert_two hset ⟨base, len, axbMemReserved, 0, true⟩
    ⟨base + len, e.stop - (base + len), axbMemUsable, 0, true⟩
  rw [length_append, length_singleton, update_of_ne (by omega)] at hins
  refine ⟨?_, by simp [hi]⟩
  rw [hi, show base + len - base = len by omega]
  show cells _ (s.n + 2) = _
  rw [hins]
  simp

/-- **One round**, where nothing is lost: the entry is replaced by its pieces, and the loop goes on
behind them. -/
theorem reserveStep_carve (hlen : 0 < len)
    (hstop : base + len < 2 ^ 64) (hcells : cells s.ents s.n = l ++ e :: r) (hi : s.i = l.length)
    (hroom : l.length + (carve base (base + len) e).length + r.length ≤ axbootMaxMmap)
    (hhole : e.Holed base (base + len) → r = []) :
    cells (reserveStep base len s).ents (reserveStep base len s).n =
        (l ++ carve base (base + len) e) ++ r ∧
      (reserveStep base len s).i = (l ++ carve base (base + len) e).length := by
  by_cases hholed : e.Holed base (base + len)
  · -- in the last entry a hole does no harm
    have hr := hhole hholed
    subst hr
    have hcount := (cells_middle hcells).2
    rw [carve_of_holed (by omega) hholed, length_cons, length_cons, length_singleton] at hroom
    rw [length_nil] at hroom hcount
    exact reserveStep_hole hlen hstop hcells hi (by omega) hholed
  obtain ⟨he, hn⟩ := cells_middle hcells
  have hmod : (base + len) % 2 ^ 64 = base + len := Nat.mod_eq_of_lt hstop
  rw [← hi] at he
  unfold reserveStep
  unfold carve at hroom ⊢
  simp only [he, hmod]
  rw [show (e.base + e.length) % 2 ^ 64 = e.stop from rfl]
  by_cases htype : e.type ≠ axbMemUsable
  · simp only [if_pos htype] at hroom ⊢
    refine ⟨by rw [hcells, append_assoc]; rfl, ?_⟩
    rw [length_append, hi]
    rfl
  simp only [if_neg htype] at hroom ⊢
  by_cases hout : e.stop ≤ base ∨ base + len ≤ e.base
  · simp only [if_pos hout] at hroom ⊢
    refine ⟨by rw [hcells, append_assoc]; rfl, ?_⟩
    rw [length_append, hi]
    rfl
  simp only [if_neg hout] at hroom ⊢
  by_cases hfull : base ≤ e.base ∧ e.stop ≤ base + len
  · simp only [if_pos hfull] at hroom ⊢
    rw [hi]
    refine ⟨cells_update_append hcells _, ?_⟩
    rw [length_append]
    rfl
  simp only [if_neg hfull] at hroom ⊢
  by_cases hhead : base ≤ e.base
  · simp only [if_pos hhead, length_cons, length_nil] at hroom ⊢
    rw [if_neg (by omega), hi]
    have hset := cells_update hcells { e with base := base + len, length := e.stop - (base + len) }
    refine ⟨?_, by simp⟩
    rw [cells_insert hset, shiftUp_low _ (Nat.le_refl _), update_self, append_assoc]
    rfl
  simp only [if_neg hhead] at hroom ⊢
  by_cases htail : e.stop ≤ base + len
  · simp only [if_pos htail, length_cons, length_nil] at hroom ⊢
    rw [if_neg (by omega), hi]
    have hset := cells_update_append hcells { e with length := base - e.base }
    have hins := cells_insert hset ⟨base, e.stop - base, axbMemReserved, 0, true⟩
    rw [length_append, length_singleton] at hins
    refine ⟨?_, by simp⟩
    rw [hins]
    simp
  · exact absurd ⟨by simpa using htype, by omega, by omega⟩ hholed

theorem reserveStep_written (base len : ℕ) (s : Scan) :
    ((reserveStep base len s).ents s.i).written = (s.ents s.i).written := by
  simp only [reserveStep]
  repeat' split
  all_goals simp [update_of_ne, shiftUp_low]

/-- A round does not touch the cells behind the used part it leaves, and the loop comes one entry
closer to its end. -/
theorem reserveStep_frame (base len : ℕ) (h : s.i < s.n) :
    (∀ j, (reserveStep base len s).n ≤ j → (reserveStep base len s).ents j = s.ents j) ∧
      (reserveStep base len s).n - (reserveStep base len s).i + 1 = s.n - s.i ∧
      (reserveStep base len s).i ≤ (reserveStep base len s).n ∧
      s.n ≤ (reserveStep base len s).n := by
  simp only [reserveStep]
  repeat' split
  all_goals
    refine ⟨?_, by dsimp only; omega, by dsimp only; omega, by dsimp only; omega⟩
    intro j hj
    dsimp only at hj
    simp (disch := omega) only [update_of_ne, shiftUp_high]

/-- **The loop over a part of the entries** in which a hole is punched in the last one only, and
only if no entry is left behind it. -/
theorem reserveLoop_carve (hlen : 0 < len) (hstop : base + len < 2 ^ 64) {pre post : List Entry}
    (fuel : ℕ) (hcells : cells s.ents s.n = l ++ (pre ++ post)) (hi : s.i = l.length)
    (hroom : l.length + (pre.flatMap (carve base (base + len))).length + post.length ≤
      axbootMaxMmap)
    (hhole : ∀ p e q, pre = p ++ e :: q → e.Holed base (base + len) → q ++ post = []) :
    ∃ s', reserveLoop base len (pre.length + fuel) s = reserveLoop base len fuel s' ∧
      cells s'.ents s'.n = (l ++ pre.flatMap (carve base (base + len))) ++ post ∧
      s'.i = (l ++ pre.flatMap (carve base (base + len))).length ∧
      s.n ≤ s'.n ∧ ∀ j, s'.n ≤ j → s'.ents j = s.ents j := by
  induction pre generalizing l s with
  | nil =>
    refine ⟨s, by rw [length_nil, Nat.zero_add], ?_, ?_, Nat.le_refl _, fun _ _ => rfl⟩
    · rw [hcells]
      simp
    · rw [hi]
      simp
  | cons e pre ih =>
    rw [flatMap_cons, length_append] at hroom
    rw [cons_append] at hcells
    have hpieces := length_le_flatMap_carve base (base + len) pre
    have hlt : s.i < s.n := by
      have hn := (cells_middle hcells).2
      omega
    obtain ⟨hstep, hi'⟩ := reserveStep_carve hlen hstop hcells hi
      (by rw [length_append]; omega) (fun h => hhole [] e pre rfl h)
    obtain ⟨hframe, -, -, hn'⟩ := reserveStep_frame base len hlt
    obtain ⟨s', hloop, hcells', hi'', hgrow, hframe'⟩ := ih hstep hi'
      (by rw [length_append]; omega)
      (fun p f q hpre h => hhole (e :: p) f q (by rw [hpre]; rfl) h)
    refine ⟨s', ?_, ?_, ?_, Nat.le_trans hn' hgrow, ?_⟩
    · rw [length_cons, show pre.length + 1 + fuel = pre.length + fuel + 1 by omega, reserveLoop,
        if_pos hlt, hloop]
    · rw [hcells', flatMap_cons]
      simp
    · rw [hi'', flatMap_cons]
      simp
    · intro j hj
      rw [hframe' j hj, hframe j (Nat.le_trans hgrow hj)]

/-! ### What the pieces cover -/

/-- Two entries share no byte. -/
def Entry.Apart (e f : Entry) : Prop := ∀ a, ¬ (e.Covers a ∧ f.Covers a)

/-- The entry shares a byte with `[base, stop)`. -/
def Entry.Meets (base stop : ℕ) (e : Entry) : Prop := ∃ a, e.Covers a ∧ base ≤ a ∧ a < stop

variable {stop : ℕ} {e : Entry}

theorem Entry.stop_le (e : Entry) : e.stop ≤ e.base + e.length := Nat.mod_le _ _

theorem Entry.stop_eq (hfits : e.base + e.length ≤ 2 ^ 64) :
    e.stop = e.base + e.length ∨ e.stop = 0 ∧ e.base + e.length = 2 ^ 64 := by
  unfold Entry.stop
  omega

theorem carve_of_not_usable (h : e.type ≠ axbMemUsable) : carve base stop e = [e] := if_pos h

/-- The pieces lie in the entry. -/
theorem covers_of_carve {x : Entry} {a : ℕ} (hx : x ∈ carve base stop e) (ha : x.Covers a) :
    e.Covers a := by
  have hle := e.stop_le
  have hpieces : ∀ x ∈ carve base stop e,
      e.base ≤ x.base ∧ x.base + x.length ≤ e.base + e.length := by
    unfold carve
    repeat' split
    all_goals
      simp only [mem_cons, not_mem_nil, or_false, forall_eq_or_imp, forall_eq]
      omega
  obtain ⟨hlow, hhigh⟩ := hpieces x hx
  unfold Entry.Covers at ha ⊢
  omega

/-- **The usable pieces** cover the bytes of a usable entry outside the range, provided that an
entry which meets the range does not end at `2 ^ 64`. -/
theorem usable_carve_iff (hbase : base < stop) (hfits : e.base + e.length ≤ 2 ^ 64)
    (hend : e.type = axbMemUsable → e.Meets base stop → e.base + e.length < 2 ^ 64) (a : ℕ) :
    (∃ x ∈ carve base stop e, x.type = axbMemUsable ∧ x.Covers a) ↔
      (e.type = axbMemUsable ∧ e.Covers a) ∧ ¬ (base ≤ a ∧ a < stop) := by
  have hres : axbMemReserved ≠ axbMemUsable := by decide
  have hstop := Entry.stop_eq hfits
  by_cases htype : e.type = axbMemUsable
  · have hmeets : e.Covers a → base ≤ a → a < stop → e.base + e.length < 2 ^ 64 :=
      fun ha h h' => hend htype ⟨a, ha, h, h'⟩
    unfold carve
    unfold Entry.Covers at hmeets ⊢
    rw [if_neg (not_not_intro htype)]
    repeat' split
    all_goals
      simp only [mem_cons, not_mem_nil, or_false, exists_eq_or_imp, exists_eq_left, hres, htype,
        false_and, true_and, false_or, false_iff]
      omega
  · rw [carve_of_not_usable htype]
    simp [htype]

theorem apart_carve (hbase : base < stop) : (carve base stop e).Pairwise Entry.Apart := by
  unfold carve
  repeat' split
  all_goals
    simp only [pairwise_cons, mem_cons, not_mem_nil, or_false, forall_eq_or_imp,
      forall_eq, false_implies, implies_true, Pairwise.nil, and_true, Entry.Apart,
      Entry.Covers]
  · intro a
    omega
  · intro a
    omega
  · refine ⟨⟨?_, ?_⟩, ?_⟩
    all_goals
      intro a
      omega

theorem written_carve (h : e.written = true) : ∀ x ∈ carve base stop e, x.written = true := by
  unfold carve
  repeat' split
  all_goals simp [h]

/-- An entry makes one more piece for each end of the range that lies in it. -/
theorem length_carve_le (base stop : ℕ) (e : Entry) :
    (carve base stop e).length ≤
      1 + (if e.Covers stop then 1 else 0) + if e.Covers base then 1 else 0 := by
  have hle := e.stop_le
  have hone : 1 ≤ 1 + (if e.Covers stop then 1 else 0) + if e.Covers base then 1 else 0 :=
    Nat.le_trans (Nat.le_add_right 1 _) (Nat.le_add_right _ _)
  unfold carve
  split
  · exact hone
  split
  · exact hone
  split
  · exact hone
  split
  · rw [if_pos (⟨by omega, by omega⟩)]
    simp
  split
  · rw [if_pos (show e.Covers base from ⟨by omega, by omega⟩)]
    simp
  · rw [if_pos (⟨by omega, by omega⟩),
      if_pos (⟨by omega, by omega⟩)]
    simp

theorem carve_of_not_meets (h : ¬ e.Meets base stop) (hbase : base < stop) :
    (carve base stop e).length = 1 ∧ ¬ e.Holed base stop := by
  have hle := e.stop_le
  have hno : ∀ a, base ≤ a → a < stop → ¬ e.Covers a := fun a h1 h2 ha => h ⟨a, ha, h1, h2⟩
  unfold Entry.Covers at hno
  have heb := hno e.base
  have hb := hno base (Nat.le_refl _) hbase
  refine ⟨?_, ?_⟩
  · unfold carve
    repeat' split
    all_goals first | rfl | omega
  · rintro ⟨-, hlow, hhigh⟩
    omega

theorem countP_le_one (h : l.Pairwise Entry.Apart) (a : ℕ) :
    l.countP (fun e => decide (e.Covers a)) ≤ 1 := by
  induction l with
  | nil => simp
  | cons e l ih =>
    obtain ⟨he, hl⟩ := pairwise_cons.mp h
    by_cases ha : e.Covers a
    · have hnone : l.countP (fun e => decide (e.Covers a)) = 0 := by
        rw [countP_eq_zero]
        intro f hf hfa
        exact he f hf a ⟨ha, of_decide_eq_true hfa⟩
      have hone : (e :: l).countP (fun e => decide (e.Covers a)) = 1 := by
        rw [countP_cons, hnone, if_pos (decide_eq_true ha)]
      exact Nat.le_of_eq hone
    · rw [countP_cons, if_neg (by simpa using ha)]
      exact ih hl

/-- Taking a range out of entries that share no byte makes at most two more. -/
theorem length_flatMap_carve_le (h : l.Pairwise Entry.Apart) (base stop : ℕ) :
    (l.flatMap (carve base stop)).length ≤ l.length + 2 := by
  have hsum : (l.flatMap (carve base stop)).length ≤
      l.length + l.countP (fun e => decide (e.Covers stop)) +
        l.countP (fun e => decide (e.Covers base)) := by
    clear h
    induction l with
    | nil => simp
    | cons e l ih =>
      have he := length_carve_le base stop e
      rw [flatMap_cons, length_append, length_cons, countP_cons, countP_cons]
      simp only [decide_eq_true_eq]
      omega
  have h1 := countP_le_one h stop
  have h2 := countP_le_one h base
  omega

/-! ### The reservation -/

/-- A memory map: entries that lie in the address space and share no byte, in an array with cells
behind them that were never written. -/
structure MemoryMap where
  ents : ℕ → Entry
  count : ℕ
  bounded : count ≤ 62
  written : ∀ j, (ents j).written = decide (j < count)
  fits : ∀ e ∈ cells ents count, e.base + e.length ≤ 2 ^ 64
  apart : (cells ents count).Pairwise Entry.Apart

def MemoryMap.entries (m : MemoryMap) : List Entry := cells m.ents m.count

/-- A range that is not empty and does not overflow. -/
structure Range where
  base : ℕ
  len : ℕ
  pos : 0 < len
  noOverflow : base + len < 2 ^ 64

/-- The entries after `reserve_range`. -/
def MemoryMap.reserve (m : MemoryMap) (r : Range) : List Entry :=
  let (ents, count) := reserveRange m.ents m.count r.base r.len
  cells ents count

/-- What the reservation is for. -/
structure Reserved (before : List Entry) (r : Range) (after : List Entry) : Prop where
  usable : ∀ a, (∃ e ∈ after, e.type = axbMemUsable ∧ e.Covers a) ↔
    (∃ e ∈ before, e.type = axbMemUsable ∧ e.Covers a) ∧ ¬ (r.base ≤ a ∧ a < r.base + r.len)
  kept : ∀ e ∈ before, e.type ≠ axbMemUsable → ∀ a, e.Covers a →
    ∃ e' ∈ after, e'.type = e.type ∧ e'.Covers a
  apart : after.Pairwise Entry.Apart
  written : ∀ e ∈ after, e.written = true

/-- The pieces of all entries are a reservation when no usable entry in the way ends at `2 ^ 64`. -/
theorem reserved_flatMap (m : MemoryMap) (r : Range)
    (hend : ∀ e ∈ m.entries, e.type = axbMemUsable → e.Meets r.base (r.base + r.len) →
      e.base + e.length < 2 ^ 64) :
    Reserved m.entries r (m.entries.flatMap (carve r.base (r.base + r.len))) := by
  have hbase : r.base < r.base + r.len := Nat.lt_add_of_pos_right r.pos
  refine ⟨?_, ?_, ?_, ?_⟩
  · intro a
    -- a usable entry in the way is cut; any other entry has no usable piece
    have hiff : ∀ e ∈ m.entries,
        (∃ x ∈ carve r.base (r.base + r.len) e, x.type = axbMemUsable ∧ x.Covers a) ↔
          (e.type = axbMemUsable ∧ e.Covers a) ∧ ¬ (r.base ≤ a ∧ a < r.base + r.len) := by
      intro e he
      exact usable_carve_iff hbase (m.fits e he) (hend e he) a
    constructor
    · rintro ⟨x, hx, hxa⟩
      obtain ⟨e, he, hxe⟩ := mem_flatMap.mp hx
      obtain ⟨hea, hout⟩ := (hiff e he).mp ⟨x, hxe, hxa⟩
      exact ⟨⟨e, he, hea⟩, hout⟩
    · rintro ⟨⟨e, he, hea⟩, hout⟩
      obtain ⟨x, hxe, hxa⟩ := (hiff e he).mpr ⟨hea, hout⟩
      exact ⟨x, mem_flatMap.mpr ⟨e, he, hxe⟩, hxa⟩
  · intro e he htype a ha
    refine ⟨e, mem_flatMap.mpr ⟨e, he, ?_⟩, rfl, ha⟩
    rw [carve_of_not_usable htype]
    exact mem_singleton.mpr rfl
  · rw [pairwise_flatMap]
    refine ⟨fun e _ => apart_carve hbase, m.apart.imp ?_⟩
    intro e f hapart x hx y hy a ⟨hxa, hya⟩
    exact hapart a ⟨covers_of_carve hx hxa, covers_of_carve hy hya⟩
  · intro x hx
    obtain ⟨e, he, hxe⟩ := mem_flatMap.mp hx
    obtain ⟨j, hj, rfl⟩ := mem_cells.mp he
    exact written_carve ((m.written j).trans (decide_eq_true hj)) x hxe

/-- **What `reserve_range` computes** when it punches a hole in the last entry only. -/
theorem reserve_eq_flatMap (m : MemoryMap) (r : Range)
    (hhole : ∀ p e q, m.entries = p ++ e :: q → e.Holed r.base (r.base + r.len) → q = []) :
    m.reserve r = m.entries.flatMap (carve r.base (r.base + r.len)) := by
  have hlen := length_flatMap_carve_le m.apart r.base (r.base + r.len)
  have hbound := m.bounded
  rw [length_cells] at hlen
  obtain ⟨s', hloop, hcells, -, -, -⟩ := reserveLoop_carve (l := []) (s := ⟨m.ents, m.count, 0⟩)
    r.pos r.noOverflow 0 (show cells m.ents m.count = [] ++ (m.entries ++ []) by simp; rfl) rfl
    (by
      rw [length_nil, Nat.zero_add, Nat.add_zero]
      unfold axbootMaxMmap MemoryMap.entries
      omega)
    (fun p e q h hh => by rw [hhole p e q h hh]; rfl)
  have hlength : m.entries.length = m.count := length_cells _ _
  rw [hlength, Nat.add_zero] at hloop
  show cells (reserveLoop r.base r.len m.count ⟨m.ents, m.count, 0⟩).ents
    (reserveLoop r.base r.len m.count ⟨m.ents, m.count, 0⟩).n = _
  rw [hloop]
  show cells s'.ents s'.n = _
  rw [hcells]
  simp

/-! ### A hole in front of another entry -/

theorem not_meets_of_holed (h : e.Holed base stop) (hapart : f.Apart e) : ¬ f.Meets base stop := by
  rintro ⟨a, ha, hlow, hhigh⟩
  have hle := e.stop_le
  obtain ⟨-, hb, hs⟩ := h
  exact hapart a ⟨ha, by omega, by omega⟩

theorem length_flatMap_of_not_meets (hbase : base < stop)
    (h : ∀ f ∈ l, ¬ f.Meets base stop) : (l.flatMap (carve base stop)).length = l.length := by
  induction l with
  | nil => rfl
  | cons f l ih =>
    rw [flatMap_cons, length_append, length_cons, (carve_of_not_meets (h f mem_cons_self) hbase).1,
      ih fun g hg => h g (mem_cons_of_mem f hg), Nat.add_comm]

/-- **A hole in front of another entry brings in a cell that nobody wrote.** -/
theorem exists_unwritten (m : MemoryMap) (r : Range) {p q : List Entry}
    (hentries : m.entries = p ++ e :: f :: q) (hhole : e.Holed r.base (r.base + r.len)) :
    ∃ x ∈ m.reserve r, x.written = false := by
  have hbase : r.base < r.base + r.len := Nat.lt_add_of_pos_right r.pos
  have hbound := m.bounded
  have hcount : m.count = p.length + (q.length + 2) := by
    have hlen := congrArg length hentries
    rw [MemoryMap.entries, length_cells] at hlen
    simpa using hlen
  have hapart : (p ++ e :: f :: q).Pairwise Entry.Apart := hentries ▸ m.apart
  obtain ⟨-, hright, hcross⟩ := pairwise_append.mp hapart
  have hp : ∀ g ∈ p, ¬ g.Meets r.base (r.base + r.len) := fun g hg =>
    not_meets_of_holed hhole (hcross g hg e mem_cons_self)
  have hq : ∀ g ∈ q, ¬ g.Meets r.base (r.base + r.len) := fun g hg =>
    not_meets_of_holed hhole fun a h => (pairwise_cons.mp hright).1 g
      (mem_cons_of_mem f hg) a ⟨h.2, h.1⟩
  have hplen := length_flatMap_of_not_meets hbase hp
  have hqlen := length_flatMap_of_not_meets hbase hq
  have hnohole : ∀ l : List Entry, (∀ g ∈ l, ¬ g.Meets r.base (r.base + r.len)) → ∀ a g b,
      l = a ++ g :: b → ¬ g.Holed r.base (r.base + r.len) := by
    rintro l hl a g b rfl
    exact (carve_of_not_meets (hl g (by simp)) hbase).2
  -- up to the entry with the hole the entries stay as they are
  obtain ⟨s1, hloop1, hcells1, hi1, -, hframe1⟩ :=
    reserveLoop_carve (l := []) (s := ⟨m.ents, m.count, 0⟩) r.pos r.noOverflow (q.length + 2)
      hentries rfl
      (by
        rw [hplen]
        simp only [length_nil, length_cons]
        unfold axbootMaxMmap
        omega)
      (fun a g b h hg => absurd hg (hnohole p hp a g b h))
  obtain ⟨-, hn1⟩ := cells_middle hcells1
  rw [nil_append, hplen, length_cons] at hn1
  have hlt1 : s1.i < s1.n := by
    rw [hi1, nil_append, hplen]
    omega
  -- the hole moves an unwritten cell to the end
  obtain ⟨hcells2, hi2⟩ := reserveStep_hole r.pos r.noOverflow hcells1 hi1
    (by unfold axbootMaxMmap; omega) hhole
  have hgarbage : (s1.ents s1.n).written = false := by
    rw [hframe1 _ (Nat.le_refl _), m.written]
    exact decide_eq_false (by omega)
  rw [cons_append, tail_cons] at hcells2
  -- the entries behind the hole stay as they are
  obtain ⟨s3, hloop3, hcells3, hi3, -, -⟩ := reserveLoop_carve r.pos r.noOverflow 1 hcells2 hi2
    (by
      rw [hqlen, carve_of_holed hbase hhole]
      simp only [length_append, nil_append, hplen, length_cons, length_nil]
      unfold axbootMaxMmap
      omega)
    (fun a g b h hg => absurd hg (hnohole q hq a g b h))
  obtain ⟨hlast, hn3⟩ := cells_middle hcells3
  have hlt3 : s3.i < s3.n := by
    rw [hi3]
    omega
  -- and the last round leaves the unwritten cell unwritten
  have hend : reserveLoop r.base r.len m.count ⟨m.ents, m.count, 0⟩ =
      reserveStep r.base r.len s3 := by
    rw [← hcount] at hloop1
    rw [hloop1, reserveLoop, if_pos hlt1, hloop3, reserveLoop, if_pos hlt3, reserveLoop]
  obtain ⟨-, -, -, hgrow⟩ := reserveStep_frame r.base r.len hlt3
  have hmem : (reserveStep r.base r.len s3).ents s3.i ∈ m.reserve r := by
    show _ ∈ cells (reserveLoop r.base r.len m.count ⟨m.ents, m.count, 0⟩).ents
      (reserveLoop r.base r.len m.count ⟨m.ents, m.count, 0⟩).n
    rw [hend]
    exact mem_cells.mpr ⟨s3.i, by omega, rfl⟩
  refine ⟨_, hmem, ?_⟩
  rw [reserveStep_written, hi3, hlast]
  exact hgarbage

/-! ### When the reservation is right -/

/-- No usable entry in the way ends at `2 ^ 64`, and a range strictly inside a usable entry lies in
the last one. -/
def Reservable (m : MemoryMap) (r : Range) : Prop :=
  ∀ p e q, m.entries = p ++ e :: q → e.type = axbMemUsable →
    (e.Meets r.base (r.base + r.len) → e.base + e.length < 2 ^ 64) ∧
      (e.base < r.base ∧ r.base + r.len < e.base + e.length → q = [])

instance : Std.Symm Entry.Apart where
  symm _ _ h a hc := h a ⟨hc.2, hc.1⟩

theorem apart_of_mem (h : l.Pairwise Entry.Apart) (he : e ∈ l) (hf : f ∈ l) :
    e = f ∨ e.Apart f := by
  by_cases hef : e = f
  · exact .inl hef
  · exact .inr (h.forall he hf hef)

/-- An entry in the way that ends at `2 ^ 64` is passed over, and stays usable. -/
theorem passed_over (m : MemoryMap) (r : Range) (he : e ∈ m.entries)
    (htype : e.type = axbMemUsable) (hmeets : e.Meets r.base (r.base + r.len))
    (hend : ¬ e.base + e.length < 2 ^ 64) : ¬ Reserved m.entries r (m.reserve r) := by
  have hfits := m.fits e he
  have hstop : e.stop = 0 := by
    unfold Entry.stop
    omega
  have hcarve : carve r.base (r.base + r.len) e = [e] := by
    rw [carve, if_neg (by simpa using htype), if_pos (by omega)]
  -- no other entry can hold the whole range
  have heq := reserve_eq_flatMap m r fun p f q hsplit hhole => by
    have hf : f ∈ m.entries := by rw [hsplit]; simp
    obtain rfl | hapart := apart_of_mem m.apart he hf
    · exact absurd hhole.2.2 (by omega)
    · exact absurd hmeets (not_meets_of_holed hhole hapart)
  obtain ⟨a, ha, hlow, hhigh⟩ := hmeets
  intro hres
  have husable := (hres.usable a).mp ⟨e, ?_, htype, ha⟩
  · exact husable.2 ⟨hlow, hhigh⟩
  · rw [heq]
    exact mem_flatMap.mpr ⟨e, he, by rw [hcarve]; exact mem_singleton.mpr rfl⟩

/-- **When `reserve_range` reserves.**  For every memory map of at most 62 entries and every range:
the usable bytes afterwards are those before without the range, all other bytes keep their type,
and the entries share no byte and were all written — if and only if no usable entry that meets the
range ends at `2 ^ 64` and no usable entry but the last has the range strictly inside. -/
theorem reserve_range_exact_iff (m : MemoryMap) (r : Range) :
    Reserved m.entries r (m.reserve r) ↔ Reservable m r := by
  have hbase : r.base < r.base + r.len := Nat.lt_add_of_pos_right r.pos
  constructor
  · intro hres p e q hsplit htype
    have he : e ∈ m.entries := by rw [hsplit]; simp
    have hend : e.Meets r.base (r.base + r.len) → e.base + e.length < 2 ^ 64 := by
      intro hmeets
      by_contra hend
      exact passed_over m r he htype hmeets hend hres
    refine ⟨hend, ?_⟩
    rintro ⟨hlow, hhigh⟩
    have hlt := hend ⟨r.base, ⟨by omega, by omega⟩, Nat.le_refl _, hbase⟩
    have hhole : e.Holed r.base (r.base + r.len) := by
      refine ⟨htype, hlow, ?_⟩
      rw [Entry.stop, Nat.mod_eq_of_lt hlt]
      exact hhigh
    cases q with
    | nil => rfl
    | cons f q =>
      obtain ⟨x, hx, hwritten⟩ := exists_unwritten m r hsplit hhole
      rw [hres.written x hx] at hwritten
      cases hwritten
  · intro hok
    rw [reserve_eq_flatMap m r]
    · refine reserved_flatMap m r fun e he htype hmeets => ?_
      obtain ⟨p, q, hsplit⟩ := append_of_mem he
      exact (hok p e q hsplit htype).1 hmeets
    · rintro p e q hsplit ⟨htype, hlow, hhigh⟩
      exact (hok p e q hsplit htype).2 ⟨hlow, Nat.lt_of_lt_of_le hhigh e.stop_le⟩

/-- Two entries, usable and then ACPI memory. -/
def usableThenAcpi : MemoryMap where
  ents j :=
    if j = 0 then ⟨0, 0x8000, axbMemUsable, 0, true⟩
    else if j = 1 then ⟨0x8000, 0x1000, 3, 0, true⟩
    else ⟨0, 0, 0, 0, false⟩
  count := 2
  bounded := by decide
  written := by
    intro j
    by_cases h0 : j = 0
    · simp [h0]
    by_cases h1 : j = 1
    · simp [h1]
    · simp [h0, h1, show ¬ j < 2 by omega]
  fits := by decide
  apart := by
    simp only [cells, List.range, List.range.loop, List.map, List.pairwise_cons, Entry.Apart,
      Entry.Covers]
    refine ⟨?_, by simp, List.Pairwise.nil⟩
    intro e he a
    rw [List.mem_singleton.mp he]
    simp
    omega

theorem reserve_range_exact_iff_head :
    Reserved usableThenAcpi.entries ⟨0, 0x1000, by decide, by decide⟩
      (usableThenAcpi.reserve ⟨0, 0x1000, by decide, by decide⟩) := by
  rw [reserve_range_exact_iff]
  intro p e q hsplit htype
  refine ⟨fun _ => ?_, fun h => absurd h.1 (Nat.not_lt_zero _)⟩
  have he : e ∈ usableThenAcpi.entries := by rw [hsplit]; simp
  exact (by decide : ∀ e ∈ usableThenAcpi.entries, e.base + e.length < 2 ^ 64) e he

/-- One page inside the usable entry is reserved: the ACPI memory is no longer in the map, and the
last entry of the map was never written. -/
theorem reserve_range_loses_entry : usableThenAcpi.reserve ⟨0x1000, 0x1000, by decide, by decide⟩ =
      [⟨0, 0x1000, axbMemUsable, 0, true⟩, ⟨0x1000, 0x1000, axbMemReserved, 0, true⟩,
        ⟨0x2000, 0x6000, axbMemUsable, 0, true⟩, ⟨0, 0, 0, 0, false⟩] := by
  decide

end AxiomeOS.Boot
