import Mathlib.Algebra.GroupWithZero.Nat
import Mathlib.Data.List.Chain

/-!
# Tilings of an interval by blocks

A heap that keeps a header in front of every block is an interval of addresses tiled by blocks,
each a header of `h` bytes and a payload.  This file has the tilings as lists, the two operations
that allocators do on them, and what these keep:

* `carve` cuts a free block in two when enough is left over, and hands out the first part;
* `coalesce` joins neighbouring free blocks, in one pass from the left;
* `Tiles.carve`, `Tiles.coalesce`: the interval stays tiled;
* `separated_carve`, `separated_coalesce`: no two neighbours are both free afterwards;
* `single_of_all_free`: a separated tiling with no block in use is one block.
-/

namespace AxiomeOS.Lib

open List

variable {a e size spare : ℕ} {bs l l' : List Block} {b : Block}

/-- A block: where its header starts, the size of its payload, and whether it is free. -/
structure Block where
  addr : ℕ
  size : ℕ
  free : Bool
  deriving DecidableEq, Repr

variable {h : ℕ}

/-- The blocks stand one after the other from `a` to `e`, each a header of `h` bytes and its
payload. -/
def Tiles (h : ℕ) : ℕ → List Block → ℕ → Prop
  | a, [], e => a = e
  | a, b :: bs, e => b.addr = a ∧ Tiles h (a + h + b.size) bs e

theorem Tiles.append {m : ℕ} (hl : Tiles h a l m)
    (hl' : Tiles h m l' e) : Tiles h a (l ++ l') e := by
  induction l generalizing a with
  | nil => rw [Tiles] at hl; rw [hl]; exact hl'
  | cons b l ih => exact ⟨hl.1, ih hl.2⟩

theorem Tiles.split (ht : Tiles h a (l ++ l') e) : ∃ m, Tiles h a l m ∧ Tiles h m l' e := by
  induction l generalizing a with
  | nil => exact ⟨a, rfl, ht⟩
  | cons b l ih =>
    obtain ⟨m, hl, hl'⟩ := ih ht.2
    exact ⟨m, ⟨ht.1, hl⟩, hl'⟩

/-- The bytes that a list of blocks takes, headers and payloads. -/
def extent (h : ℕ) (bs : List Block) : ℕ := (bs.map fun b => h + b.size).sum

/-- **Headers and payloads add up to the interval.** -/
theorem Tiles.extent_eq (ht : Tiles h a bs e) : a + extent h bs = e := by
  induction bs generalizing a with
  | nil => exact ht
  | cons b bs ih =>
    have := ih ht.2
    simp only [extent, map_cons, sum_cons] at this ⊢
    omega

theorem length_mul_le_extent (h : ℕ) (bs : List Block) : bs.length * h ≤ extent h bs := by
  induction bs with
  | nil => simp [extent]
  | cons b bs ih =>
    simp only [extent, map_cons, sum_cons, length_cons, Nat.succ_mul] at ih ⊢
    omega

theorem Tiles.bounds (ht : Tiles h a bs e) : ∀ b ∈ bs, a ≤ b.addr ∧ b.addr + h + b.size ≤ e := by
  induction bs generalizing a with
  | nil => intro b hb; exact absurd hb not_mem_nil
  | cons c bs ih =>
    intro b hb
    have hend := ht.2.extent_eq
    rcases mem_cons.mp hb with rfl | hb
    · have := ht.1
      omega
    · have := ih ht.2 b hb
      omega

theorem Tiles.around (ht : Tiles h a (l ++ b :: l') e) : (∀ c ∈ l, c.addr + h + c.size ≤ b.addr) ∧
      ∀ c ∈ l', b.addr + h + b.size ≤ c.addr := by
  obtain ⟨m, hl, hb, hl'⟩ := ht.split
  refine ⟨fun c hc => ?_, fun c hc => ?_⟩
  · rw [hb]
    exact (hl.bounds c hc).2
  · rw [hb]
    exact (hl'.bounds c hc).1

/-! ### No two free neighbours -/

/-- No two neighbouring blocks are both free. -/
def Separated (bs : List Block) : Prop :=
  bs.IsChain fun b c => ¬ (b.free = true ∧ c.free = true)

/-- The payload addresses of the blocks in use. -/
def payloads (h : ℕ) (bs : List Block) : List ℕ :=
  (bs.filter fun b => !b.free).map fun b => b.addr + h

theorem mem_payloads {p : ℕ} : p ∈ payloads h bs ↔ ∃ b ∈ bs, b.free = false ∧ p = b.addr + h := by
  simp only [payloads, mem_map, mem_filter, Bool.not_eq_true']
  constructor
  · rintro ⟨b, ⟨hb, hf⟩, rfl⟩
    exact ⟨b, hb, hf, rfl⟩
  · rintro ⟨b, hb, hf, rfl⟩
    exact ⟨b, ⟨hb, hf⟩, rfl⟩

theorem payloads_append (l l' : List Block) :
    payloads h (l ++ l') = payloads h l ++ payloads h l' := by
  rw [payloads, filter_append, map_append]
  rfl

theorem payloads_cons_free (hb : b.free = true) (l : List Block) :
    payloads h (b :: l) = payloads h l := by
  rw [payloads, filter_cons, hb]
  rfl

theorem payloads_cons_used (hb : b.free = false) (l : List Block) :
    payloads h (b :: l) = (b.addr + h) :: payloads h l := by
  rw [payloads, filter_cons, hb]
  rfl

/-- **A separated tiling with nothing in use is a single block.** -/
theorem single_of_all_free (hs : Separated bs)
    (hf : payloads h bs = []) (ht : Tiles h a bs e) (hae : a < e) :
    bs = [⟨a, e - a - h, true⟩] := by
  have hfree : ∀ b ∈ bs, b.free = true := by
    intro b hb
    by_contra hne
    have : b.addr + h ∈ payloads h bs := mem_payloads.mpr ⟨b, hb, Bool.eq_false_iff.mpr hne, rfl⟩
    rw [hf] at this
    exact absurd this not_mem_nil
  match bs, ht, hs, hfree with
  | [], ht, _, _ =>
    rw [Tiles] at ht
    omega
  | [b], ht, _, hfree =>
    obtain ⟨haddr, hend⟩ := ht
    rw [Tiles] at hend
    have hb := hfree b (mem_singleton.mpr rfl)
    cases b
    simp only at haddr hend hb ⊢
    subst haddr hb
    simp only [cons.injEq, Block.mk.injEq, true_and, and_true]
    omega
  | b :: c :: bs, _, hs, hfree =>
    have hbc := (isChain_cons_cons.mp hs).1
    exact absurd ⟨hfree b (by simp), hfree c (by simp)⟩ hbc

/-! ### Cutting a block -/

/-- A free block from which `size` bytes are handed out; a rest of at least `spare` bytes becomes a
free block of its own. -/
def carve (h spare : ℕ) (b : Block) (size : ℕ) : List Block :=
  if size + h + spare ≤ b.size then
    [⟨b.addr, size, false⟩, ⟨b.addr + h + size, b.size - size - h, true⟩]
  else [⟨b.addr, b.size, false⟩]

theorem tiles_carve (hb : Tiles h a [b] e) : Tiles h a (carve h spare b size) e := by
  obtain ⟨haddr, hend⟩ := hb
  rw [Tiles] at hend
  rw [carve]
  split
  · refine ⟨haddr, by rw [haddr], ?_⟩
    rw [Tiles]
    dsimp only
    omega
  · exact ⟨haddr, hend⟩

/-- **Handing out part of a free block keeps the tiling.** -/
theorem Tiles.carve
    (ht : Tiles h a (l ++ b :: l') e) : Tiles h a (l ++ (carve h spare b size ++ l')) e := by
  obtain ⟨m, hl, hb, hl'⟩ := ht.split
  exact hl.append ((tiles_carve ⟨hb, rfl⟩).append hl')

theorem separated_used (hb : b.free = false)
    (hl : Separated l) (hl' : Separated l') : Separated (l ++ b :: l') := by
  rw [Separated, isChain_append]
  refine ⟨hl, ?_, ?_⟩
  · cases l' with
    | nil => exact isChain_singleton b
    | cons c l' =>
      refine isChain_cons_cons.mpr ⟨?_, hl'⟩
      rw [hb]
      exact fun hbc => absurd hbc.1 (by decide)
  · intro x _ y hy hxy
    rw [head?_cons, Option.mem_some_iff] at hy
    rw [← hy, hb] at hxy
    exact absurd hxy.2 (by decide)

theorem Separated.left (hs : Separated (l ++ l')) : Separated l :=
  (isChain_append.mp hs).1

theorem Separated.right (hs : Separated (l ++ l')) : Separated l' :=
  (isChain_append.mp hs).2.1

theorem Separated.replace_head {c : Block} (hb : b.free = true)
    (hs : Separated (b :: l)) : Separated (c :: l) := by
  cases l with
  | nil => exact isChain_singleton c
  | cons d l =>
    obtain ⟨hbd, hl⟩ := isChain_cons_cons.mp hs
    exact isChain_cons_cons.mpr ⟨fun hcd => hbd ⟨hb, hcd.2⟩, hl⟩

/-- **Handing out part of a free block keeps free blocks apart.** -/
theorem separated_carve (hb : b.free = true)
    (hs : Separated (l ++ b :: l')) : Separated (l ++ (carve h spare b size ++ l')) := by
  have hr : Separated (b :: l') := hs.right
  rw [carve]
  split
  · exact separated_used rfl hs.left (hr.replace_head hb)
  · exact separated_used rfl hs.left (.right (l := [b]) hr)

theorem mem_payloads_carve {p : ℕ} (hb : b.free = true) :
    p ∈ payloads h (l ++ (carve h spare b size ++ l'))
      ↔ p = b.addr + h ∨ p ∈ payloads h (l ++ b :: l') := by
  have hcarve : payloads h (carve h spare b size) = [b.addr + h] := by
    rw [carve]
    split <;> rfl
  rw [payloads_append, payloads_append, payloads_append, hcarve, payloads_cons_free hb]
  simp only [mem_append, mem_singleton]
  tauto

/-- Giving a block back takes its payload, and no other, from those in use. -/
theorem mem_payloads_release {p : ℕ} (hh : 0 < h)
    (hb : b.free = false) (ht : Tiles h a (l ++ b :: l') e) :
    p ∈ payloads h (l ++ ⟨b.addr, b.size, true⟩ :: l')
      ↔ p ∈ payloads h (l ++ b :: l') ∧ p ≠ b.addr + h := by
  obtain ⟨hleft, hright⟩ := ht.around
  -- the other blocks have other addresses
  have hother : ∀ c, c ∈ l ∨ c ∈ l' → c.addr + h ≠ b.addr + h := by
    rintro c (hc | hc)
    · have := hleft c hc
      omega
    · have := hright c hc
      omega
  have hne : ∀ k, (k = l ∨ k = l') → p ∈ payloads h k → p ≠ b.addr + h := by
    intro k hk hp
    obtain ⟨c, hc, -, rfl⟩ := mem_payloads.mp hp
    rcases hk with rfl | rfl
    · exact hother c (.inl hc)
    · exact hother c (.inr hc)
  have hl' := hne l' (.inr rfl)
  rw [payloads_append, payloads_append, payloads_cons_free rfl, payloads_cons_used hb]
  simp only [mem_append, mem_cons]
  tauto

/-! ### Joining free neighbours -/

/-- One pass from the left that joins a free block with its free neighbour. -/
def coalesce (h : ℕ) : List Block → List Block
  | [] => []
  | [b] => [b]
  | b :: c :: bs =>
    if b.free = true ∧ c.free = true then coalesce h (⟨b.addr, b.size + (h + c.size), true⟩ :: bs)
    else b :: coalesce h (c :: bs)
termination_by bs => bs.length

theorem coalesce_head (b : Block) (bs : List Block) :
    ∃ c cs, coalesce h (b :: bs) = c :: cs ∧ c.addr = b.addr ∧ c.free = b.free := by
  induction bs generalizing b with
  | nil => exact ⟨b, [], by rw [coalesce], rfl, rfl⟩
  | cons c bs ih =>
    rw [coalesce]
    by_cases hbc : b.free = true ∧ c.free = true
    · rw [if_pos hbc]
      obtain ⟨d, ds, hd, haddr, hfree⟩ := ih ⟨b.addr, b.size + (h + c.size), true⟩
      exact ⟨d, ds, hd, haddr, by rw [hfree, hbc.1]⟩
    · rw [if_neg hbc]
      exact ⟨b, _, rfl, rfl, rfl⟩

/-- **Joining keeps the tiling.** -/
theorem Tiles.coalesce (ht : Tiles h a bs e) : Tiles h a (coalesce h bs) e := by
  induction bs using Lib.coalesce.induct h generalizing a with
  | case1 => rw [Lib.coalesce]; exact ht
  | case2 b => rw [Lib.coalesce]; exact ht
  | case3 b c bs hbc ih =>
    rw [Lib.coalesce, if_pos hbc]
    obtain ⟨hb, hc, hbs⟩ := ht
    refine ih ⟨hb, ?_⟩
    rw [show a + h + (b.size + (h + c.size)) = a + h + b.size + h + c.size by omega]
    exact hbs
  | case4 b c bs hbc ih =>
    rw [Lib.coalesce, if_neg hbc]
    exact ⟨ht.1, ih ht.2⟩

/-- **After the pass no two neighbours are free.** -/
theorem separated_coalesce (h : ℕ) (bs : List Block) : Separated (coalesce h bs) := by
  induction bs using coalesce.induct h with
  | case1 => rw [coalesce]; exact isChain_nil
  | case2 b => rw [coalesce]; exact isChain_singleton b
  | case3 b c bs hbc ih => rw [coalesce, if_pos hbc]; exact ih
  | case4 b c bs hbc ih =>
    rw [coalesce, if_neg hbc]
    obtain ⟨d, ds, hd, -, hfree⟩ := coalesce_head c bs
    rw [hd] at ih ⊢
    refine isChain_cons_cons.mpr ⟨?_, ih⟩
    rw [hfree]
    exact hbc

theorem payloads_coalesce (h : ℕ) (bs : List Block) :
    payloads h (coalesce h bs) = payloads h bs := by
  induction bs using coalesce.induct h with
  | case1 => rw [coalesce]
  | case2 b => rw [coalesce]
  | case3 b c bs hbc ih =>
    rw [coalesce, if_pos hbc, ih, payloads_cons_free rfl, payloads_cons_free hbc.1,
      payloads_cons_free hbc.2]
  | case4 b c bs hbc ih =>
    rw [coalesce, if_neg hbc]
    cases hb : b.free with
    | true => rw [payloads_cons_free hb, ih, payloads_cons_free hb]
    | false => rw [payloads_cons_used hb, ih, payloads_cons_used hb]

end AxiomeOS.Lib
