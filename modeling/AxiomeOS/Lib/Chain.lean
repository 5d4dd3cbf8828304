import Mathlib.Data.Fintype.Card

/-!
# Linked lists in a heap of nodes

A heap gives each node an optional successor.  `Seg next p l q` says that the nodes `l`, in this
order, lead from the pointer `p` to the pointer `q`; `Chain next p l` is a segment that ends in
the null pointer.

* a chain is determined by its first pointer (`Chain.unique`) and never repeats a node
  (`Chain.nodup`);
* what is reachable from the first pointer is what stands in the chain (`Chain.mem_of_reach`);
* `walkEnd`, the loop that follows the links up to the last node, finds it (`walkEnd_eq`);
* a heap shared between owners is described by a tag on each node.  `Holds own t next p` says
  that the chain from `p` consists of nodes tagged `t`: two chains with different tags are then
  disjoint, and a write to the nodes of one of them leaves the other alone (`Holds.frame`).
-/

namespace AxiomeOS.Chains

open List Option

variable {α τ : Type*} {next next' : α → Option α} {p : Option α} {l l' : List α}

/-! ### Segments -/

/-- The nodes `l` lead from the pointer `p` to the pointer `q`. -/
def Seg (next : α → Option α) : Option α → List α → Option α → Prop
  | p, [], q => p = q
  | p, a :: l, q => p = some a ∧ Seg next (next a) l q

/-- A segment that ends in the null pointer. -/
def Chain (next : α → Option α) (p : Option α) (l : List α) : Prop := Seg next p l none

variable {q r : Option α} {a b : α} {own : α → τ} {t : τ}

theorem Seg.append (h : Seg next p l q) (h' : Seg next q l' r) : Seg next p (l ++ l') r := by
  induction l generalizing p with
  | nil =>
    rw [show p = q from h]
    exact h'
  | cons a l ih => exact ⟨h.1, ih h.2⟩

theorem Seg.split (h : Seg next p (l ++ l') r) : ∃ q, Seg next p l q ∧ Seg next q l' r := by
  induction l generalizing p with
  | nil => exact ⟨p, rfl, h⟩
  | cons a l ih =>
    obtain ⟨q, hl, hl'⟩ := ih h.2
    exact ⟨q, ⟨h.1, hl⟩, hl'⟩

theorem Seg.of_concat (h : Seg next p (l ++ [a]) q) : Seg next p l (some a) ∧ next a = q := by
  obtain ⟨r, hl, rfl, ha⟩ := h.split
  exact ⟨hl, ha⟩

theorem Seg.frame (h : Seg next p l q) (heq : ∀ a ∈ l, next' a = next a) : Seg next' p l q := by
  induction l generalizing p with
  | nil => exact h
  | cons a l ih =>
    refine ⟨h.1, ?_⟩
    rw [heq a mem_cons_self]
    exact ih h.2 fun b hb => heq b (mem_cons_of_mem _ hb)

theorem Chain.unique (h : Chain next p l) (h' : Chain next p l') : l = l' := by
  induction l generalizing p l' with
  | nil =>
    cases l' with
    | nil => rfl
    | cons b l' => exact absurd (h.symm.trans h'.1) (by simp)
  | cons a l ih =>
    cases l' with
    | nil => exact absurd (h'.symm.trans h.1) (by simp)
    | cons b l' =>
      obtain rfl : a = b := some.inj (h.1.symm.trans h'.1)
      rw [ih h.2 h'.2]

/-- **A chain never repeats a node**: from a repeated node two chains of different length would
start. -/
theorem Chain.nodup (h : Chain next p l) : l.Nodup := by
  induction l generalizing p with
  | nil => exact nodup_nil
  | cons a l ih =>
    refine nodup_cons.mpr ⟨?_, ih h.2⟩
    intro hmem
    obtain ⟨l1, l2, rfl⟩ := append_of_mem hmem
    obtain ⟨q, -, hq⟩ := Seg.split h.2
    have hsame : l2 = l1 ++ a :: l2 := Chain.unique hq.2 h.2
    have hlen := congrArg length hsame
    simp only [length_append, length_cons] at hlen
    omega

theorem Chain.length_le [Fintype α] (h : Chain next p l) : l.length ≤ Fintype.card α :=
  h.nodup.length_le_card

/-- Two nodes that point at each other are on no chain. -/
theorem Chain.no_cycle (h : Chain next (some a) l) (hab : next a = some b) (hba : next b = some a) :
    False := by
  cases l with
  | nil => cases h
  | cons c l =>
    obtain rfl : a = c := some.inj h.1
    have hb : Chain next (some b) l := hab ▸ h.2
    cases l with
    | nil => cases hb
    | cons d l =>
      obtain rfl : b = d := some.inj hb.1
      have ha : Chain next (some a) l := hba ▸ hb.2
      have hlen := congrArg length (ha.unique h)
      simp only [length_cons] at hlen
      omega

theorem Chain.link {m : α} (h : Chain next p (l ++ [a]))
    (hm : Chain next' (some m) l') (hl : ∀ b ∈ l, next' b = next b) (ha : next' a = some m) :
    Chain next' p (l ++ a :: l') := by
  refine Seg.append (h.of_concat.1.frame hl) ⟨rfl, ?_⟩
  rw [ha]
  exact hm

/-- Taking a node out of a chain: the pointer that led to it, which is the one in the last node
before it or else the first pointer, now leads to what stood behind it. -/
theorem Chain.remove {q' : Option α} {z : α} (h : Chain next q (l ++ z :: l'))
    (hq : q' = if l.getLast? = none then next z else q)
    (hp : ∀ p, l.getLast? = some p → next' p = next z)
    (hn : ∀ b, l.getLast? ≠ some b → b ≠ z → next' b = next b) : Chain next' q' (l ++ l') := by
  have hnd := nodup_append.mp h.nodup
  have hz : ∀ b ∈ l', b ≠ z := fun b hb e => (nodup_cons.mp hnd.2.1).1 (e ▸ hb)
  obtain ⟨r, hr, -, hrest⟩ := Seg.split h
  rcases eq_nil_or_concat' l with rfl | ⟨l, p, rfl⟩
  · rw [hq]
    exact .frame hrest fun b hb => hn b (by simp) (hz b hb)
  · have hlast : (l ++ [p]).getLast? = some p := by simp
    have hne : ∀ b, b ≠ p → (l ++ [p]).getLast? ≠ some b := by
      intro b hb e
      exact hb (some.inj (hlast.symm.trans e)).symm
    rw [hlast, if_neg (by simp)] at hq
    subst hq
    refine Seg.append (Seg.append (hr.of_concat.1.frame fun b hb => ?_) ⟨rfl, rfl⟩) ?_
    · refine hn b (hne b ?_) (hnd.2.2 b (by simp [hb]) z (by simp))
      exact (nodup_append.mp hnd.1).2.2 b hb p (by simp)
    · rw [hp p hlast]
      refine .frame hrest fun b hb => hn b (hne b ?_) (hz b hb)
      exact fun e => hnd.2.2 p (by simp) b (by simp [hb]) e.symm

theorem Chain.head_eq (h : Chain next q l) : q = l.head? := by
  cases l with
  | nil => exact h
  | cons a l => exact h.1

/-! ### Reachability -/

/-- The node can be reached from the pointer by following links. -/
inductive Reach (next : α → Option α) : Option α → α → Prop
  | here (a : α) : Reach next (some a) a
  | step {a b : α} : Reach next (next a) b → Reach next (some a) b

/-- What is reachable from the first pointer of a chain stands in the chain. -/
theorem Chain.mem_of_reach (h : Chain next p l) (hr : Reach next p b) : b ∈ l := by
  induction hr generalizing l with
  | here a =>
    cases l with
    | nil => exact absurd h (by simp [Chain, Seg])
    | cons c l =>
      obtain rfl : a = c := some.inj h.1
      exact mem_cons_self
  | @step a b _ ih =>
    cases l with
    | nil => exact absurd h (by simp [Chain, Seg])
    | cons c l =>
      obtain rfl : a = c := some.inj h.1
      exact mem_cons_of_mem _ (ih h.2)

/-! ### Walking to the last node -/

/-- Follow the links from `a` to a node that has none, for at most `fuel` steps. -/
def walkEnd (next : α → Option α) : ℕ → α → α
  | 0, a => a
  | fuel + 1, a =>
    match next a with
    | none => a
    | some b => walkEnd next fuel b

/-- **The walk ends at the last node of the chain.** -/
theorem walkEnd_eq {fuel : ℕ} (h : Chain next (some a) (l ++ [b])) (hfuel : l.length ≤ fuel) :
    walkEnd next fuel a = b := by
  induction l generalizing a fuel with
  | nil =>
    obtain rfl : a = b := some.inj h.1
    cases fuel with
    | zero => rfl
    | succ fuel => rw [walkEnd, show next a = none from h.2]
  | cons c l ih =>
    obtain rfl : a = c := some.inj h.1
    obtain _ | fuel := fuel
    · simp at hfuel
    have hnext : ∃ d, next a = some d := by
      cases l with
      | nil => exact ⟨b, h.2.1⟩
      | cons d l => exact ⟨d, h.2.1⟩
    obtain ⟨d, hd⟩ := hnext
    have htail : Chain next (some d) (l ++ [b]) := hd ▸ h.2
    rw [walkEnd, hd]
    exact ih htail (by simp at hfuel; omega)

/-! ### Tagged nodes -/

/-- Every node of the chain from `p` carries the tag `t`. -/
def Holds (own : α → τ) (t : τ) (next : α → Option α) (p : Option α) : Prop :=
  ∃ l, Chain next p l ∧ ∀ a ∈ l, own a = t

theorem Holds.null (own : α → τ) (t : τ) : Holds own t next none := ⟨[], rfl, by simp⟩

theorem Holds.own_head (h : Holds own t next (some a)) : own a = t := by
  obtain ⟨l, hl, hown⟩ := h
  cases l with
  | nil => exact absurd hl (by simp [Chain, Seg])
  | cons b l =>
    obtain rfl : a = b := some.inj hl.1
    exact hown a mem_cons_self

/-- **The frame rule.**  A change that leaves tag and link of every node tagged `t` alone keeps
each chain of such nodes. -/
theorem Holds.frame {own' : α → τ} (h : Holds own t next p)
    (heq : ∀ a, own a = t → own' a = t ∧ next' a = next a) : Holds own' t next' p := by
  obtain ⟨l, hl, hown⟩ := h
  exact ⟨l, hl.frame fun a ha => (heq a (hown a ha)).2, fun a ha => (heq a (hown a ha)).1⟩

theorem Holds.own_of_reach (h : Holds own t next p) (hr : Reach next p b) : own b = t := by
  obtain ⟨l, hl, hown⟩ := h
  exact hown b (hl.mem_of_reach hr)

end AxiomeOS.Chains
