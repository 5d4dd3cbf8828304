import Mathlib.Tactic.Common

/-!
# Spans of pages with an owner

A table hands out spans of pages, each to a key, and a flag for each page says whether it is taken.
`Spans` says that the two agree: every span is aligned and not empty, the spans of different keys
share no byte, and a page is flagged exactly when it lies in a span.  Giving a key a span of pages
that are not flagged (`Spans.add`) and taking a span back (`Spans.remove`) keep this.
-/

namespace AxiomeOS.Lib

open Function

/-- `a` is the address of one of the `n` pages from `base` on. -/
def inSpan (page base n a : ℕ) : Bool :=
  decide (base ≤ a) && decide (a < base + n * page) && decide ((a - base) % page = 0)

variable {κ : Type*} {page : ℕ} {span : κ → Option (ℕ × ℕ)} {f : ℕ → Bool}
variable {a b base n : ℕ} {k : κ}

theorem inSpan_iff :
    inSpan page base n a = true ↔ base ≤ a ∧ a < base + n * page ∧ (a - base) % page = 0 := by
  simp only [inSpan, Bool.and_eq_true, decide_eq_true_eq, and_assoc]

theorem inSpan_index (h : inSpan page base n a = true) : ∃ i, i < n ∧ a = base + i * page := by
  obtain ⟨hlo, hhi, hmod⟩ := inSpan_iff.mp h
  refine ⟨(a - base) / page, ?_, ?_⟩
  · exact Nat.div_lt_of_lt_mul (by rw [Nat.mul_comm]; omega)
  · have := Nat.div_add_mod (a - base) page
    rw [hmod, Nat.mul_comm] at this
    omega

theorem inSpan_base (hpage : 0 < page) (hn : 0 < n) : inSpan page base n base = true := by
  have := Nat.mul_pos hn hpage
  refine inSpan_iff.mpr ⟨Nat.le_refl _, by omega, ?_⟩
  rw [Nat.sub_self, Nat.zero_mod]

theorem inSpan_of_aligned (hb : base % page = 0) (ha : a % page = 0)
    (hlo : base ≤ a) (hhi : a < base + n * page) : inSpan page base n a = true := by
  refine inSpan_iff.mpr ⟨hlo, hhi, ?_⟩
  exact Nat.sub_mod_eq_zero_of_mod_eq (by rw [ha, hb])

/-- **The flags are those of the spans**, which are aligned, not empty and apart. -/
structure Spans (page : ℕ) (span : κ → Option (ℕ × ℕ)) (f : ℕ → Bool) : Prop where
  aligned : ∀ k b n, span k = some (b, n) → b % page = 0 ∧ 0 < n
  apart : ∀ k k' b n b' n', span k = some (b, n) → span k' = some (b', n') → k ≠ k' →
    b + n * page ≤ b' ∨ b' + n' * page ≤ b
  covers : ∀ a, f a = true ↔ ∃ k b n, span k = some (b, n) ∧ inSpan page b n a = true

theorem spans_empty : Spans page (fun _ : κ => none) fun _ => false where
  aligned := nofun
  apart := nofun
  covers := fun a => by
    constructor
    · exact nofun
    · rintro ⟨_, _, _, h, _⟩
      cases h

/-- Pages that are not flagged are apart from every span. -/
theorem Spans.fresh_apart (h : Spans page span f) (hpage : 0 < page)
    (hb : b % page = 0) (hn : 0 < n) (hfresh : ∀ i, i < n → f (b + i * page) = false)
    {b' n' : ℕ} (hk : span k = some (b', n')) : b + n * page ≤ b' ∨ b' + n' * page ≤ b := by
  by_contra hne
  obtain ⟨hb', hn'⟩ := h.aligned k b' n' hk
  rcases Nat.le_total b b' with hle | hle
  · -- the first page of `k`'s span is one of the fresh ones
    obtain ⟨i, hi, heq⟩ := inSpan_index (inSpan_of_aligned (n := n) hb hb' hle (by omega))
    have hflag := (h.covers b').mpr ⟨k, b', n', hk, inSpan_base hpage hn'⟩
    rw [heq, hfresh i hi] at hflag
    cases hflag
  · have hflag := (h.covers b).mpr ⟨k, b', n', hk, inSpan_of_aligned hb' hb hle (by omega)⟩
    have := hfresh 0 hn
    rw [Nat.zero_mul, Nat.add_zero, hflag] at this
    cases this

variable [DecidableEq κ]

/-- **Handing out pages that are not flagged.** -/
theorem Spans.add (h : Spans page span f) (hpage : 0 < page) (hk : span k = none)
    (hb : b % page = 0) (hn : 0 < n) (hfresh : ∀ i, i < n → f (b + i * page) = false) :
    Spans page (update span k (some (b, n))) fun a => f a || inSpan page b n a where
  aligned := fun k' b' n' hk' => by
    rw [update_apply] at hk'
    split at hk'
    · cases hk'
      exact ⟨hb, hn⟩
    · exact h.aligned k' b' n' hk'
  apart := fun k1 k2 b1 n1 b2 n2 h1 h2 hne => by
    rw [update_apply] at h1 h2
    split at h1
    · rename_i heq1
      rw [if_neg (fun heq2 => hne (heq1.trans heq2.symm))] at h2
      cases h1
      exact h.fresh_apart hpage hb hn hfresh h2
    · split at h2
      · cases h2
        exact (h.fresh_apart hpage hb hn hfresh h1).symm
      · exact h.apart k1 k2 b1 n1 b2 n2 h1 h2 hne
  covers := fun a => by
    rw [Bool.or_eq_true, h.covers]
    constructor
    · rintro (⟨k', b', n', hk', ha⟩ | ha)
      · refine ⟨k', b', n', ?_, ha⟩
        rw [update_of_ne (by rintro rfl; rw [hk] at hk'; cases hk'), hk']
      · exact ⟨k, b, n, update_self .., ha⟩
    · rintro ⟨k', b', n', hk', ha⟩
      rw [update_apply] at hk'
      split at hk'
      · cases hk'
        exact .inr ha
      · exact .inl ⟨k', b', n', hk', ha⟩

/-- **Taking a span back.** -/
theorem Spans.remove (h : Spans page span f) (hk : span k = some (b, n)) :
    Spans page (update span k none) fun a => f a && !inSpan page b n a := by
  have hold : ∀ k' s, update span k none k' = some s ↔ k' ≠ k ∧ span k' = some s := by
    intro k' s
    by_cases hk' : k' = k <;> simp [hk']
  refine ⟨fun k' b' n' hk' => h.aligned k' b' n' ((hold ..).mp hk').2,
    fun k1 k2 b1 n1 b2 n2 h1 h2 =>
    h.apart k1 k2 b1 n1 b2 n2 ((hold ..).mp h1).2 ((hold ..).mp h2).2, fun a => ?_⟩
  rw [Bool.and_eq_true, h.covers, Bool.not_eq_true']
  constructor
  · rintro ⟨⟨k', b', n', hk', ha⟩, hout⟩
    refine ⟨k', b', n', (hold ..).mpr ⟨?_, hk'⟩, ha⟩
    rintro rfl
    rw [hk] at hk'
    cases hk'
    rw [ha] at hout
    cases hout
  · rintro ⟨k', b', n', hk', ha⟩
    obtain ⟨hne, hk'⟩ := (hold ..).mp hk'
    refine ⟨⟨k', b', n', hk', ha⟩, Bool.eq_false_iff.mpr fun ha' => ?_⟩
    obtain ⟨hlo, hhi, -⟩ := inSpan_iff.mp ha
    obtain ⟨hlo', hhi', -⟩ := inSpan_iff.mp ha'
    have := h.apart k' k b' n' b n hk' hk hne
    omega

end AxiomeOS.Lib
