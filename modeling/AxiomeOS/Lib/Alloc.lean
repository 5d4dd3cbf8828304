import Mathlib.Data.Finset.Lattice.Fold
import Mathlib.Order.Lattice.Nat

/-!
# Allocators

What a program sees of an allocator: it is shown the set of what is allocated and gives an address
outside it, or nothing.  Statements that quantify over `Alloc` hold whatever the allocator does.
`owner_unique`: what is handed out anew goes to one owner.
-/

namespace AxiomeOS

/-- An allocator: it is shown what is allocated and gives something that is not, or nothing. -/
structure Alloc where
  pick : Finset ℕ → Option ℕ
  fresh : ∀ S a, pick S = some a → a ∉ S

/-- An allocator that hands out ever larger addresses. -/
def Alloc.above : Alloc where
  pick S := some (S.sup id + 1)
  fresh := by
    intro S a ha hmem
    have hle : a ≤ S.sup id := Finset.le_sup (f := id) hmem
    have := Option.some.inj ha
    omega

/-- **Where each key has one owner**, a new owner with keys of its own leaves that so. -/
theorem owner_unique {ι κ : Type*} {P P' : ι → Prop} {R R' : ι → κ → Prop} {a : ι}
    (hinj : ∀ i, P i → ∀ j, P j → ∀ k, R i k → R j k → i = j)
    (hP : ∀ i, P' i → P i ∨ i = a ∧ ∀ j, P j → ∀ k, R j k → ¬ R' i k)
    (hR : ∀ i, P i → ∀ k, R' i k → R i k) :
    ∀ i, P' i → ∀ j, P' j → ∀ k, R' i k → R' j k → i = j := by
  intro i hi j hj k hik hjk
  rcases hP i hi with hi | ⟨rfl, hnew⟩
  · rcases hP j hj with hj | ⟨rfl, hnew⟩
    · exact hinj i hi j hj k (hR i hi k hik) (hR j hj k hjk)
    · exact absurd hjk (hnew i hi k (hR i hi k hik))
  · rcases hP j hj with hj | ⟨rfl, -⟩
    · exact absurd hik (hnew j hj k (hR j hj k hjk))
    · rfl

end AxiomeOS
