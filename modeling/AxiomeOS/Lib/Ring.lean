import AxiomeOS.Lib.Chain

/-!
# Circular doubly linked lists

`Ring next prev h l` says that the nodes `l`, in this order, form a circle that starts and ends at
`h`: following `next` from `h` visits each of them once and comes back, and `prev` undoes `next`.

* every node of a ring has a successor and a predecessor in it (`Ring.exists_next`,
  `Ring.exists_prev`), and the circle can be entered at any of them (`Ring.rotate`);
* a node linked in between the last node and the first is appended (`Ring.insert`);
* a node other than the first that is unlinked is erased (`Ring.erase`).
-/

namespace AxiomeOS.Chains

open List Option

variable {α : Type*} {next prev next' prev' : α → Option α} {h : α} {l : List α}

/-- The nodes `l` form a circular doubly linked list that starts at `h`. -/
structure Ring (next prev : α → Option α) (h : α) (l : List α) : Prop where
  seg : Seg next (some h) l (some h)
  nonempty : l ≠ []
  nodup : l.Nodup
  back : ∀ a ∈ l, ∀ b, next a = some b → prev b = some a

/-! ### The nodes of a ring -/

section Facts

variable {a b : α} (hr : Ring next prev h l)

include hr

theorem Ring.head_mem : h ∈ l := by
  cases l with
  | nil => exact absurd rfl hr.nonempty
  | cons a t =>
    rw [some.inj hr.seg.1]
    exact mem_cons_self

theorem Ring.rotate (ha : a ∈ l) : ∃ l', Seg next (next a) l' (some a) ∧ (a :: l').Perm l := by
  obtain ⟨l1, l2, rfl⟩ := append_of_mem ha
  obtain ⟨q, h1, h2⟩ := Seg.split hr.seg
  refine ⟨l2 ++ l1, Seg.append h2.2 ?_, ?_⟩
  · rw [← h2.1]
    exact h1
  · show (a :: l2 ++ l1).Perm (l1 ++ a :: l2)
    exact perm_append_comm

theorem Ring.exists_next (ha : a ∈ l) : ∃ b ∈ l, next a = some b ∧ prev b = some a := by
  obtain ⟨l', hseg, hperm⟩ := hr.rotate ha
  cases l' with
  | nil => exact ⟨a, ha, hseg, hr.back a ha a hseg⟩
  | cons b l' => exact ⟨b, hperm.mem_iff.mp (by simp), hseg.1, hr.back a ha b hseg.1⟩

theorem Ring.exists_prev (hb : b ∈ l) : ∃ a ∈ l, prev b = some a ∧ next a = some b := by
  obtain ⟨l', hseg, hperm⟩ := hr.rotate hb
  have hstep : ∃ a ∈ l, next a = some b := by
    rcases eq_nil_or_concat' l' with rfl | ⟨l', a, rfl⟩
    · exact ⟨b, hb, hseg⟩
    · exact ⟨a, hperm.mem_iff.mp (by simp), hseg.of_concat.2⟩
  obtain ⟨a, ha, hab⟩ := hstep
  exact ⟨a, ha, hr.back a ha b hab, hab⟩

theorem Ring.next_ne (ha : a ∈ l) (hah : a ≠ h) : next a ≠ some a := by
  intro hloop
  obtain ⟨l', hseg, hperm⟩ := hr.rotate ha
  have hnd := nodup_cons.mp (hperm.nodup_iff.mpr hr.nodup)
  have hnil : l' = [] := by
    cases l' with
    | nil => rfl
    | cons b l' =>
      have hb : a = b := some.inj (hloop.symm.trans hseg.1)
      exact absurd (hb ▸ mem_cons_self) hnd.1
  rw [hnil] at hperm
  exact hah (mem_singleton.mp (hperm.mem_iff.mpr hr.head_mem)).symm

theorem Ring.frame (hn : ∀ a ∈ l, next' a = next a)
    (hp : ∀ a ∈ l, prev' a = prev a) : Ring next' prev' h l where
  seg := hr.seg.frame hn
  nonempty := hr.nonempty
  nodup := hr.nodup
  back := by
    intro a ha b hab
    rw [hn a ha] at hab
    obtain ⟨c, hc, hac, -⟩ := hr.exists_next ha
    obtain rfl : c = b := some.inj (hac.symm.trans hab)
    rw [hp c hc]
    exact hr.back a ha c hab

/-! ### Linking and unlinking -/

/-- **Linking in.**  The new node stands between the last node `p` and the first. -/
theorem Ring.insert {t p : α} (ht : t ∉ l) (hph : prev h = some p)
    (hnt : next' t = some h) (hpt : prev' t = some p) (hnp : next' p = some t)
    (hph' : prev' h = some t) (hn : ∀ a ∈ l, a ≠ p → next' a = next a)
    (hp : ∀ a ∈ l, a ≠ h → prev' a = prev a) : Ring next' prev' h (l ++ [t]) := by
  -- The last node is the one that points back to the first.
  obtain ⟨l1, p0, rfl⟩ := (eq_nil_or_concat' l).resolve_left hr.nonempty
  obtain ⟨h1, hp0⟩ := hr.seg.of_concat
  obtain rfl : p0 = p := some.inj ((hr.back p0 (by simp) h hp0).symm.trans hph)
  have hn1 : ∀ a ∈ l1, next' a = next a := fun a ha =>
    hn a (mem_append_left _ ha) ((nodup_append.mp hr.nodup).2.2 a ha p0 (by simp))
  constructor
  · exact .append (.append (h1.frame hn1) ⟨rfl, hnp⟩) ⟨rfl, hnt⟩
  · simp
  · exact nodup_append.mpr ⟨hr.nodup, nodup_singleton t, by
      intro a ha b hb
      rw [mem_singleton.mp hb]
      exact fun e => ht (e ▸ ha)⟩
  · intro a ha b hab
    rcases mem_append.mp ha with ha | ha
    · by_cases hap : a = p0
      · subst hap
        obtain rfl : t = b := some.inj (hnp.symm.trans hab)
        exact hpt
      · rw [hn a ha hap] at hab
        have hba := hr.back a ha b hab
        -- Only the last node has the first for a successor.
        have hbh : b ≠ h := by
          rintro rfl
          exact hap (some.inj (hba.symm.trans hph))
        obtain ⟨c, hc, hac, -⟩ := hr.exists_next ha
        obtain rfl : c = b := some.inj (hac.symm.trans hab)
        rw [hp c hc hbh]
        exact hba
    · rw [mem_singleton.mp ha] at hab ⊢
      obtain rfl : h = b := some.inj (hnt.symm.trans hab)
      exact hph'

end Facts

/-- **Unlinking** a node that is not the first. -/
theorem Ring.erase [DecidableEq α] (hr : Ring next prev h l) {a p q : α} (ha : a ∈ l) (hah : a ≠ h)
    (hpa : prev a = some p) (haq : next a = some q) (hnp : next' p = some q)
    (hpq : prev' q = some p) (hn : ∀ b ∈ l, b ≠ a → b ≠ p → next' b = next b)
    (hp : ∀ b ∈ l, b ≠ a → b ≠ q → prev' b = prev b) : Ring next' prev' h (l.erase a) := by
  have hseg : Seg next' (some h) (l.erase a) (some h) := by
    obtain ⟨l1, l2, rfl⟩ := append_of_mem ha
    have hdis := nodup_append.mp hr.nodup
    obtain ⟨ha1, ha2⟩ : a ∉ l1 ∧ a ∉ l2 :=
      ⟨fun hm => hdis.2.2 a hm a (by simp) rfl, (nodup_cons.mp hdis.2.1).1⟩
    rw [erase_append_right _ ha1, erase_cons_head]
    obtain ⟨r, h1, rfl, h2⟩ := Seg.split hr.seg
    -- `p` is the last node before `a`.
    rcases eq_nil_or_concat' l1 with rfl | ⟨l3, p0, rfl⟩
    · exact absurd (some.inj h1).symm hah
    obtain ⟨h3, hp0⟩ := h1.of_concat
    obtain rfl : p0 = p := some.inj ((hr.back p0 (by simp) a hp0).symm.trans hpa)
    have hne : ∀ b ∈ l3, b ≠ p0 := fun b hb => (nodup_append.mp hdis.1).2.2 b hb p0 (by simp)
    have hp2 : p0 ∉ l2 := fun hm => hdis.2.2 p0 (by simp) p0 (by simp [hm]) rfl
    refine .append (.append (h3.frame ?_) ⟨rfl, hnp⟩) ?_
    · intro b hb
      exact hn b (by simp [hb]) (fun e => ha1 (by simp [← e, hb])) (hne b hb)
    · rw [← haq]
      refine h2.frame fun b hb => ?_
      exact hn b (by simp [hb]) (fun e => ha2 (e ▸ hb)) (fun e => hp2 (e ▸ hb))
  refine ⟨hseg, ?_, hr.nodup.erase a, ?_⟩
  · intro hnil
    have hmem : h ∈ l.erase a := (mem_erase_of_ne (Ne.symm hah)).mpr hr.head_mem
    rw [hnil] at hmem
    exact not_mem_nil hmem
  · intro b hb c hbc
    have hba : b ≠ a := fun e => (Nodup.mem_erase_iff hr.nodup).mp hb |>.1 e
    have hbl : b ∈ l := mem_of_mem_erase hb
    by_cases hbp : b = p
    · subst hbp
      obtain rfl : q = c := some.inj (hnp.symm.trans hbc)
      exact hpq
    · rw [hn b hbl hba hbp] at hbc
      have hcb := hr.back b hbl c hbc
      have hca : c ≠ a := by
        rintro rfl
        exact hbp (some.inj (hcb.symm.trans hpa))
      have hcq : c ≠ q := by
        rintro rfl
        exact hba (some.inj (hcb.symm.trans (hr.back a ha c haq)))
      obtain ⟨d, hd, hbd, -⟩ := hr.exists_next hbl
      obtain rfl : d = c := some.inj (hbd.symm.trans hbc)
      rw [hp d hd hca hcq]
      exact hcb

end AxiomeOS.Chains
