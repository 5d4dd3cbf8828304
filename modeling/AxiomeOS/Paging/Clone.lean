import AxiomeOS.Paging.Hardware

/-!
# Cloning an address space

`clone_level` of `kernel/arch/x86_64/mmu.c`, which `fork` runs over the four levels of the
parent's page tables (`mmu_clone_root`), and which with `deep_user = 0` builds a fresh address
space that shares the kernel's entries (`mmu_new_user_root`).

* `cloneLevel_extends` — a clone writes to frames that were free before it, and to no other;
* `cloneLevel_cloneOf` — a clone that succeeds is a copy of the tables, entry by entry, with
  user pages copied to fresh frames and supervisor entries shared;
* `mmuCloneRoot_faithful_iff` — what the processor sees: the clone is faithful **exactly** when
  no user page of the source is no-execute.  The flags of a copied entry are
  `e & 0x1FF`, which drops bit 63.
-/

namespace AxiomeOS.Paging

open Bits Frames Function List

/-! ### The recursive copy -/

/-- One round of the loop of `clone_level`: entry `i` of the table `src` is copied into the table
`dst`; `clone` is the recursive call for the level below.  `false` when an allocation failed. -/
def cloneEntry (clone : Machine → ℕ → Machine × ℕ) (level : ℕ) (deepUser : Bool) (src dst : ℕ)
    (m : Machine) (i : ℕ) : Machine × Bool :=
  let e := m.mem src i
  if !isPresent e then (m, true)
  else if !isUser e then (m.setWord dst i e, true)
  else if !deepUser then (m.setWord dst i 0#64, true)
  else if 1 < level then
    if level = 2 && isHuge e then (m.setWord dst i e, true)
    else
      let (m, nextDst) := clone m (frameOf e)
      if nextDst = 0 then (m, false) else (m.setWord dst i (pteEntry nextDst (dirFlags e)), true)
  else
    let (p, np) := pmmAllocFrame m.pmm
    let m := { m with pmm := p }
    if np = 0 then (m, false)
    else
      let m := m.setFrame np (m.mem (frameOf e))
      (m.setWord dst i (pteEntry np (lowFlags e)), true)

/-- The loop over the entries of a table, left at the first failure. -/
def cloneEntries (step : Machine → ℕ → Machine × Bool) : List ℕ → Machine → Machine × Bool
  | [], m => (m, true)
  | i :: is, m =>
    match step m i with
    | (m, true) => cloneEntries step is m
    | (m, false) => (m, false)

/-- `for (int i = 0; i < 512; i++)` -/
@[irreducible] def tableSlots : List ℕ := List.range 512

variable {d dst i src virt ℓ : ℕ} {m m' m₀ m₁ : Machine} {p : Pmm}
  {clone : Machine → ℕ → Machine × ℕ} {e e' : U64}

theorem mem_tableSlots : i ∈ tableSlots ↔ i < 512 := by
  unfold tableSlots
  exact mem_range

theorem nodup_tableSlots : tableSlots.Nodup := by
  unfold tableSlots
  exact nodup_range

/-- The body of `clone_level`; `clone` is the recursive call, the null pointer is 0. -/
def cloneTable (clone : Machine → ℕ → Machine × ℕ) (level : ℕ) (deepUser : Bool) (m : Machine)
    (src : ℕ) : Machine × ℕ :=
  let (p, dst) := pmmAllocFrame m.pmm
  let m := { m with pmm := p }
  if dst = 0 then (m, 0)
  else
    let (m, ok) := cloneEntries (cloneEntry clone level deepUser src dst) tableSlots
      (m.setFrame dst fun _ => 0#64)
    (m, if ok then dst else 0)

/-- `clone_level` -/
def cloneLevel (deepUser : Bool) : ℕ → Machine → ℕ → Machine × ℕ
  | 0 => fun m _ => (m, 0)
  | level + 1 => cloneTable (cloneLevel deepUser level) (level + 1) deepUser

theorem cloneTable_null (hz : (pmmAllocFrame m.pmm).2 = 0)
    (clone : Machine → ℕ → Machine × ℕ) (level : ℕ) (deepUser : Bool) (src : ℕ) :
    cloneTable clone level deepUser m src = ({ m with pmm := (pmmAllocFrame m.pmm).1 }, 0) :=
  if_pos hz

theorem cloneTable_alloc (hz : (pmmAllocFrame m.pmm).2 ≠ 0)
    (clone : Machine → ℕ → Machine × ℕ) (level : ℕ) (deepUser : Bool) (src : ℕ) :
    cloneTable clone level deepUser m src =
      let dst := (pmmAllocFrame m.pmm).2
      let r := cloneEntries (cloneEntry clone level deepUser src dst) tableSlots
        (({ m with pmm := (pmmAllocFrame m.pmm).1 } : Machine).setFrame dst fun _ => 0#64)
      (r.1, if r.2 then dst else 0) :=
  if_neg hz

/-- `mmu_new_user_root` -/
def mmuNewUserRoot (m : Machine) : Machine × ℕ := cloneLevel false 4 m m.kernelRoot

/-- `mmu_clone_root` -/
def mmuCloneRoot (m : Machine) (src : ℕ) : Machine × ℕ := cloneLevel true 4 m src

/-! ### Machines that only gained frames -/

/-- `m'` has the used frames of `m`, with their contents, and possibly more. -/
structure Extends (m m' : Machine) : Prop where
  used : ∀ f, m.pmm.used f = true → m'.pmm.used f = true
  mem : ∀ f, m.pmm.used f = true → m'.mem f = m.mem f

theorem Extends.rfl' (m : Machine) : Extends m m := ⟨fun _ h => h, fun _ _ => rfl⟩

theorem Extends.trans' {m₂ m₃ : Machine} (h : Extends m₁ m₂) (h' : Extends m₂ m₃) : Extends m₁ m₃ :=
  ⟨fun f hf => h'.used f (h.used f hf), fun f hf => (h'.mem f (h.used f hf)).trans (h.mem f hf)⟩

theorem Extends.spend (hp : Spent m.pmm p) :
    Extends m { m with pmm := p } := ⟨hp.used, fun _ _ => rfl⟩

theorem Extends.fill {g : ℕ} (ha : Allocated m.pmm p g) (c : ℕ → U64) :
    Extends m (({ m with pmm := p } : Machine).setFrame g c) := by
  refine ⟨fun f hf => ?_, fun f hf => ?_⟩
  · show p.used f = true
    rw [ha.used, update_apply]
    split
    · rfl
    · exact hf
  · have hfg : f ≠ g := fun h => by
      rw [h, ha.free] at hf
      cases hf
    funext i
    exact if_neg hfg

theorem Extends.setWord (h : Extends m m') (hd : m.pmm.used d = false) (i : ℕ) (w : U64) :
    Extends m (m'.setWord d i w) := by
  refine ⟨h.used, fun f hf => ?_⟩
  have hfd : f ≠ d := fun heq => by
    rw [heq, hd] at hf
    cases hf
  funext j
  show (if f = d ∧ j = i then w else m'.mem f j) = m.mem f j
  rw [if_neg fun h => hfd h.1, h.mem f hf]

/-- **A clone writes to fresh frames only**, entry by entry and for the whole loop. -/
theorem cloneEntry_extends (hclone : ∀ m s, Extends m (clone m s).1) (hm : Extends m₀ m)
    (hdst : m₀.pmm.used dst = false) (level : ℕ) (deepUser : Bool) (src i : ℕ) :
    Extends m₀ (cloneEntry clone level deepUser src dst m i).1 := by
  unfold cloneEntry
  dsimp only
  split
  · exact hm
  split
  · exact hm.setWord hdst _ _
  split
  · exact hm.setWord hdst _ _
  split
  · split
    · exact hm.setWord hdst _ _
    · have hrec := hm.trans' (hclone m (frameOf (m.mem src i)))
      split
      · exact hrec
      · exact hrec.setWord hdst _ _
  · by_cases hz : (pmmAllocFrame m.pmm).2 = 0
    · rw [if_pos hz]
      exact hm.trans' (.spend (pmmAllocFrame_spent hz))
    · rw [if_neg hz]
      exact (hm.trans' (.fill (pmmAllocFrame_allocated hz) _)).setWord hdst _ _

theorem cloneEntries_extends {step : Machine → ℕ → Machine × Bool}
    (hstep : ∀ m i, Extends m₀ m → Extends m₀ (step m i).1) (is : List ℕ) :
    ∀ m, Extends m₀ m → Extends m₀ (cloneEntries step is m).1 := by
  induction is with
  | nil => intro m hm; exact hm
  | cons i is ih =>
    intro m hm
    have hnext := hstep m i hm
    rw [cloneEntries]
    rcases h : step m i with ⟨m₁, ok⟩
    rw [h] at hnext
    cases ok with
    | true => exact ih m₁ hnext
    | false => exact hnext

theorem cloneLevel_extends (deepUser : Bool) (level : ℕ) :
    ∀ m src, Extends m (cloneLevel deepUser level m src).1 := by
  induction level with
  | zero => intro m src; exact .rfl' m
  | succ level ih =>
    intro m src
    by_cases hz : (pmmAllocFrame m.pmm).2 = 0
    · rw [cloneLevel, cloneTable_null hz]
      exact .spend (pmmAllocFrame_spent hz)
    · have ha := pmmAllocFrame_allocated hz
      rw [cloneLevel, cloneTable_alloc hz]
      exact cloneEntries_extends
        (fun m' i hm' => cloneEntry_extends ih hm' ha.free (level + 1) deepUser src i)
        tableSlots _ (.fill ha fun _ => 0#64)

/-! ### What a clone is -/

/-- The tables from the table `f` of this level down are frames in use. -/
def TablesUsed (m : Machine) : ℕ → ℕ → Prop
  | 0, _ => True
  | ℓ + 1, f => m.pmm.used f = true ∧ ∀ i, i < 512 → isPresent (m.mem f i) = true →
      isHuge (m.mem f i) = false → TablesUsed m ℓ (frameOf (m.mem f i))

/-- A user address space of 4 KiB pages, from the table `f` of this level down: its tables, its
user pages and the tables it shares with the kernel are frames in use, so that the allocator does
not hand them out, and no user entry above the last level maps a large page. -/
def UserSpace (m : Machine) : ℕ → ℕ → Prop
  | 0, f => m.pmm.used f = true
  | ℓ + 1, f => m.pmm.used f = true ∧ ∀ i, i < 512 → isPresent (m.mem f i) = true →
      (isUser (m.mem f i) = true →
        (ℓ ≠ 0 → isHuge (m.mem f i) = false) ∧ UserSpace m ℓ (frameOf (m.mem f i))) ∧
      (isUser (m.mem f i) = false → isHuge (m.mem f i) = false →
        TablesUsed m ℓ (frameOf (m.mem f i)))

instance decidableTablesUsed (m : Machine) : ∀ ℓ f, Decidable (TablesUsed m ℓ f)
  | 0, _ => isTrue trivial
  | ℓ + 1, f =>
    haveI := decidableTablesUsed m ℓ
    inferInstanceAs (Decidable (m.pmm.used f = true ∧ ∀ i, i < 512 →
      isPresent (m.mem f i) = true → isHuge (m.mem f i) = false →
      TablesUsed m ℓ (frameOf (m.mem f i))))

instance decidableUserSpace (m : Machine) : ∀ ℓ f, Decidable (UserSpace m ℓ f)
  | 0, f => inferInstanceAs (Decidable (m.pmm.used f = true))
  | ℓ + 1, f =>
    haveI := decidableUserSpace m ℓ
    haveI : ∀ i, Decidable ((ℓ ≠ 0 → isHuge (m.mem f i) = false) ∧
      UserSpace m ℓ (frameOf (m.mem f i))) := fun _ => inferInstance
    inferInstanceAs (Decidable (m.pmm.used f = true ∧ ∀ i, i < 512 →
      isPresent (m.mem f i) = true →
      (isUser (m.mem f i) = true →
        (ℓ ≠ 0 → isHuge (m.mem f i) = false) ∧ UserSpace m ℓ (frameOf (m.mem f i))) ∧
      (isUser (m.mem f i) = false → isHuge (m.mem f i) = false →
        TablesUsed m ℓ (frameOf (m.mem f i)))))

theorem UserSpace.used {f : ℕ} (h : UserSpace m ℓ f) : m.pmm.used f = true := by
  cases ℓ with
  | zero => exact h
  | succ ℓ => exact h.1

/-- The flags of a copied user entry, by the number of levels below it. -/
def copiedFlags (ℓ : ℕ) (e : U64) : U64 := if ℓ = 0 then lowFlags e else dirFlags e

/-- The entry `e'` is what a clone makes of `e`: nothing of nothing, the same of a supervisor
entry, and of a user entry one that leads to a copy (`below`). -/
structure EntryOf (below : ℕ → ℕ → Prop) (ℓ : ℕ) (e e' : U64) : Prop where
  absent : isPresent e = false → isPresent e' = false
  shared : isPresent e = true → isUser e = false → e' = e
  copied : isPresent e = true → isUser e = true →
    ∃ d, d < 2 ^ 40 ∧ e' = pteEntry d (copiedFlags ℓ e) ∧ below (frameOf e) d

/-- The table or page `d` of `m` is a clone of `s` of `m₀`, made of frames that are not in `u`. -/
def CloneOf (m₀ : Machine) (u : ℕ → Bool) (m : Machine) : ℕ → ℕ → ℕ → Prop
  | 0, s, d => u d = false ∧ m.pmm.used d = true ∧ m.mem d = m₀.mem s
  | ℓ + 1, s, d => u d = false ∧ m.pmm.used d = true ∧
      ∀ i, i < 512 → EntryOf (CloneOf m₀ u m ℓ) ℓ (m₀.mem s i) (m.mem d i)

theorem EntryOf.mono {below below' : ℕ → ℕ → Prop} (hb : ∀ s d, below s d → below' s d)
    (h : EntryOf below ℓ e e') : EntryOf below' ℓ e e' := by
  refine ⟨h.absent, h.shared, fun hp hu => ?_⟩
  obtain ⟨d, hd, heq, hbelow⟩ := h.copied hp hu
  exact ⟨d, hd, heq, hb _ _ hbelow⟩

theorem CloneOf.mono {u u' : ℕ → Bool} (hu : ∀ f, u f = false → u' f = false)
    (hm : ∀ f, u f = false → m.pmm.used f = true → m'.pmm.used f = true ∧ m'.mem f = m.mem f)
    (ℓ : ℕ) : ∀ s d, CloneOf m₀ u m ℓ s d → CloneOf m₀ u' m' ℓ s d := by
  induction ℓ with
  | zero =>
    rintro s d ⟨hd, hused, hmem⟩
    obtain ⟨hused', hmem'⟩ := hm d hd hused
    exact ⟨hu d hd, hused', hmem'.trans hmem⟩
  | succ ℓ ih =>
    rintro s d ⟨hd, hused, hentry⟩
    obtain ⟨hused', hmem'⟩ := hm d hd hused
    refine ⟨hu d hd, hused', fun i hi => ?_⟩
    rw [hmem']
    exact (hentry i hi).mono ih

/-! ### One round of the loop -/

/-- A round that succeeds skips an absent entry, shares a supervisor entry, or copies what is
below a user entry (by the recursive call, or a page) and stores the copy. -/
theorem cloneEntry_cases (he : m.mem src i = e)
    (hnh : isPresent e = true → isUser e = true → ℓ ≠ 0 → isHuge e = false)
    (hres : cloneEntry clone (ℓ + 1) true src dst m i = (m', true)) :
    (isPresent e = false ∧ m' = m) ∨
      (isPresent e = true ∧ isUser e = false ∧ m' = m.setWord dst i e) ∨
      (isPresent e = true ∧ isUser e = true ∧ ∃ m₁ d, d ≠ 0 ∧
        m' = m₁.setWord dst i (pteEntry d (copiedFlags ℓ e)) ∧
        ((ℓ ≠ 0 ∧ clone m (frameOf e) = (m₁, d)) ∨
          (ℓ = 0 ∧ ∃ p, Allocated m.pmm p d ∧
            m₁ = ({ m with pmm := p } : Machine).setFrame d (m.mem (frameOf e))))) := by
  subst he
  cases hp : isPresent (m.mem src i) with
  | false => exact .inl ⟨rfl, by simpa [cloneEntry, hp] using hres.symm⟩
  | true =>
    cases hu : isUser (m.mem src i) with
    | false => exact .inr (.inl ⟨rfl, rfl, by simpa [cloneEntry, hp, hu] using hres.symm⟩)
    | true =>
      refine .inr (.inr ⟨rfl, rfl, ?_⟩)
      by_cases hℓ : ℓ = 0
      · subst hℓ
        by_cases hz : (pmmAllocFrame m.pmm).2 = 0
        · simp [cloneEntry, hp, hu, hz] at hres
        · refine ⟨_, _, hz, ?_, .inr ⟨rfl, _, pmmAllocFrame_allocated hz, rfl⟩⟩
          simpa [cloneEntry, hp, hu, hz, copiedFlags] using hres.symm
      · have hh := hnh hp hu hℓ
        by_cases hz : (clone m (frameOf (m.mem src i))).2 = 0
        · simp [cloneEntry, hp, hu, hh, hz, Nat.pos_of_ne_zero hℓ] at hres
        · refine ⟨_, _, hz, ?_, .inl ⟨hℓ, rfl⟩⟩
          simpa [cloneEntry, hp, hu, hh, hz, copiedFlags, hℓ, Nat.pos_of_ne_zero hℓ] using hres.symm

/-- What a part of the loop changes: free frames, and the entries `S` of the table `dst`. -/
structure RowStep (dst : ℕ) (S : ℕ → Prop) (m m' : Machine) : Prop where
  used : ∀ f, m.pmm.used f = true → m'.pmm.used f = true
  mem : ∀ f, m.pmm.used f = true → f ≠ dst → m'.mem f = m.mem f
  row : ∀ j, ¬ S j → m'.mem dst j = m.mem dst j

theorem RowStep.setWord (h : Extends m m₁) (hdst : m.pmm.used dst = true) (i : ℕ) (w : U64) :
    RowStep dst (· = i) m (m₁.setWord dst i w) := by
  refine ⟨h.used, fun f hf hfd => ?_, fun j hj => ?_⟩
  · rw [← h.mem f hf]
    funext k
    exact if_neg fun hk => hfd hk.1
  · rw [← h.mem dst hdst]
    exact if_neg fun hk => hj hk.2

theorem setWord_mem_self (m : Machine) (f i : ℕ) (w : U64) : (m.setWord f i w).mem f i = w :=
  if_pos ⟨rfl, rfl⟩

/-- The recursive call for level `ℓ`, specified against the machine `m₀` the clone starts from. -/
structure CloneSpec (m₀ : Machine) (ℓ : ℕ) (clone : Machine → ℕ → Machine × ℕ) : Prop where
  ext : ∀ m s, Extends m (clone m s).1
  cloneOf : ∀ m s, Extends m₀ m → UserSpace m₀ ℓ s → (clone m s).2 ≠ 0 →
    (clone m s).2 < 2 ^ 40 ∧ CloneOf m₀ m.pmm.used (clone m s).1 ℓ s (clone m s).2

section Loop

variable {m₀ : Machine} {ℓ : ℕ} {clone : Machine → ℕ → Machine × ℕ} {src dst : ℕ} {u : ℕ → Bool}

/-- **One round.**  A round that succeeds changes entry `i` only, and makes it the clone of the
source's entry. -/
theorem cloneEntry_step (hclone : CloneSpec m₀ ℓ clone) (hsrc : UserSpace m₀ (ℓ + 1) src)
    (hu : u dst = true) (hext : Extends m₀ m)
    (hum : ∀ f, u f = true → m.pmm.used f = true) (hi : i < 512) (hzero : m.mem dst i = 0#64)
    (hres : cloneEntry clone (ℓ + 1) true src dst m i = (m', true)) :
    RowStep dst (· = i) m m' ∧
      EntryOf (CloneOf m₀ u m' ℓ) ℓ (m₀.mem src i) (m'.mem dst i) := by
  have hdst := hum dst hu
  have huser := fun hp => (hsrc.2 i hi hp).1
  rcases cloneEntry_cases (congrFun (hext.mem src hsrc.used) i)
    (fun hp hus hℓ => (huser hp hus).1 hℓ) hres with
    ⟨hp, rfl⟩ | ⟨hp, hus, rfl⟩ | ⟨hp, hus, m₁, d, hd, rfl, hbelow⟩
  · rw [hzero]
    exact ⟨⟨fun _ h => h, fun _ _ _ => rfl, fun _ _ => rfl⟩, fun _ => by decide,
      fun hp' => absurd hp' (ne_true_of_eq_false hp),
      fun hp' => absurd hp' (ne_true_of_eq_false hp)⟩
  · rw [setWord_mem_self]
    exact ⟨.setWord (.rfl' m) hdst i _, fun h => h, fun _ _ => rfl,
      fun _ hus' => absurd hus' (ne_true_of_eq_false hus)⟩
  · -- what is below the entry was copied to frames free in `m`, which excludes `dst`
    have hcopy : Extends m m₁ ∧ d < 2 ^ 40 ∧
        CloneOf m₀ m.pmm.used m₁ ℓ (frameOf (m₀.mem src i)) d := by
      obtain ⟨hnh, hspace⟩ := huser hp hus
      rcases hbelow with ⟨-, hrec⟩ | ⟨rfl, p, ha, rfl⟩
      · have hext' := hclone.ext m (frameOf (m₀.mem src i))
        have hspec := hclone.cloneOf m _ hext hspace (by rw [hrec]; exact hd)
        rw [hrec] at hext' hspec
        exact ⟨hext', hspec.1, hspec.2⟩
      · refine ⟨.fill ha _, ha.lt_field, ha.free, ?_, ?_⟩
        · show p.used d = true
          rw [ha.used, update_self]
        · rw [← hext.mem _ hspace]
          funext k
          exact if_pos rfl
    obtain ⟨hext1, hdlt, hof⟩ := hcopy
    have hfresh : ∀ f, m.pmm.used f = false → u f = false := fun f hf =>
      Bool.eq_false_iff.mpr fun huf => absurd (hum f huf) (ne_true_of_eq_false hf)
    have hkeep : ∀ w f, m.pmm.used f = false → m₁.pmm.used f = true →
        (m₁.setWord dst i w).pmm.used f = true ∧ (m₁.setWord dst i w).mem f = m₁.mem f := by
      intro w f hf hfu
      refine ⟨hfu, ?_⟩
      funext k
      refine if_neg ?_
      rintro ⟨rfl, -⟩
      exact absurd hdst (ne_true_of_eq_false hf)
    rw [setWord_mem_self]
    exact ⟨.setWord hext1 hdst i _, fun hp' => absurd hp (ne_true_of_eq_false hp'),
      fun _ hus' => absurd hus (ne_true_of_eq_false hus'),
      fun _ _ => ⟨d, hdlt, rfl, .mono hfresh (hkeep _) ℓ _ _ hof⟩⟩

/-- **The loop.**  Induction over the entries left: a round keeps what earlier rounds made,
because their copies lie in frames that are used by now and differ from `dst`. -/
theorem cloneEntries_row (hclone : CloneSpec m₀ ℓ clone) (hsrc : UserSpace m₀ (ℓ + 1) src)
    (hu : u dst = true) (hdst₀ : m₀.pmm.used dst = false) (is : List ℕ) (hext : Extends m₀ m)
    (hum : ∀ f, u f = true → m.pmm.used f = true) (hnodup : is.Nodup)
    (hrow : ∀ i ∈ is, i < 512 ∧ m.mem dst i = 0#64)
    (hok : cloneEntries (cloneEntry clone (ℓ + 1) true src dst) is m = (m', true)) :
    RowStep dst (· ∈ is) m m' ∧
      ∀ i ∈ is, EntryOf (CloneOf m₀ u m' ℓ) ℓ (m₀.mem src i) (m'.mem dst i) := by
  induction is generalizing m with
  | nil =>
    cases hok
    exact ⟨⟨fun _ h => h, fun _ _ _ => rfl, fun _ _ => rfl⟩, nofun⟩
  | cons i is ih =>
    obtain ⟨hnotin, hnodup'⟩ := nodup_cons.mp hnodup
    obtain ⟨hi, hzero⟩ := hrow i mem_cons_self
    rw [cloneEntries] at hok
    rcases hres : cloneEntry clone (ℓ + 1) true src dst m i with ⟨m₁, ok⟩
    rw [hres] at hok
    cases ok with
    | false => cases hok
    | true =>
      obtain ⟨hstep1, hentry⟩ := cloneEntry_step hclone hsrc hu hext hum hi hzero hres
      have hum1 : ∀ f, u f = true → m₁.pmm.used f = true := fun f hf => hstep1.used f (hum f hf)
      have hext1 : Extends m₀ m₁ :=
        ⟨fun f hf => hstep1.used f (hext.used f hf), fun f hf =>
          (hstep1.mem f (hext.used f hf) fun h =>
            absurd hf (ne_true_of_eq_false (h ▸ hdst₀))).trans (hext.mem f hf)⟩
      have hrow1 : ∀ j ∈ is, j < 512 ∧ m₁.mem dst j = 0#64 := by
        intro j hj
        obtain ⟨hj512, hj0⟩ := hrow j (mem_cons_of_mem _ hj)
        exact ⟨hj512, (hstep1.row j fun h => hnotin (h ▸ hj)).trans hj0⟩
      obtain ⟨hrest, hentries⟩ := ih hext1 hum1 hnodup' hrow1 hok
      refine ⟨⟨fun f hf => hrest.used f (hstep1.used f hf), fun f hf hfd =>
        (hrest.mem f (hstep1.used f hf) hfd).trans (hstep1.mem f hf hfd), ?_⟩, ?_⟩
      · intro j hj
        rw [mem_cons, not_or] at hj
        exact (hrest.row j hj.2).trans (hstep1.row j hj.1)
      · intro j hj
        rcases mem_cons.mp hj with rfl | hj
        · rw [hrest.row j hnotin]
          refine hentry.mono (.mono (fun f hf => hf) (fun f hf hfu => ?_) ℓ)
          exact ⟨hrest.used f hfu, hrest.mem f hfu fun h =>
            absurd hu (ne_true_of_eq_false (h ▸ hf))⟩
        · exact hentries j hj

end Loop

/-- **A clone that succeeds is a clone.**  Induction on the level. -/
theorem cloneLevel_cloneSpec (m₀ : Machine) (ℓ : ℕ) : CloneSpec m₀ ℓ (cloneLevel true ℓ) := by
  induction ℓ with
  | zero => exact ⟨cloneLevel_extends true 0, fun _ _ _ _ h => absurd rfl h⟩
  | succ ℓ ih =>
    refine ⟨cloneLevel_extends true (ℓ + 1), fun m s hext hsrc hne => ?_⟩
    rw [cloneLevel] at hne ⊢
    by_cases hz : (pmmAllocFrame m.pmm).2 = 0
    · rw [cloneTable_null hz] at hne
      exact absurd rfl hne
    · have ha := pmmAllocFrame_allocated hz
      rw [cloneTable_alloc hz] at hne ⊢
      dsimp only at hne ⊢
      generalize hdst : (pmmAllocFrame m.pmm).2 = dst at *
      generalize hp : (pmmAllocFrame m.pmm).1 = p at *
      have hdst0 : m₀.pmm.used dst = false := Bool.eq_false_iff.mpr fun h =>
        absurd (hext.used dst h) (ne_true_of_eq_false ha.free)
      have hdst1 : p.used dst = true := by rw [ha.used, update_self]
      cases hres : cloneEntries (cloneEntry (cloneLevel true ℓ) (ℓ + 1) true s dst) tableSlots
          (({ m with pmm := p } : Machine).setFrame dst fun _ => 0#64) with
      | mk m' ok =>
        rw [hres] at hne
        cases ok with
        | false => exact absurd rfl hne
        | true =>
          obtain ⟨hstep, hentries⟩ := cloneEntries_row ih hsrc hdst1 hdst0 tableSlots
            (hext.trans' (.fill ha fun _ => 0#64)) (fun f hf => hf) nodup_tableSlots
            (fun i hi => ⟨mem_tableSlots.mp hi, if_pos rfl⟩) hres
          have hfree : ∀ f, p.used f = false → m.pmm.used f = false := by
            intro f hf
            rw [ha.used, update_apply] at hf
            split at hf
            · cases hf
            · exact hf
          refine ⟨ha.lt_field, ha.free, hstep.used dst hdst1, fun i hi => ?_⟩
          exact (hentries i (mem_tableSlots.mpr hi)).mono
            (.mono hfree (fun f _ hfu => ⟨hfu, rfl⟩) ℓ)

/-! ### What the processor sees -/

/-- The rights of a copied user entry: those of the source, except that it may execute. -/
theorem copied_entry (hd : d < 2 ^ 40) (he : e' = pteEntry d (copiedFlags ℓ e)) :
    isPresent e' = isPresent e ∧ isWrite e' = isWrite e ∧ isUser e' = isUser e ∧
      isNx e' = false ∧ (ℓ ≠ 0 → isHuge e' = false) ∧ frameOf e' = d := by
  rw [he, isPresent_pteEntry, isWrite_pteEntry, isUser_pteEntry, isNx_pteEntry d hd,
    isHuge_pteEntry, copiedFlags]
  by_cases hℓ : ℓ = 0
  · obtain ⟨hp, hw, hu⟩ := rights_lowFlags e
    rw [if_pos hℓ]
    exact ⟨hp, hw, hu, isNx_lowFlags e, fun h => absurd hℓ h,
      frameOf_pteEntry d hd _ (lowFlags_and_addrMask e)⟩
  · obtain ⟨hw, hu⟩ := rights_dirFlags e
    rw [if_neg hℓ]
    exact ⟨isPresent_dirFlags e, hw, hu, isNx_dirFlags e, fun _ => isHuge_dirFlags e,
      frameOf_pteEntry d hd _ (dirFlags_and_addrMask e)⟩

/-- Below a supervisor entry the clone walks the kernel's own tables. -/
theorem pathFrom_shared (hext : Extends m₀ m) (is : List ℕ) :
    ∀ f, (∀ i ∈ is, i < 512) → TablesUsed m₀ is.length f → pathFrom m is f = pathFrom m₀ is f := by
  induction is with
  | nil => intro f _ _; rfl
  | cons i is ih =>
    intro f his hused
    have hmem : m.mem f i = m₀.mem f i := congrFun (hext.mem f hused.1) i
    simp only [pathFrom, hmem]
    split
    · rename_i hwalk
      rw [Bool.and_eq_true, Bool.not_eq_true'] at hwalk
      rw [ih _ (fun j hj => his j (mem_cons_of_mem _ hj))
        (hused.2 i (his i mem_cons_self) hwalk.1 hwalk.2)]
    · rfl

/-- The entries `p'` carry the rights of the user entries `p`, except that they all allow
execution. -/
structure CopiedPath (p p' : List U64) : Prop where
  length : p'.length = p.length
  present : p'.all isPresent = true
  user : p'.all isUser = true
  write : p'.all isWrite = p.all isWrite
  exec : p'.any isNx = false

theorem CopiedPath.nil : CopiedPath [] [] := ⟨rfl, rfl, rfl, rfl, rfl⟩

theorem CopiedPath.cons {p p' : List U64} (h : CopiedPath p p')
    (hp : isPresent e' = true) (hu : isUser e' = true) (hw : isWrite e' = isWrite e)
    (hn : isNx e' = false) : CopiedPath (e :: p) (e' :: p') := by
  refine ⟨congrArg Nat.succ h.length, ?_, ?_, ?_, ?_⟩
  · rw [all_cons, hp, h.present, Bool.and_self]
  · rw [all_cons, hu, h.user, Bool.and_self]
  · rw [all_cons, all_cons, hw, h.write]
  · rw [any_cons, hn, h.exec, Bool.or_self]

section Walk

variable {m₀ m : Machine} {u : ℕ → Bool}

/-- **The walk of a user page.**  If every entry of the source's walk is a user entry, the
clone's walk has the same rights apart from no-execute, and ends in a copy of the source's
page. -/
theorem CloneOf.path_user (is : List ℕ) (s d : ℕ) (his : ∀ i ∈ is, i < 512)
    (hsrc : UserSpace m₀ is.length s) (hof : CloneOf m₀ u m is.length s d)
    (hpres : (pathFrom m₀ is s).all isPresent = true)
    (huser : (pathFrom m₀ is s).all isUser = true) :
    (pathFrom m₀ is s).length = is.length ∧ CopiedPath (pathFrom m₀ is s) (pathFrom m is d) ∧
      m₀.pmm.used (endFrame m₀ is s) = true ∧
      CloneOf m₀ u m 0 (endFrame m₀ is s) (endFrame m is d) := by
  induction is generalizing s d with
  | nil => exact ⟨rfl, .nil, hsrc, hof⟩
  | cons i is ih =>
    have hi := his i mem_cons_self
    have hp : isPresent (m₀.mem s i) = true := (Bool.and_eq_true_iff.mp hpres).1
    have hus : isUser (m₀.mem s i) = true := (Bool.and_eq_true_iff.mp huser).1
    obtain ⟨hnh, hspace⟩ := (hsrc.2 i hi hp).1 hus
    obtain ⟨d', hd', he', hbelow⟩ := (hof.2.2 i hi).copied hp hus
    obtain ⟨hp', hw', hu', hn', hh', hf'⟩ := copied_entry hd' he'
    have hcons := fun {p p'} (h : CopiedPath p p') =>
      h.cons (hp'.trans hp) (hu'.trans hus) hw' hn'
    rw [endFrame, endFrame, hf']
    by_cases hlast : is = []
    · subst hlast
      rw [pathFrom_last, pathFrom_last]
      exact ⟨rfl, hcons CopiedPath.nil, hspace, hbelow⟩
    · have hℓ : is.length ≠ 0 := by simpa using hlast
      have hgo := pathFrom_go hp (hnh hℓ) is
      have hgo' := pathFrom_go (hp'.trans hp) (hh' hℓ) is
      rw [hgo, all_cons, Bool.and_eq_true] at hpres huser
      obtain ⟨hlen, hcopied, hend⟩ := ih _ d' (fun j hj => his j (mem_cons_of_mem _ hj))
        hspace hbelow hpres.2 huser.2
      rw [hgo, hgo', hf']
      exact ⟨congrArg Nat.succ hlen, hcons hcopied, hend⟩

/-- Whether a walk finds every entry present is the same in the source and in the clone. -/
theorem CloneOf.path_present (hext : Extends m₀ m) (is : List ℕ) :
    ∀ s d, (∀ i ∈ is, i < 512) → UserSpace m₀ is.length s → CloneOf m₀ u m is.length s d →
      (pathFrom m is d).all isPresent = (pathFrom m₀ is s).all isPresent := by
  induction is with
  | nil => intro s d _ _ _; rfl
  | cons i is ih =>
    intro s d his hsrc hof
    have hi := his i mem_cons_self
    have his' : ∀ j ∈ is, j < 512 := fun j hj => his j (mem_cons_of_mem _ hj)
    have hentry := hof.2.2 i hi
    simp only [pathFrom, all_cons]
    cases hp : isPresent (m₀.mem s i) with
    | false => rw [hentry.absent hp, Bool.false_and, Bool.false_and]
    | true =>
      cases hus : isUser (m₀.mem s i) with
      | false =>
        rw [hentry.shared hp hus, hp]
        cases hh : isHuge (m₀.mem s i) with
        | true => rfl
        | false => rw [pathFrom_shared hext is _ his' ((hsrc.2 i hi hp).2 hus hh)]
      | true =>
        obtain ⟨hnh, hspace⟩ := (hsrc.2 i hi hp).1 hus
        obtain ⟨d', hd', he', hbelow⟩ := hentry.copied hp hus
        obtain ⟨hp', -, -, -, hh', hf'⟩ := copied_entry hd' he'
        rw [hp', hp, hf']
        by_cases hlast : is = []
        · subst hlast
          simp [pathFrom]
        · have hℓ : is.length ≠ 0 := by simpa using hlast
          rw [hnh hℓ, hh' hℓ]
          simp only [Bool.not_false, Bool.and_self, if_true]
          rw [ih _ d' his' hspace hbelow]

end Walk

/-- A faithful clone: each user page is mapped at the same address, on a different frame with the
same contents and the same rights; what is unmapped stays unmapped; and the source's tables and
pages, which are frames in use, are as they were. -/
structure CloneFaithful (m : Machine) (src : ℕ) (m' : Machine) (dst : ℕ) : Prop where
  page : ∀ virt pg, hwWalk m src virt = some pg → pg.user = true →
    ∃ pg', hwWalk m' dst virt = some pg' ∧ pg'.frame ≠ pg.frame ∧
      m'.mem pg'.frame = m.mem pg.frame ∧
      pg'.write = pg.write ∧ pg'.user = pg.user ∧ pg'.nx = pg.nx
  unmapped : ∀ virt, hwWalk m src virt = none → hwWalk m' dst virt = none
  source : Extends m m'

/-- A user page of the source is found in the clone with the same rights, but executable. -/
theorem CloneOf.page (hsrc : UserSpace m 4 src)
    (hof : CloneOf m m.pmm.used m' 4 src dst) {pg : HwPage}
    (hpg : hwWalk m src virt = some pg) (huser : pg.user = true) :
    ∃ pg', hwWalk m' dst virt = some pg' ∧ pg'.frame ≠ pg.frame ∧
      m'.mem pg'.frame = m.mem pg.frame ∧
      pg'.write = pg.write ∧ pg'.user = pg.user ∧ pg'.nx = false := by
  obtain ⟨hpres, hres, rfl⟩ := hwWalk_eq_some.mp hpg
  obtain ⟨hlen, hpath, hused, hfresh, -, hmem⟩ :=
    CloneOf.path_user (tableIndices virt) src dst (tableIndices_lt virt) hsrc hof hpres huser
  have hlt := idx4_lt virt
  have htop : isPresent (m.mem src (idx4 virt)) = true := (Bool.and_eq_true_iff.mp hpres).1
  have htopu : isUser (m.mem src (idx4 virt)) = true := (Bool.and_eq_true_iff.mp huser).1
  have hres' : topReserved m' dst virt = false := by
    obtain ⟨d, hd, he, -⟩ := (hof.2.2 _ hlt).copied htop htopu
    exact (copied_entry hd he).2.2.2.2.1 (by decide)
  refine ⟨_, hwWalk_eq_some.mpr ⟨hpath.present, hres', rfl⟩, ?_, ?_, hpath.write,
    hpath.user.trans huser.symm, hpath.exec⟩
  · rw [pathFrame_of_length hlen, pathFrame_of_length (hpath.length.trans hlen)]
    intro (heq : endFrame m' _ dst = endFrame m _ src)
    exact absurd hused (ne_true_of_eq_false (heq ▸ hfresh))
  · rw [pathFrame_of_length hlen, pathFrame_of_length (hpath.length.trans hlen)]
    exact hmem

/-- What is unmapped in the source is unmapped in the clone. -/
theorem CloneOf.unmapped (hext : Extends m m')
    (hsrc : UserSpace m 4 src) (hof : CloneOf m m.pmm.used m' 4 src dst)
    (hnone : hwWalk m src virt = none) : hwWalk m' dst virt = none := by
  rw [hwWalk_eq_none] at hnone ⊢
  rintro ⟨hpres, hres⟩
  refine hnone ⟨?_, ?_⟩
  · rw [← hpres]
    exact (CloneOf.path_present hext (tableIndices virt) src dst (tableIndices_lt virt) hsrc
      hof).symm
  · have hentry := hof.2.2 _ (idx4_lt virt)
    have htop' : isPresent (m'.mem dst (idx4 virt)) = true := (Bool.and_eq_true_iff.mp hpres).1
    cases hp : isPresent (m.mem src (idx4 virt)) with
    | false => exact absurd htop' (ne_true_of_eq_false (hentry.absent hp))
    | true =>
      cases hu : isUser (m.mem src (idx4 virt)) with
      | false =>
        rw [topReserved, hentry.shared hp hu] at hres
        exact hres
      | true => exact ((hsrc.2 _ (idx4_lt virt) hp).1 hu).1 (by decide)

/-- **`mmu_clone_root` is faithful exactly when no user page is no-execute.**  Everything but the
no-execute right is always copied. -/
theorem mmuCloneRoot_faithful_iff (m : Machine) (src : ℕ) (hsrc : UserSpace m 4 src)
    (hok : (mmuCloneRoot m src).2 ≠ 0) :
    CloneFaithful m src (mmuCloneRoot m src).1 (mmuCloneRoot m src).2 ↔
      ∀ virt pg, hwWalk m src virt = some pg → pg.user = true → pg.nx = false := by
  have hspec := cloneLevel_cloneSpec m 4
  have hext := hspec.ext m src
  have hof := (hspec.cloneOf m src (.rfl' m) hsrc hok).2
  constructor
  · intro hfaithful virt pg hpg huser
    obtain ⟨pg1, hwalk1, -, -, -, -, hnx1⟩ := hfaithful.page virt pg hpg huser
    obtain ⟨pg2, hwalk2, -, -, -, -, hnx2⟩ := CloneOf.page hsrc hof hpg huser
    have heq : pg1 = pg2 := Option.some.inj (hwalk1.symm.trans hwalk2)
    rw [← hnx1, heq, hnx2]
  · intro hexec
    refine ⟨fun virt pg hpg huser => ?_, fun virt => CloneOf.unmapped hext hsrc hof, hext⟩
    rw [hexec virt pg hpg huser]
    exact CloneOf.page hsrc hof hpg huser

/-- The address space with one writable and executable page: the clone is faithful iff that page
is executable. -/
theorem mmuCloneRoot_faithful_one_page : CloneFaithful (onePage (2 ^ 40) tableFlags tableFlags) 1
        (mmuCloneRoot (onePage (2 ^ 40) tableFlags tableFlags) 1).1
        (mmuCloneRoot (onePage (2 ^ 40) tableFlags tableFlags) 1).2 ↔
      ∀ virt pg, hwWalk (onePage (2 ^ 40) tableFlags tableFlags) 1 virt = some pg →
        pg.user = true → pg.nx = false :=
  mmuCloneRoot_faithful_iff (onePage (2 ^ 40) tableFlags tableFlags) 1 (by decide +kernel)
    (by decide +kernel)

/-- A writable, no-execute page at `2 ^ 40` is executable in the clone. -/
theorem mmuCloneRoot_drops_nx :
    hwWalk (onePage (2 ^ 40) tableFlags (tableFlags ||| x86PteNx)) 1 (2 ^ 40)
        = some ⟨5, true, true, true⟩ ∧
      (mmuCloneRoot (onePage (2 ^ 40) tableFlags (tableFlags ||| x86PteNx)) 1).2 = 8 ∧
      hwWalk (mmuCloneRoot (onePage (2 ^ 40) tableFlags (tableFlags ||| x86PteNx)) 1).1 8 (2 ^ 40)
        = some ⟨12, true, true, false⟩ := by
  decide +kernel

/-! ### A fresh address space -/

/-- With `deep_user = 0` the loop shares the supervisor entries and clears the user entries. -/
theorem cloneEntries_shallow (hne : dst ≠ src) (is : List ℕ) :
    ∃ m', cloneEntries (cloneEntry clone ℓ false src dst) is m = (m', true) ∧ ∀ i,
      m'.mem dst i = if i ∈ is ∧ isPresent (m.mem src i) then
        if isUser (m.mem src i) then 0#64 else m.mem src i else m.mem dst i := by
  induction is generalizing m with
  | nil => exact ⟨m, rfl, by simp⟩
  | cons j is ih =>
    have hround : cloneEntry clone ℓ false src dst m j = (if isPresent (m.mem src j) then
        m.setWord dst j (if isUser (m.mem src j) then 0#64 else m.mem src j) else m, true) := by
      cases hp : isPresent (m.mem src j) <;> cases hu : isUser (m.mem src j) <;>
        simp [cloneEntry, hp, hu]
    rw [cloneEntries, hround]
    obtain ⟨m', hok, hrow⟩ := ih
    refine ⟨m', hok, fun i => ?_⟩
    rw [hrow i]
    by_cases hi : i = j <;> cases hp : isPresent (m.mem src j) <;>
      simp_all [Machine.setWord, hne.symm]

/-- **A fresh address space is the kernel's**, but for what lies below a user entry of the top-level
table: there nothing is mapped.  The kernel's own tables are as they were. -/
theorem mmuNewUserRoot_walk (m : Machine) (hk : TablesUsed m 4 m.kernelRoot)
    (hok : (mmuNewUserRoot m).2 ≠ 0) : Extends m (mmuNewUserRoot m).1 ∧ ∀ virt,
      hwWalk (mmuNewUserRoot m).1 (mmuNewUserRoot m).2 virt =
        if isUser (m.mem m.kernelRoot (idx4 virt)) then none else hwWalk m m.kernelRoot virt := by
  have hext := cloneLevel_extends false 4 m m.kernelRoot
  refine ⟨hext, fun virt => ?_⟩
  unfold mmuNewUserRoot at hok ⊢
  rw [cloneLevel] at hext hok ⊢
  by_cases hz : (pmmAllocFrame m.pmm).2 = 0
  · exact absurd (by rw [cloneTable_null hz]) hok
  have hne : m.kernelRoot ≠ (pmmAllocFrame m.pmm).2 := fun h =>
    absurd hk.1 (by rw [h, (pmmAllocFrame_allocated hz).free]; decide)
  rw [cloneTable_alloc hz] at hext ⊢
  dsimp only at hext ⊢
  obtain ⟨m', hrun, hrow⟩ := cloneEntries_shallow hne.symm tableSlots
  rw [hrun] at hext ⊢
  simp only [if_true] at hext ⊢
  have hentry := hrow (idx4 virt)
  simp only [mem_tableSlots, idx4_lt, Machine.setFrame, hne, if_true, if_false, true_and] at hentry
  have hbelow := fun hp hh => pathFrom_shared hext [idx3 virt, idx2 virt, idx1 virt] _
    (fun i hi => tableIndices_lt virt i (.tail _ hi)) (hk.2 _ (idx4_lt virt) hp hh)
  simp only [hwWalk, walkEntries, tableIndices, pathFrom.eq_2 _ _ (idx4 virt), topReserved, hentry]
  generalize m.mem m.kernelRoot (idx4 virt) = e at hbelow ⊢
  cases hp : isPresent e <;> cases hu : isUser e <;> cases hh : isHuge e <;>
    simp [hp, hu, hh, hbelow, show isPresent 0#64 = false by decide]

/-- A user page of the kernel's tables is not in a fresh address space, a page of the kernel is. -/
theorem mmuNewUserRoot_walk_one_page :
    hwWalk (mmuNewUserRoot (onePage (2 ^ 40) tableFlags tableFlags)).1
        (mmuNewUserRoot (onePage (2 ^ 40) tableFlags tableFlags)).2 (2 ^ 40) = none ∧
      hwWalk (mmuNewUserRoot (onePage (2 ^ 40) x86PtePresent tableFlags)).1
        (mmuNewUserRoot (onePage (2 ^ 40) x86PtePresent tableFlags)).2 (2 ^ 40) =
        some ⟨5, false, false, false⟩ :=
  ⟨((mmuNewUserRoot_walk _ (by decide +kernel) (by decide +kernel)).2 _).trans
      (if_pos (by decide +kernel)),
    ((mmuNewUserRoot_walk _ (by decide +kernel) (by decide +kernel)).2 _).trans
      ((if_neg (by decide +kernel)).trans (by decide +kernel))⟩

end AxiomeOS.Paging
