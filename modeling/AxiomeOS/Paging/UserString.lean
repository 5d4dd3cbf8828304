import AxiomeOS.Paging.UserRange

/-!
# Copying a string from user space

`copy_user_str` (`kernel/syscall.c`) copies a string into a kernel buffer, one page at a time: it
checks the part of the page up to the limit with `user_range_ok`, and then copies bytes until it
meets the end of the string.

* `copyUserStr_spec` — the bytes read are the first ones of the string, up to its end, the limit,
  or the first byte that the check does not accept; and only in the last case does the call fail;
* `copyUserStr_exact_iff` — the call reads user-readable bytes only, and fails exactly if it needs
  one that is not, **exactly** when the two gaps of the check do not matter: it looks at the last
  entry of each walk only, and it refuses a range that ends at the top of the address space.
-/

namespace AxiomeOS.Paging

open Bits Function List

/-! ### The call -/

/-- The local state of the call: the kernel buffer, the number of bytes copied, and, for the
statements, the user addresses read so far. -/
structure Copy where
  dst : ℕ → UInt8
  copied : ℕ
  touched : List ℕ

/-- Store one more byte, read at `va`. -/
def Copy.push (s : Copy) (va : ℕ) (c : UInt8) : Copy where
  dst := update s.dst s.copied c
  copied := s.copied + 1
  touched := s.touched ++ [va]

/-- The `for` loop over one chunk, `n` bytes from `va + i` on.  `user` are the bytes at the virtual
addresses.  Answers whether a zero byte was copied. -/
def copyChunk (user : ℕ → UInt8) (va : ℕ) : ℕ → ℕ → Copy → Bool × Copy
  | 0, _, s => (false, s)
  | n + 1, i, s =>
    let c := user ((va + i) % 2 ^ 64)
    let s := s.push ((va + i) % 2 ^ 64) c
    if c = 0 then (true, s) else copyChunk user va n (i + 1) s

section Call

variable (m : Machine) (mmu : Option ℕ) (user : ℕ → UInt8) (uptr max : ℕ)

/-- The `while` loop; each round copies at least one byte, so `max` rounds are enough.  Answers
`false` for `-EFAULT`. -/
def copyRounds : ℕ → Copy → Bool × Copy
  | 0, s => (true, s)
  | fuel + 1, s =>
    if s.copied < max - 1 then
      let va := (uptr + s.copied) % 2 ^ 64
      let pageLeft := 4096 - va % 4096
      let remain := max - 1 - s.copied
      let chunk := if remain < pageLeft then remain else pageLeft
      if !userRangeOk m mmu va chunk false then (false, s)
      else
        match copyChunk user va chunk 0 s with
        | (true, s) => (true, s)
        | (false, s) => copyRounds fuel s
    else (true, s)

/-- `copy_user_str`: the number of bytes copied, or `none` for `-EFAULT`. -/
def copyUserStr (dst : ℕ → UInt8) : Option ℕ × Copy :=
  let s : Copy := ⟨dst, 0, []⟩
  if uptr = 0 then (none, s)
  else if max = 0 then (some 0, s)
  else
    match copyRounds m mmu user uptr max max s with
    | (false, s) => (none, s)
    | (true, s) => (some s.copied, { s with dst := update s.dst s.copied 0 })

end Call

/-! ### The string -/

/-- Byte `k` of the string. -/
def strByte (user : ℕ → UInt8) (uptr k : ℕ) : UInt8 := user ((uptr + k) % 2 ^ 64)

/-- How many bytes the string has in the first `n`, its end included; `n` if it does not end
there. -/
def strSpan (user : ℕ → UInt8) (uptr n : ℕ) : ℕ :=
  ((List.range n).find? fun k => strByte user uptr k = 0).elim n (· + 1)

section Span

variable {user : ℕ → UInt8} {uptr n : ℕ}

/-- The string ends at its first zero byte, or not in the first `n`. -/
theorem strSpan_cases (user : ℕ → UInt8) (uptr n : ℕ) :
    (∃ j, j < n ∧ strByte user uptr j = 0 ∧ (∀ k, k < j → strByte user uptr k ≠ 0) ∧
      strSpan user uptr n = j + 1) ∨
    ((∀ k, k < n → strByte user uptr k ≠ 0) ∧ strSpan user uptr n = n) := by
  cases hfind : (range n).find? (fun k => strByte user uptr k = 0) with
  | some j =>
    left
    rw [find?_range_eq_some] at hfind
    obtain ⟨hzero, hmem, hbefore⟩ := hfind
    refine ⟨j, mem_range.mp hmem, of_decide_eq_true hzero, ?_, ?_⟩
    · intro k hk hzero'
      have := hbefore k hk
      rw [hzero'] at this
      cases this
    · rw [strSpan, find?_range_eq_some.mpr ⟨hzero, hmem, hbefore⟩]
      rfl
  | none =>
    right
    refine ⟨?_, by rw [strSpan, hfind]; rfl⟩
    intro k hk hzero
    have := find?_eq_none.mp hfind k (mem_range.mpr hk)
    exact this (decide_eq_true hzero)

theorem strSpan_of_zero {j : ℕ} (hj : j < n) (hzero : strByte user uptr j = 0)
    (hbefore : ∀ k, k < j → strByte user uptr k ≠ 0) : strSpan user uptr n = j + 1 := by
  obtain ⟨i, -, hi, hfirst, hspan⟩ | ⟨hnone, -⟩ := strSpan_cases user uptr n
  · obtain hlt | heq | hgt := Nat.lt_trichotomy i j
    · exact absurd hi (hbefore i hlt)
    · rw [hspan, heq]
    · exact absurd hzero (hfirst j hgt)
  · exact absurd hzero (hnone j hj)

theorem strSpan_of_none (hbefore : ∀ k, k < n → strByte user uptr k ≠ 0) :
    strSpan user uptr n = n := by
  obtain ⟨i, hin, hi, -, -⟩ | ⟨-, hspan⟩ := strSpan_cases user uptr n
  · exact absurd hi (hbefore i hin)
  · exact hspan

theorem lt_strSpan {c : ℕ} (hc : c < n) (hbefore : ∀ k, k < c → strByte user uptr k ≠ 0) :
    c < strSpan user uptr n := by
  obtain ⟨i, -, hi, -, hspan⟩ | ⟨-, hspan⟩ := strSpan_cases user uptr n
  · have hci : c ≤ i := Nat.le_of_not_lt fun h => hbefore i h hi
    omega
  · omega

theorem strSpan_le (user : ℕ → UInt8) (uptr n : ℕ) : strSpan user uptr n ≤ n := by
  obtain ⟨i, hin, -, -, hspan⟩ | ⟨-, hspan⟩ := strSpan_cases user uptr n
  · omega
  · omega

end Span

/-! ### The loops -/

/-- The state after `c` bytes: they stand in the buffer, and no other byte was read or written. -/
structure Copied (user : ℕ → UInt8) (uptr : ℕ) (dst : ℕ → UInt8) (c : ℕ) (s : Copy) : Prop where
  copied : s.copied = c
  inside : ∀ j, j < c → s.dst j = strByte user uptr j
  outside : ∀ j, c ≤ j → s.dst j = dst j
  touched : s.touched = (List.range c).map fun k => (uptr + k) % 2 ^ 64

section Loops

variable {m : Machine} {mmu : Option ℕ} {user : ℕ → UInt8} {uptr max : ℕ} {dst : ℕ → UInt8}

/-- Copying one more byte. -/
theorem Copied.next {c : ℕ} {s : Copy} (h : Copied user uptr dst c s) :
    Copied user uptr dst (c + 1) (s.push ((uptr + c) % 2 ^ 64) (strByte user uptr c)) where
  copied := congrArg (· + 1) h.copied
  inside := by
    intro j hj
    show update s.dst s.copied (strByte user uptr c) j = _
    by_cases hjc : j = c
    · rw [hjc, h.copied, update_self]
    · rw [h.copied, update_of_ne hjc]
      exact h.inside j (by omega)
  outside := by
    intro j hj
    show update s.dst s.copied (strByte user uptr c) j = _
    rw [h.copied, update_of_ne (by omega)]
    exact h.outside j (by omega)
  touched := by
    show s.touched ++ _ = _
    rw [h.touched, range_succ, map_append]
    rfl

/-- **One chunk**: all its bytes are copied, or those up to the first zero byte. -/
theorem copyChunk_spec {n i c va : ℕ} {s : Copy} (h : Copied user uptr dst c s)
    (hva : (va + i) % 2 ^ 64 = (uptr + c) % 2 ^ 64)
    (hnonzero : ∀ k, k < c → strByte user uptr k ≠ 0) :
    (∃ s', copyChunk user va n i s = (false, s') ∧ Copied user uptr dst (c + n) s' ∧
      ∀ k, k < c + n → strByte user uptr k ≠ 0) ∨
    (∃ s' j, copyChunk user va n i s = (true, s') ∧ Copied user uptr dst (j + 1) s' ∧
      j < c + n ∧ strByte user uptr j = 0 ∧ ∀ k, k < j → strByte user uptr k ≠ 0) := by
  induction n generalizing i c s with
  | zero => exact .inl ⟨s, rfl, h, hnonzero⟩
  | succ n ih =>
    have hbyte : user ((va + i) % 2 ^ 64) = strByte user uptr c := by rw [hva, strByte]
    rw [copyChunk, hbyte, hva]
    by_cases hzero : strByte user uptr c = 0
    · rw [if_pos hzero]
      exact .inr ⟨_, c, rfl, h.next, by omega, hzero, hnonzero⟩
    · rw [if_neg hzero, show c + (n + 1) = c + 1 + n by omega]
      refine ih h.next (by omega) fun k hk => ?_
      obtain hk | rfl := Nat.lt_succ_iff_lt_or_eq.mp hk
      · exact hnonzero k hk
      · exact hzero

/-- The chunk of byte `k` ends at the top of the address space, for a limit of `n` bytes. -/
def AtTop (uptr n k : ℕ) : Prop := 2 ^ 64 - 4096 ≤ uptr + k ∧ 2 ^ 64 ≤ uptr + n

/-- The check accepts the chunk of byte `k`. -/
def Accepted (m : Machine) (mmu : Option ℕ) (uptr n k : ℕ) : Prop :=
  ¬AtTop uptr n k ∧
    allows false (leafEntry m (currentRoot m mmu) ((uptr + k) % 2 ^ 64)) = true

/-- The length of the chunk at byte `c`. -/
def chunkLen (uptr n c : ℕ) : ℕ := min (n - c) (4096 - (uptr + c) % 4096)

theorem accepted_congr {n c k : ℕ} (hc : c < n) (htop : uptr + c < 2 ^ 64) (hck : c ≤ k)
    (hk : k < c + chunkLen uptr n c) : Accepted m mmu uptr n k ↔ Accepted m mmu uptr n c := by
  rw [chunkLen] at hk
  have hpage : (uptr + k) % 2 ^ 64 / 4096 = (uptr + c) % 2 ^ 64 / 4096 := by omega
  have hat : AtTop uptr n k ↔ AtTop uptr n c := by
    rw [AtTop, AtTop]
    omega
  rw [Accepted, Accepted, leafEntry_congr hpage, hat]

/-- **The check of a chunk** is that of its first byte. -/
theorem userRangeOk_chunk {n c : ℕ} (hbase : userspaceBase ≤ uptr) (hc : c < n)
    (htop : uptr + c < 2 ^ 64) :
    userRangeOk m mmu ((uptr + c) % 2 ^ 64) (chunkLen uptr n c) false = true ↔
      Accepted m mmu uptr n c := by
  have hmod : (uptr + c) % 2 ^ 64 = uptr + c := Nat.mod_eq_of_lt htop
  have hlen : chunkLen uptr n c = min (n - c) (4096 - (uptr + c) % 4096) := rfl
  have hpos : 0 < chunkLen uptr n c := by omega
  rw [userRangeOk_iff m mmu _ _ _ hpos, hmod]
  refine ⟨?_, ?_⟩
  · rintro ⟨-, hwrap, hleaf⟩
    refine ⟨?_, ?_⟩
    · rw [AtTop]
      omega
    · rw [hmod]
      exact hleaf 0 hpos
  · rintro ⟨hat, hleaf⟩
    rw [AtTop] at hat
    refine ⟨by omega, by omega, ?_⟩
    intro k hk
    rw [hmod] at hleaf
    rw [leafEntry_congr (show (uptr + c + k) / 4096 = (uptr + c) / 4096 by omega)]
    exact hleaf

/-- **The loop** copies the string up to its end, the limit, or the first byte that is not accepted,
and answers whether it was one of the first two. -/
theorem copyRounds_spec (hbase : userspaceBase ≤ uptr) {fuel c : ℕ} {s : Copy}
    (h : Copied user uptr dst c s) (hc : c ≤ max - 1) (htop : uptr + c < 2 ^ 64)
    (hnonzero : ∀ k, k < c → strByte user uptr k ≠ 0)
    (hacc : ∀ k, k < c → Accepted m mmu uptr (max - 1) k) (hfuel : max - 1 - c ≤ fuel) :
    ∃ K s', Copied user uptr dst K s' ∧ (∀ k, k < K → Accepted m mmu uptr (max - 1) k) ∧
      ((copyRounds m mmu user uptr max fuel s = (true, s') ∧ K = strSpan user uptr (max - 1)) ∨
        (copyRounds m mmu user uptr max fuel s = (false, s') ∧ K < strSpan user uptr (max - 1) ∧
          ¬Accepted m mmu uptr (max - 1) K)) := by
  induction fuel generalizing c s with
  | zero =>
    obtain rfl : c = max - 1 := by omega
    exact ⟨_, s, h, hacc, .inl ⟨rfl, (strSpan_of_none hnonzero).symm⟩⟩
  | succ fuel ih =>
    by_cases hlt : c < max - 1
    · have hchunk : (if max - 1 - c < 4096 - (uptr + c) % 2 ^ 64 % 4096 then max - 1 - c
          else 4096 - (uptr + c) % 2 ^ 64 % 4096) = chunkLen uptr (max - 1) c := by
        rw [chunkLen]
        split <;> omega
      rw [copyRounds, h.copied, if_pos hlt]
      dsimp only
      rw [hchunk]
      by_cases hok : Accepted m mmu uptr (max - 1) c
      · have hlen : chunkLen uptr (max - 1) c = min (max - 1 - c) (4096 - (uptr + c) % 4096) := rfl
        have hall : ∀ k, k < c + chunkLen uptr (max - 1) c → Accepted m mmu uptr (max - 1) k := by
          intro k hk
          by_cases hkc : k < c
          · exact hacc k hkc
          · exact (accepted_congr hlt htop (Nat.le_of_not_lt hkc) hk).mpr hok
        have hwrap : uptr + (c + chunkLen uptr (max - 1) c) < 2 ^ 64 := by
          have hat := hok.1
          rw [AtTop] at hat
          omega
        rw [(userRangeOk_chunk hbase hlt htop).mpr hok]
        obtain ⟨s', hrun, hcopied, hnone⟩ | ⟨s', j, hrun, hcopied, hj, hz, hbefore⟩ :=
          copyChunk_spec (n := chunkLen uptr (max - 1) c) h
            (show ((uptr + c) % 2 ^ 64 + 0) % 2 ^ 64 = _ by omega) hnonzero
        · rw [hrun]
          exact ih hcopied (by omega) hwrap hnone hall (by omega)
        · rw [hrun]
          exact ⟨j + 1, s', hcopied, fun k hk => hall k (by omega), .inl ⟨rfl,
            (strSpan_of_zero (by omega) hz hbefore).symm⟩⟩
      · have hno : userRangeOk m mmu ((uptr + c) % 2 ^ 64) (chunkLen uptr (max - 1) c) false
            = false := by
          rw [← Bool.not_eq_true, userRangeOk_chunk hbase hlt htop]
          exact hok
        rw [hno]
        exact ⟨c, s, h, hacc, .inr ⟨rfl, lt_strSpan hlt hnonzero, hok⟩⟩
    · obtain rfl : c = max - 1 := by omega
      refine ⟨_, s, h, hacc, .inl ⟨?_, (strSpan_of_none hnonzero).symm⟩⟩
      rw [copyRounds, h.copied, if_neg hlt]

/-- **The call.**  It reads the string up to its end, the limit, or the first byte that is not
accepted, and fails in the last case only. -/
theorem copyUserStr_spec (m : Machine) (mmu : Option ℕ) (user : ℕ → UInt8) (dst : ℕ → UInt8)
    (hbase : userspaceBase ≤ uptr) (huptr : uptr < 2 ^ 64) (hmax : 0 < max) :
    ∃ K s', Copied user uptr dst K s' ∧ (∀ k, k < K → Accepted m mmu uptr (max - 1) k) ∧
      ((copyUserStr m mmu user uptr max dst = (some K, { s' with dst := update s'.dst K 0 }) ∧
          K = strSpan user uptr (max - 1)) ∨
        (copyUserStr m mmu user uptr max dst = (none, s') ∧ K < strSpan user uptr (max - 1) ∧
          ¬Accepted m mmu uptr (max - 1) K)) := by
  have hstart : Copied user uptr dst 0 ⟨dst, 0, []⟩ :=
    ⟨rfl, fun j hj => absurd hj (Nat.not_lt_zero j), fun j _ => rfl, rfl⟩
  have hne : uptr ≠ 0 := by
    rintro rfl
    cases hbase
  obtain ⟨K, s', hcopied, hacc, hcases⟩ := @copyRounds_spec m mmu user uptr max dst hbase max 0 _
    hstart (Nat.zero_le (max - 1)) huptr (by simp) (by simp) (by omega)
  refine ⟨K, s', hcopied, hacc, ?_⟩
  rw [copyUserStr, if_neg hne, if_neg (by omega)]
  obtain ⟨hrun, hK⟩ | ⟨hrun, hK, hno⟩ := hcases
  · left
    rw [hrun]
    dsimp only
    rw [hcopied.copied]
    exact ⟨rfl, hK⟩
  · right
    rw [hrun]
    exact ⟨rfl, hK, hno⟩

end Loops

/-! ### Against the processor -/

/-- The upper 17 bits of the address are equal. -/
def canonical (a : ℕ) : Bool := decide (a < 2 ^ 47) || decide (2 ^ 64 - 2 ^ 47 ≤ a)

/-- User code may read the byte at `a`. -/
def userReadable (m : Machine) (root a : ℕ) : Bool :=
  canonical a && (hwWalk m root a).any HwPage.user

/-- What the check leaves out about the byte at `a`: that the address is canonical, and that the
entries above the last one allow the access. -/
def UpperReadable (m : Machine) (root a : ℕ) : Prop :=
  canonical a = true ∧ topReserved m root a = false ∧
    (upperEntries m root a).all (allows false) = true

theorem userReadable_iff (m : Machine) (root a : ℕ) : userReadable m root a = true ↔
      UpperReadable m root a ∧ allows false (leafEntry m root a) = true := by
  have hwalk : (hwWalk m root a).any HwPage.user = true ↔
      topReserved m root a = false ∧ (walkEntries m root a).all (allows false) = true := by
    have hall : (walkEntries m root a).all (allows false) = true ↔
        (walkEntries m root a).all isPresent = true ∧ (walkEntries m root a).all isUser = true := by
      simp only [all_eq_true, allows, Bool.not_false, Bool.true_or, Bool.and_true, Bool.and_eq_true]
      exact ⟨fun h => ⟨fun x hx => (h x hx).1, fun x hx => (h x hx).2⟩,
        fun h x hx => ⟨h.1 x hx, h.2 x hx⟩⟩
    rw [hall, Option.any_eq_true]
    refine ⟨?_, ?_⟩
    · rintro ⟨pg, hpg, huser⟩
      obtain ⟨hpresent, hres, rfl⟩ := hwWalk_eq_some.mp hpg
      exact ⟨hres, hpresent, huser⟩
    · rintro ⟨hres, hpresent, huser⟩
      exact ⟨_, hwWalk_eq_some.mpr ⟨hpresent, hres, rfl⟩, huser⟩
  rw [userReadable, Bool.and_eq_true, hwalk, UpperReadable, ← upperEntries_append_leaf]
  simp [and_assoc]

/-- What the call should do: read user-readable bytes only, write into the buffer only, fail exactly
if a byte it needs is not user-readable, and otherwise deliver the bytes with a terminator. -/
structure CopiesExactly (m : Machine) (mmu : Option ℕ) (user : ℕ → UInt8) (uptr max : ℕ)
    (dst : ℕ → UInt8) : Prop where
  reads : ∀ a ∈ (copyUserStr m mmu user uptr max dst).2.touched,
    userReadable m (currentRoot m mmu) a = true
  writes : ∀ j, max ≤ j → (copyUserStr m mmu user uptr max dst).2.dst j = dst j
  fails : (copyUserStr m mmu user uptr max dst).1 = none ↔
    ∃ k, k < strSpan user uptr (max - 1) ∧
      userReadable m (currentRoot m mmu) ((uptr + k) % 2 ^ 64) = false
  copies : (copyUserStr m mmu user uptr max dst).1 ≠ none →
    (∀ k, k < strSpan user uptr (max - 1) →
      (copyUserStr m mmu user uptr max dst).2.dst k = strByte user uptr k) ∧
    (copyUserStr m mmu user uptr max dst).2.dst (strSpan user uptr (max - 1)) = 0

/-- **The strings that are copied exactly.**  For every machine, string, pointer into the user
window and limit, the call does what it should exactly when every byte it comes to is one whose
upper entries allow the access too, and a string that reaches the last page of the address space,
within a limit beyond it, has a byte that is not readable. -/
theorem copyUserStr_exact_iff (m : Machine) (mmu : Option ℕ) (user : ℕ → UInt8) (uptr max : ℕ)
    (dst : ℕ → UInt8) (hbase : userspaceBase ≤ uptr) (huptr : uptr < 2 ^ 64) (hmax : 0 < max) :
    CopiesExactly m mmu user uptr max dst ↔
      (∀ k, k < strSpan user uptr (max - 1) → (∀ j, j ≤ k → Accepted m mmu uptr (max - 1) j) →
        UpperReadable m (currentRoot m mmu) ((uptr + k) % 2 ^ 64)) ∧
      ((∃ k, k < strSpan user uptr (max - 1) ∧ AtTop uptr (max - 1) k) →
        ∃ k, k < strSpan user uptr (max - 1) ∧
          userReadable m (currentRoot m mmu) ((uptr + k) % 2 ^ 64) = false) := by
  have hspan := strSpan_le user uptr (max - 1)
  have hreadable : ∀ k, Accepted m mmu uptr (max - 1) k →
      UpperReadable m (currentRoot m mmu) ((uptr + k) % 2 ^ 64) →
      userReadable m (currentRoot m mmu) ((uptr + k) % 2 ^ 64) = true :=
    fun k hk hupper => (userReadable_iff _ _ _).mpr ⟨hupper, hk.2⟩
  obtain ⟨K, s', hcopied, hacc, hcases⟩ := copyUserStr_spec m mmu user dst hbase huptr hmax
  -- in both cases the first `K` bytes were read
  have hreads : (∀ a ∈ (copyUserStr m mmu user uptr max dst).2.touched,
      userReadable m (currentRoot m mmu) a = true) ↔
        ∀ k, k < K → userReadable m (currentRoot m mmu) ((uptr + k) % 2 ^ 64) = true := by
    have htouched : (copyUserStr m mmu user uptr max dst).2.touched = s'.touched := by
      rcases hcases with ⟨hcall, -⟩ | ⟨hcall, -⟩ <;> rw [hcall]
    rw [htouched, hcopied.touched]
    simp only [mem_map, mem_range, forall_exists_index, and_imp, forall_apply_eq_imp_iff₂]
  have hread : ∀ k, k < strSpan user uptr (max - 1) →
      (∀ j, j ≤ k → Accepted m mmu uptr (max - 1) j) → k < K := by
    intro k hk hall
    rcases hcases with ⟨-, rfl⟩ | ⟨-, -, hno⟩
    · exact hk
    · exact Nat.lt_of_not_le fun hKk => hno (hall K hKk)
  constructor
  · intro h
    refine ⟨fun k hk hall => ?_, ?_⟩
    · exact ((userReadable_iff _ _ _).mp (hreads.mp h.reads k (hread k hk hall))).1
    · rintro ⟨k, hk, hat⟩
      rcases hcases with ⟨-, rfl⟩ | ⟨hcall, -⟩
      · exact absurd hat (hacc k hk).1
      · exact h.fails.mp (by rw [hcall])
  · rintro ⟨hupper, htop⟩
    have hle : K ≤ strSpan user uptr (max - 1) := by omega
    have hall : ∀ k, k < K → userReadable m (currentRoot m mmu) ((uptr + k) % 2 ^ 64) = true :=
      fun k hk => hreadable k (hacc k hk) (hupper k (by omega) fun j hj => hacc j (by omega))
    rcases hcases with ⟨hcall, rfl⟩ | ⟨hcall, hK, hno⟩
    · -- the call succeeds, and has read the whole string
      refine ⟨hreads.mpr hall, ?_, ?_, ?_⟩ <;> rw [hcall]
      · intro j hj
        exact (update_of_ne (by omega) ..).trans (hcopied.outside j (by omega))
      · refine ⟨(nofun), ?_⟩
        rintro ⟨k, hk, hfalse⟩
        rw [hall k hk] at hfalse
        cases hfalse
      · refine fun _ => ⟨fun k hk => ?_, update_self ..⟩
        exact (update_of_ne (by omega) ..).trans (hcopied.inside k hk)
    · -- the call fails at byte `K`
      refine ⟨hreads.mpr hall, ?_, ?_, ?_⟩ <;> rw [hcall]
      · exact fun j hj => hcopied.outside j (by omega)
      · refine ⟨fun _ => ?_, fun _ => rfl⟩
        by_cases hat : AtTop uptr (max - 1) K
        · exact htop ⟨K, hK, hat⟩
        · refine ⟨K, hK, ?_⟩
          rw [← Bool.not_eq_true, userReadable_iff]
          exact fun h => hno ⟨hat, h.2⟩
      · exact fun h => absurd rfl h

/-- Two pages of an ordinary user mapping. -/
def twoPages : Machine :=
  { onePage (2 ^ 40) tableFlags tableFlags with
    mem := fun f i =>
      if f = 4 ∧ i = 1 then pteEntry 6 tableFlags
      else (onePage (2 ^ 40) tableFlags tableFlags).mem f i }

/-- `ab` at the end of the first page, with its terminator on the second. -/
def acrossPages (a : ℕ) : UInt8 :=
  if a = 2 ^ 40 + 4094 then 97 else if a = 2 ^ 40 + 4095 then 98 else 0

theorem copyUserStr_exact_two_pages :
    CopiesExactly twoPages (some 1) acrossPages (2 ^ 40 + 4094) 8 (fun _ => 1) := by
  apply (copyUserStr_exact_iff twoPages (some 1) acrossPages (2 ^ 40 + 4094) 8 (fun _ => 1)
    (by decide) (by decide) (by decide)).mpr
  have hspan : strSpan acrossPages (2 ^ 40 + 4094) (8 - 1) = 3 := by decide
  have hupper : ∀ k, k < 3 → canonical ((2 ^ 40 + 4094 + k) % 2 ^ 64) = true ∧
      topReserved twoPages 1 ((2 ^ 40 + 4094 + k) % 2 ^ 64) = false ∧
      (upperEntries twoPages 1 ((2 ^ 40 + 4094 + k) % 2 ^ 64)).all (allows false) = true := by
    decide
  rw [hspan]
  refine ⟨fun k hk _ => hupper k hk, ?_⟩
  rintro ⟨k, hk, hat⟩
  rw [AtTop] at hat
  omega

/-- **A non-canonical pointer** is accepted: the call reads through it, where the processor faults,
and returns 1 for the empty string on the page that the lower 48 bits name. -/
theorem copyUserStr_reads_noncanonical :
    (copyUserStr (onePage (2 ^ 40) tableFlags tableFlags) (some 1) (fun _ => 0) (2 ^ 48 + 2 ^ 40) 2
        (fun _ => 1)).1 = some 1 ∧
      (copyUserStr (onePage (2 ^ 40) tableFlags tableFlags) (some 1) (fun _ => 0) (2 ^ 48 + 2 ^ 40)
        2 (fun _ => 1)).2.touched = [2 ^ 48 + 2 ^ 40] ∧
      userReadable (onePage (2 ^ 40) tableFlags tableFlags) 1 (2 ^ 48 + 2 ^ 40) = false := by
  decide

end AxiomeOS.Paging
