import AxiomeOS.Vfs.Append

/-!
# Writing anywhere in a file of the ramfs

`lseek` and `pwrite` take every offset that is not negative.

* `ramfsWrite_ends_iff` — `ramfs_ensure_cap` doubles a 64-bit capacity until it reaches the end of
  the write.  The capacities are powers of two, and the one after `2^63` is zero: a write that ends
  behind `2^63` is never done.
* `read_written_iff` — the buffer is not cleared.  What is read is what was written exactly if no
  write begins behind the end of the file; else the bytes before it are those that the heap held.
-/

namespace AxiomeOS.Ramfile

open AxiomeOS.Append (Buffered)
open Descriptor Runs List
open Security (Attr)
open Vfs (growCap)

/-! ### The capacity -/

/-- `while (ncap < need) ncap *= 2;`, unless it takes more than `fuel` rounds. -/
def doubleCap (need : ℕ) : ℕ → ℕ → Option ℕ
  | 0, _ => none
  | fuel + 1, ncap => if ncap < need then doubleCap need fuel (ncap * 2 % 2 ^ 64) else some ncap

/-- The loop of `ramfs_write`, at addresses that wrap round. -/
def stored (n : RamNode) (off : ℕ) (bytes : List UInt8) : RamNode × ℕ :=
  ({ n with
    data := n.data.map fun d i =>
      if off ≤ i ∧ i < off + bytes.length then bytes.getD (i - off) 0
      else if i + 2 ^ 64 < off + bytes.length then bytes.getD (i + 2 ^ 64 - off) 0
      else d i
    size := max n.size ((off + bytes.length) % 2 ^ 64) }, bytes.length)

/-- `ramfs_write` in 64-bit arithmetic, unless `ramfs_ensure_cap` takes more than `fuel` rounds. -/
def ramfsWrite64 (fuel : ℕ) (n : RamNode) (off : ℕ) (bytes : List UInt8)
    (mem : Option (ℕ → UInt8)) : Option (RamNode × ℕ) :=
  let need := (off + bytes.length) % 2 ^ 64
  if need ≤ n.cap then some (stored n off bytes)
  else
    (doubleCap need fuel (if n.cap = 0 then 64 else n.cap)).map fun ncap =>
      match mem with
      | none => (n, 0)
      | some nd =>
        stored
          { n with data := some fun i => if i < n.size then n.byte i else nd i, cap := ncap }
          off bytes

/-- What happens to a file: a write that comes to its end, or `O_TRUNC`. -/
inductive Event
  | write (off : ℕ) (bytes : List UInt8) (mem : Option (ℕ → UInt8))
  | truncate

def step (n : RamNode) : Event → RamNode → Prop
  | .write off bytes mem, n' => ∃ fuel r, ramfsWrite64 fuel n off bytes mem = some (n', r)
  | .truncate, n' => n' = { n with data := none, size := 0, cap := 0 }

/-- A file as `ramfs_create` makes it. -/
def created (attr : Attr) : RamNode := ⟨attr, none, 0, 0⟩

/-- The capacities that doubling leads to. -/
def IsCap (cap : ℕ) : Prop := cap = 0 ∨ ∃ k ≤ 63, cap = 2 ^ k

variable {cap fuel k need off : ℕ} {n : RamNode} {bytes : List UInt8} {attr : Attr}
  {es : List Event}

theorem IsCap.le (h : IsCap cap) : cap ≤ 2 ^ 63 := by
  obtain rfl | ⟨k, hk, rfl⟩ := h
  · exact Nat.zero_le _
  · exact Nat.pow_le_pow_right (by decide) hk

/-- Where the loop begins. -/
theorem IsCap.first (h : IsCap cap) : ∃ k ≤ 63, (if cap = 0 then 64 else cap) = 2 ^ k := by
  split
  · exact ⟨6, by decide, rfl⟩
  · exact h.resolve_left ‹_›

/-- From zero on the loop does not end. -/
theorem doubleCap_zero (hneed : 0 < need) (fuel : ℕ) : doubleCap need fuel 0 = none := by
  induction fuel with
  | zero => rfl
  | succ fuel ih =>
    rw [doubleCap, if_pos hneed]
    exact ih

theorem doubleCap_some {c : ℕ} (fuel : ℕ) (hk : k ≤ 63)
    (h : doubleCap need fuel (2 ^ k) = some c) : IsCap c ∧ need ≤ c := by
  induction fuel generalizing k with
  | zero => cases h
  | succ fuel ih =>
    rw [doubleCap] at h
    split at h
    case isFalse hle =>
      cases h
      exact ⟨.inr ⟨k, hk, rfl⟩, Nat.le_of_not_lt hle⟩
    case isTrue hlt =>
      obtain rfl | hk : k = 63 ∨ k < 63 := by omega
      · rw [show 2 ^ 63 * 2 % 2 ^ 64 = 0 by decide, doubleCap_zero (by omega)] at h
        cases h
      · rw [← Nat.pow_succ, Nat.mod_eq_of_lt (Nat.pow_lt_pow_right (by decide) (by omega))] at h
        exact ih hk h

/-- Up to `2^63` it ends, with the capacity that unbounded numbers would give. -/
theorem doubleCap_ends (hneed : need ≤ 2 ^ 63) (d : ℕ) (hk : k + d = 63)
    (hfuel : need ≤ 2 ^ k + fuel) :
    doubleCap need (d + 1) (2 ^ k) = some (growCap need fuel (2 ^ k)) := by
  induction d generalizing k fuel with
  | zero =>
    obtain rfl : k = 63 := hk
    rw [doubleCap, if_neg (by omega)]
    cases fuel with
    | zero => rfl
    | succ fuel => rw [growCap, if_neg (by omega)]
  | succ d ih =>
    rw [doubleCap]
    cases fuel with
    | zero => rw [if_neg (by omega), growCap]
    | succ fuel =>
      rw [growCap]
      split
      · have hpos := Nat.two_pow_pos k
        rw [← Nat.pow_succ, Nat.mod_eq_of_lt (Nat.pow_lt_pow_right (by decide) (by omega))]
        exact ih (by omega) (by rw [Nat.pow_succ]; omega)
      · rfl

/-- What a write leaves when it comes to its end. -/
theorem ramfsWrite64_some {r : ℕ} {n' : RamNode} {mem : Option (ℕ → UInt8)} (hn : IsCap n.cap)
    (h : ramfsWrite64 fuel n off bytes mem = some (n', r)) :
    IsCap n'.cap ∧ (mem = none → n'.cap = n.cap) ∧
      (r = bytes.length ∧ (off + bytes.length) % 2 ^ 64 ≤ n'.cap ∨
        r = 0 ∧ mem = none ∧ n.cap < (off + bytes.length) % 2 ^ 64) := by
  rw [ramfsWrite64] at h
  split at h
  case isTrue hroom =>
    cases h
    exact ⟨hn, fun _ => rfl, .inl ⟨rfl, hroom⟩⟩
  case isFalse hless =>
    obtain ⟨c, hc, h⟩ := Option.map_eq_some_iff.mp h
    obtain ⟨k, hk, hfirst⟩ := hn.first
    obtain ⟨hcap, hroom⟩ := doubleCap_some fuel hk (hfirst ▸ hc)
    cases mem with
    | none =>
      cases h
      exact ⟨hn, fun _ => rfl, .inr ⟨rfl, rfl, Nat.lt_of_not_le hless⟩⟩
    | some nd =>
      cases h
      exact ⟨hcap, nofun, .inl ⟨rfl, hroom⟩⟩

theorem isCap_of_run (h : Run step (created attr) es n) : IsCap n.cap := by
  refine h.invariant (fun n => IsCap n.cap) ?_ (.inl rfl)
  intro n e n' hn hstep
  cases e with
  | truncate =>
    obtain rfl := hstep
    exact .inl rfl
  | write off bytes mem =>
    obtain ⟨fuel, r, hw⟩ := hstep
    exact (ramfsWrite64_some hn hw).1

/-- A write that ends at `2^63` or before is done as with unbounded numbers. -/
theorem ramfsWrite64_eq (hn : IsCap n.cap)
    (h : off + bytes.length ≤ 2 ^ 63) (mem : Option (ℕ → UInt8)) :
    ∃ fuel, ramfsWrite64 fuel n off bytes mem = some (ramfsWrite n off bytes mem) := by
  have hneed : (off + bytes.length) % 2 ^ 64 = off + bytes.length := Nat.mod_eq_of_lt (by omega)
  have hstored : ∀ n : RamNode, stored n off bytes =
      ({ n with
        data := n.data.map fun d i =>
          if off ≤ i ∧ i < off + bytes.length then bytes.getD (i - off) 0 else d i
        size := max n.size (off + bytes.length) }, bytes.length) := by
    intro n
    have hno : ∀ i, ¬ i + 2 ^ 64 < off + bytes.length := fun i => by omega
    simp only [stored, hneed, if_neg (hno _)]
  obtain ⟨k, hk, hfirst⟩ := hn.first
  refine ⟨63 - k + 1, ?_⟩
  simp only [ramfsWrite64, hneed, hstored]
  rw [ramfsWrite, ramfsEnsureCap]
  split
  · rfl
  · rw [hfirst, doubleCap_ends h (63 - k) (by omega) (Nat.le_add_left _ _)]
    cases mem with
    | none => rfl
    | some nd => rfl

/-- **Every file and every write.**  `ramfs_write` comes to its end, and with room for what it says
to have written, whether or not there is memory, exactly if the write ends at `2^63` or before, and,
if it has no bytes, inside the buffer. -/
theorem ramfsWrite_ends_iff (hrun : Run step (created attr) es n) (off : ℕ) (bytes : List UInt8) :
    (∀ mem, ∃ fuel n' r, ramfsWrite64 fuel n off bytes mem = some (n', r) ∧
      (r = bytes.length → off + bytes.length ≤ n'.cap)) ↔
    off + bytes.length ≤ 2 ^ 63 ∧ (bytes = [] → off ≤ n.cap) := by
  have hcap := isCap_of_run hrun
  constructor
  · intro hall
    refine ⟨?_, ?_⟩
    · obtain ⟨fuel, n', r, hw, hroom⟩ := hall (some fun _ => 0)
      obtain ⟨hcap', -, ⟨hr, -⟩ | ⟨-, hmem, -⟩⟩ := ramfsWrite64_some hcap hw
      · exact (hroom hr).trans hcap'.le
      · cases hmem
    · rintro rfl
      obtain ⟨fuel, n', r, hw, hroom⟩ := hall none
      obtain ⟨-, hsame, ⟨hr, -⟩ | ⟨hr, -⟩⟩ := ramfsWrite64_some hcap hw
      all_goals
        rw [← hsame rfl]
        exact hroom hr
  · rintro ⟨hle, hempty⟩ mem
    obtain ⟨fuel, hw⟩ := ramfsWrite64_eq hcap hle mem
    generalize ramfsWrite n off bytes mem = p at hw
    obtain ⟨n', r⟩ := p
    obtain ⟨-, -, hdone⟩ := ramfsWrite64_some hcap hw
    rw [Nat.mod_eq_of_lt (by omega)] at hdone
    refine ⟨fuel, n', r, hw, fun hr => ?_⟩
    obtain ⟨-, hroom⟩ | ⟨hzero, -, hless⟩ := hdone
    · exact hroom
    · have hlen₀ := hr.symm.trans hzero
      have hin := hempty (length_eq_zero_iff.mp hlen₀)
      omega

theorem ramfsWrite_ends_iff_first : Run step (created ⟨0, 0, 0o644⟩) [] (created ⟨0, 0, 0o644⟩) ∧
      ∀ mem, ∃ fuel n' r, ramfsWrite64 fuel (created ⟨0, 0, 0o644⟩) 5 [1] mem = some (n', r) ∧
        (r = 1 → 6 ≤ n'.cap) :=
  ⟨.nil _, (ramfsWrite_ends_iff (.nil _) 5 [1]).mpr ⟨by decide, nofun⟩⟩

/-- Two bytes written to a new file at the largest offset. -/
theorem write_never_ends :
    ¬ ∃ fuel n' r, ramfsWrite64 fuel (created ⟨0, 0, 0o644⟩) (2 ^ 63 - 1) [1, 2]
      (some fun _ => 0) = some (n', r) := by
  rintro ⟨fuel, n', r, h⟩
  obtain ⟨hcap, -, ⟨-, hroom⟩ | ⟨-, hmem, -⟩⟩ := ramfsWrite64_some (.inl rfl) h
  · exact absurd (hroom.trans hcap.le) (by decide)
  · cases hmem

/-! ### The bytes -/

/-- `ramfs_read`, of a file. -/
def ramfsRead (n : RamNode) (off len : ℕ) : List UInt8 :=
  (List.range (min len (n.size - off))).map fun i => n.byte (off + i)

/-- A file, the number of writes so far, and the byte that was last written to each position, 0 if
there is none. -/
structure File where
  node : RamNode
  calls : ℕ
  written : ℕ → UInt8

/-- A write, and whether there is memory for a larger buffer. -/
structure Request where
  off : ℕ
  bytes : List UInt8
  memory : Bool

/-- `ramfs_write`, when the memory that `kmalloc` returns at the `k`-th write holds `heap k`. -/
def write (heap : ℕ → ℕ → UInt8) (s : File) (w : Request) : File :=
  let r := ramfsWrite s.node w.off w.bytes (if w.memory then some (heap s.calls) else none)
  { node := r.1
    calls := s.calls + 1
    written := overwrite s.written w.off (w.bytes.take r.2) }

def writes (heap : ℕ → ℕ → UInt8) (attr : Attr) (ws : List Request) : File :=
  ws.foldl (write heap) ⟨created attr, 0, fun _ => 0⟩

/-- There is room for the write. -/
def Accepted (s : File) (w : Request) : Prop :=
  w.off + w.bytes.length ≤ s.node.cap ∨ w.memory = true

/-- The bytes below the size are those last written. -/
def Correct (s : File) : Prop :=
  ∀ off len, ramfsRead s.node off len =
    (List.range (min len (s.node.size - off))).map fun i => s.written (off + i)

theorem correct_iff (s : File) : Correct s ↔ ∀ i < s.node.size, s.node.byte i = s.written i := by
  constructor
  · intro h i hi
    have hone := h i 1
    rw [ramfsRead, Nat.min_eq_left (by omega)] at hone
    simpa using hone
  · intro h off len
    refine map_congr_left fun i hi => h _ ?_
    have hlt := mem_range.mp hi
    omega

section Writes

variable {heap : ℕ → ℕ → UInt8} {s o : File} {w : Request}

theorem write_refused (h : ¬ Accepted s w) : write heap s w = { s with calls := s.calls + 1 } := by
  obtain ⟨hroom, hmem⟩ := not_or.mp h
  have hnone : overwrite s.written w.off [] = s.written := by
    funext i
    rw [overwrite, length_nil, if_neg (by omega)]
  rw [write, if_neg hmem, ramfsWrite_refused hroom, take_zero, hnone]

theorem write_accepted (heap : ℕ → ℕ → UInt8) (hb : Buffered s.node) (h : Accepted s w) :
    ∃ n', write heap s w = ⟨n', s.calls + 1, overwrite s.written w.off w.bytes⟩ ∧ Buffered n' ∧
      n'.size = max s.node.size (w.off + w.bytes.length) ∧
      n'.cap = (if w.off + w.bytes.length ≤ s.node.cap then s.node.cap else
        growCap (w.off + w.bytes.length) (w.off + w.bytes.length)
          (if s.node.cap = 0 then 64 else s.node.cap)) ∧
      n'.byte = overwrite (fun i => if i < s.node.size ∨ w.off + w.bytes.length ≤ s.node.cap then
        s.node.byte i else heap s.calls i) w.off w.bytes := by
  have hroom : w.off + w.bytes.length ≤ s.node.cap ∨
      (if w.memory then some (heap s.calls) else none).isSome = true :=
    h.imp_right fun hm => by rw [if_pos hm]; rfl
  obtain ⟨n', heq, hb', hsize, hcap, hbyte⟩ := ramfsWrite_accepted hb hroom
  refine ⟨n', by rw [write, heq, take_length], hb', hsize, hcap, ?_⟩
  rw [hbyte]
  obtain hin | hm := h
  · simp only [hin, or_true, if_true]
  · simp only [hm, if_true, Option.getD_some]

/-- The file `o` was written to as `s` was, and all memory that it was given was full of ones. -/
structure Ones (s o : File) : Prop where
  buffered : Buffered s.node ∧ Buffered o.node
  size : s.node.size = o.node.size
  cap : s.node.cap = o.node.cap
  written : s.written = o.written
  behind : ∀ i, o.node.size ≤ i → o.written i = 0 ∧ (o.node.cap ≠ 0 → o.node.byte i = 1)

theorem Ones.accepted_iff (h : Ones s o) : Accepted s w ↔ Accepted o w := by
  rw [Accepted, Accepted, h.cap]

theorem Ones.write (h : Ones s o) (w : Request) :
    Ones (write heap s w) (write (fun _ _ => 1) o w) := by
  by_cases hacc : Accepted s w
  · obtain ⟨n, heq, hb, hsize, hcap, -⟩ := write_accepted heap h.buffered.1 hacc
    obtain ⟨n', heq', hb', hsize', hcap', hbyte'⟩ :=
      write_accepted (fun _ _ => 1) h.buffered.2 (h.accepted_iff.mp hacc)
    rw [heq, heq']
    refine ⟨⟨hb, hb'⟩, ?_, ?_, ?_, fun i hi => ?_⟩
    · rw [hsize, hsize', h.size]
    · rw [hcap, hcap', h.cap]
    · rw [h.written]
    · rw [hsize'] at hi
      obtain ⟨hzero, hone⟩ := h.behind i (by omega)
      simp only [hbyte', overwrite]
      rw [if_neg (by omega), if_neg (by omega)]
      refine ⟨hzero, fun hne => ?_⟩
      split
      case isTrue hin =>
        rw [hcap', if_pos (hin.resolve_left (by omega))] at hne
        exact hone hne
      case isFalse => rfl
  · rw [write_refused hacc, write_refused (mt h.accepted_iff.mpr hacc)]
    exact { h with }

theorem writes_snoc (attr : Attr) (ws : List Request) (w : Request) :
    writes heap attr (ws ++ [w]) = write heap (writes heap attr ws) w := by
  rw [writes, foldl_append]
  rfl

theorem ones_writes (heap : ℕ → ℕ → UInt8) (attr : Attr) (ws : List Request) :
    Ones (writes heap attr ws) (writes (fun _ _ => 1) attr ws) := by
  induction ws using reverseRecOn with
  | nil => exact ⟨⟨.inl rfl, .inl rfl⟩, rfl, rfl, rfl, fun _ _ => ⟨rfl, fun h => absurd rfl h⟩⟩
  | append_singleton ws w ih =>
    rw [writes_snoc, writes_snoc]
    exact ih.write w

theorem correct_write (hb : Buffered s.node) (hs : Correct s)
    (hgap : Accepted s w → w.off ≤ s.node.size) : Correct (write heap s w) := by
  rw [correct_iff] at hs ⊢
  by_cases hacc : Accepted s w
  · obtain ⟨n', heq, -, hsize, -, hbyte⟩ := write_accepted heap hb hacc
    have hle := hgap hacc
    rw [heq]
    intro i hi
    rw [hsize] at hi
    simp only [hbyte, overwrite]
    split
    · rfl
    · have hlt : i < s.node.size := by omega
      rw [if_pos (.inl hlt)]
      exact hs i hlt
  · rw [write_refused hacc]
    exact hs

/-- The gap before a write holds what the memory held. -/
theorem Ones.gap (h : Ones s o) (hacc : Accepted o w)
    (hcorrect : Correct (Ramfile.write (fun _ _ => 1) o w)) : w.off ≤ o.node.size := by
  obtain ⟨n', heq, -, hsize, -, hbyte⟩ := write_accepted (fun _ _ => 1) h.buffered.2 hacc
  rw [heq, correct_iff] at hcorrect
  by_contra hgap
  have hsame := hcorrect o.node.size (by rw [hsize]; omega)
  obtain ⟨hzero, hone⟩ := h.behind o.node.size (Nat.le_refl _)
  have hout : ¬ (w.off ≤ o.node.size ∧ o.node.size < w.off + w.bytes.length) := fun h => hgap h.1
  simp only [hbyte, overwrite, if_neg hout, hzero] at hsame
  split at hsame
  case isTrue hin =>
    rw [hone (by omega)] at hsame
    cases hsame
  case isFalse => cases hsame

end Writes

/-- **Every sequence of writes, and all memory.**  At each point the bytes read are those last
written, and 0 where there is none, whatever the heap held, exactly if no write that there is room
for begins behind the end of the file. -/
theorem read_written_iff (attr : Attr) (ws : List Request) :
    (∀ pre, pre <+: ws → ∀ heap, Correct (writes heap attr pre) ∧ ∀ heap' off len,
      ramfsRead (writes heap' attr pre).node off len =
        ramfsRead (writes heap attr pre).node off len) ↔
    ∀ pre w, pre ++ [w] <+: ws → ∀ heap, Accepted (writes heap attr pre) w →
      w.off ≤ (writes heap attr pre).node.size := by
  constructor
  · intro hall pre w hpre heap hacc
    have hones := ones_writes heap attr pre
    have hcorrect := (hall _ hpre fun _ _ => 1).1
    rw [writes_snoc] at hcorrect
    rw [hones.size]
    exact hones.gap (hones.accepted_iff.mp hacc) hcorrect
  · intro hall pre hpre
    have hcorrect : ∀ heap, Correct (writes heap attr pre) := by
      intro heap
      induction pre using reverseRecOn with
      | nil => exact (correct_iff _).mpr fun i hi => absurd hi (Nat.not_lt_zero i)
      | append_singleton pre w ih =>
        rw [writes_snoc]
        exact correct_write (ones_writes heap attr pre).buffered.1
          (ih ((prefix_append pre [w]).trans hpre)) (hall pre w hpre heap)
    refine fun heap => ⟨hcorrect heap, fun heap' off len => ?_⟩
    have h := ones_writes heap attr pre
    have h' := ones_writes heap' attr pre
    rw [hcorrect heap' off len, hcorrect heap off len, h.size, h.written, h'.size, h'.written]

/-- One byte written behind the first position of a new file: what is read there is what the heap
held. -/
theorem heap_byte_read :
    ramfsRead (writes (fun _ _ => 7) ⟨0, 0, 0o644⟩ [⟨1, [65], true⟩]).node 0 2 = [7, 65] ∧
      ramfsRead (writes (fun _ _ => 9) ⟨0, 0, 0o644⟩ [⟨1, [65], true⟩]).node 0 2 = [9, 65] := by
  decide

end AxiomeOS.Ramfile
