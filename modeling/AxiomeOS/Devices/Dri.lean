import Mathlib.Algebra.Group.Nat.Defs
import Mathlib.Data.Fin.VecNotation
import Mathlib.Data.List.FinRange

/-!
# The DRI device: presenting a buffer

`/Devices/dri0` keeps up to 16 buffers of pixels.  PRESENT copies a rectangle of one of them to the
scanout; its corner, its target and its size come packed in three argument words, and are clipped
first against the buffer and then against the scanout.

`present_copies_intersection`: whatever the words are, the pixels copied are those of the requested
rectangle that both surfaces have, and each of them is inside both.
-/

namespace AxiomeOS.Dri

open List

/-! ### The buffers -/

/-- `DRI_MAX_BUFS`. -/
def driMaxBufs : ℕ := 16

/-- `struct dri_buf` in use, with what `dri_cmd_create` sees to. -/
structure DriBuf where
  phys : ℕ
  pages : ℕ
  w : ℕ
  h : ℕ
  pitch : ℕ
  phys_pos : 0 < phys
  pitch_eq : pitch = w * 4
  fits : pitch * h ≤ pages * 4096

/-- `g_bufs`. -/
abbrev Bufs := Fin driMaxBufs → Option DriBuf

/-- `args` of a command. -/
abbrev Args := Fin 6 → BitVec 32

/-- The slot that a handle names. -/
def slotOf (handle : ℕ) : Option (Fin driMaxBufs) :=
  if h : 0 < handle ∧ handle ≤ driMaxBufs then some ⟨handle - 1, by omega⟩ else none

/-- `dri_find`. -/
def driFind (s : Bufs) (handle : ℕ) : Option DriBuf := (slotOf handle).bind s

/-! ### PRESENT -/

/-- The active mode: `gfx_mode`. -/
structure Scanout where
  width : ℕ
  height : ℕ
  pitch : ℕ

/-- The rectangle that the argument words ask for. -/
structure Request where
  sx : ℕ
  sy : ℕ
  dx : ℕ
  dy : ℕ
  w : ℕ
  h : ℕ

def request (args : Args) : Request :=
  let low (a : BitVec 32) := a.toNat % 2 ^ 16
  let high (a : BitVec 32) := a.toNat / 2 ^ 16 % 2 ^ 16
  ⟨low (args 1), high (args 1), low (args 2), high (args 2), low (args 3), high (args 3)⟩

/-- `(high << 16) | (low & 0xFFFF)`. -/
def pack (high low : BitVec 32) : BitVec 32 := high <<< 16 ||| (low &&& 0xFFFF#32)

/-- `axdri_encode_present`: the arguments. -/
def axdriEncodePresent (handle sx sy dx dy w h : BitVec 32) : Args :=
  ![handle, pack sy sx, pack dy dx, pack h w, 0, 0]

theorem toNat_pack (high low : BitVec 32) :
    (pack high low).toNat = high.toNat % 2 ^ 16 * 2 ^ 16 + low.toNat % 2 ^ 16 := by
  have hlow : low.toNat % 2 ^ 16 < 2 ^ 16 := Nat.mod_lt _ (by decide)
  rw [pack, BitVec.toNat_or, BitVec.toNat_shiftLeft, BitVec.toNat_and, Nat.shiftLeft_eq,
    show (2 : ℕ) ^ 32 = 2 ^ 16 * 2 ^ 16 from rfl, Nat.mul_mod_mul_right,
    show (0xFFFF#32).toNat = 2 ^ 16 - 1 from rfl, Nat.and_two_pow_sub_one_eq_mod,
    ← Nat.shiftLeft_eq, Nat.shiftLeft_add_eq_or_of_lt hlow]

/-- **The request is the one that was encoded**, up to the 16 bits that each number has. -/
theorem request_axdriEncodePresent (handle sx sy dx dy w h : BitVec 32) :
    request (axdriEncodePresent handle sx sy dx dy w h) = ⟨sx.toNat % 2 ^ 16, sy.toNat % 2 ^ 16,
      dx.toNat % 2 ^ 16, dy.toNat % 2 ^ 16, w.toNat % 2 ^ 16, h.toNat % 2 ^ 16⟩ := by
  simp only [request, axdriEncodePresent, Matrix.cons_val, toNat_pack, Request.mk.injEq]
  omega

/-- A pixel that is copied: its byte offsets in the scanout and in the buffer. -/
structure Copy where
  dst : ℕ
  src : ℕ
  deriving DecidableEq

/-- `drow[x] = srow[x]` in row `y`. -/
def Request.copy (q : Request) (b : DriBuf) (m : Scanout) (y x : ℕ) : Copy where
  dst := (q.dy + y) * m.pitch + q.dx * 4 + x * 4
  src := (q.sy + y) * b.pitch + q.sx * 4 + x * 4

/-- The size of the rectangle after clipping against the buffer, then against the scanout. -/
def Request.clip (q : Request) (b : DriBuf) (m : Scanout) : ℕ × ℕ :=
  let w := if b.w < q.sx + q.w then b.w - q.sx else q.w
  let h := if b.h < q.sy + q.h then b.h - q.sy else q.h
  (if m.width < q.dx + w then m.width - q.dx else w,
    if m.height < q.dy + h then m.height - q.dy else h)

/-- `dri_cmd_present`: the pixels copied, in order, or nothing for -1. -/
def driCmdPresent (s : Bufs) (mode : Option Scanout) (args : Args) : Option (List Copy) :=
  (driFind s (args 0).toNat).bind fun b => mode.bind fun m =>
    let q := request args
    if q.w = 0 ∨ q.h = 0 then none
    else if b.w ≤ q.sx ∨ b.h ≤ q.sy ∨ m.width ≤ q.dx ∨ m.height ≤ q.dy then none
    else if (q.clip b m).1 = 0 ∨ (q.clip b m).2 = 0 then none
    else some ((range (q.clip b m).2).flatMap fun y => (range (q.clip b m).1).map (q.copy b m y))

/-- The pixel `x`, `y` of the requested rectangle is one of both surfaces. -/
def Request.Shared (q : Request) (b : DriBuf) (m : Scanout) (y x : ℕ) : Prop :=
  x < q.w ∧ y < q.h ∧ q.sx + x < b.w ∧ q.sy + y < b.h ∧ q.dx + x < m.width ∧ q.dy + y < m.height

/-- A pixel of a surface lies in its bytes. -/
theorem pixel_inside {x y width height pitch : ℕ} (hp : 4 * width ≤ pitch) (hx : x < width)
    (hy : y < height) : y * pitch + 4 * x + 4 ≤ pitch * height := by
  have hrow : (y + 1) * pitch ≤ height * pitch := Nat.mul_le_mul_right pitch hy
  rw [Nat.add_mul, Nat.one_mul, Nat.mul_comm height] at hrow
  omega

theorem Request.lt_clip_iff (q : Request) (b : DriBuf) (m : Scanout) (y x : ℕ) :
    y < (q.clip b m).2 ∧ x < (q.clip b m).1 ↔ q.Shared b m y x := by
  simp only [Request.clip, Request.Shared]
  repeat' split
  all_goals omega

/-- The copied pixels are the shared ones. -/
theorem mem_present {s : Bufs} {args : Args} {b : DriBuf} {m : Scanout} {p : Copy}
    (hb : driFind s (args 0).toNat = some b) : p ∈ (driCmdPresent s (some m) args).getD [] ↔
      ∃ y x, (request args).Shared b m y x ∧ p = (request args).copy b m y x := by
  have hclip := (request args).lt_clip_iff b m
  simp only [driCmdPresent, hb, Option.bind_some]
  split_ifs
  case neg =>
    simp only [Option.getD_some, mem_flatMap, mem_map, mem_range]
    constructor
    · rintro ⟨y, hy, x, hx, rfl⟩
      exact ⟨y, x, (hclip y x).mp ⟨hy, hx⟩, rfl⟩
    · rintro ⟨y, x, h, rfl⟩
      exact ⟨y, ((hclip y x).mpr h).1, x, ((hclip y x).mpr h).2, rfl⟩
  -- where the call gives up, no pixel is shared
  all_goals
    simp only [Option.getD_none, not_mem_nil, false_iff]
    rintro ⟨y, x, h, -⟩
    have := (hclip y x).mpr h
    simp only [Request.Shared] at h
    omega

/-- **PRESENT copies the intersection.**  For any argument words, any buffer that exists and any
mode whose rows hold their pixels: every pixel read is inside the buffer, every pixel written inside
the scanout, and the copied pixels are those of the requested rectangle that both have. -/
theorem present_copies_intersection (s : Bufs) (args : Args) (b : DriBuf) (m : Scanout)
    (hb : driFind s (args 0).toNat = some b) (hm : 4 * m.width ≤ m.pitch) :
    (∀ p ∈ (driCmdPresent s (some m) args).getD [],
        p.src + 4 ≤ b.pitch * b.h ∧ p.dst + 4 ≤ m.pitch * m.height) ∧
      ∀ p, p ∈ (driCmdPresent s (some m) args).getD [] ↔
        ∃ y x, (request args).Shared b m y x ∧ p = (request args).copy b m y x := by
  refine ⟨fun p hp => ?_, fun p => mem_present hb⟩
  obtain ⟨y, x, ⟨-, -, hsx, hsy, hdx, hdy⟩, rfl⟩ := (mem_present hb).mp hp
  have hsrc := pixel_inside (show 4 * b.w ≤ b.pitch by rw [b.pitch_eq]; omega) hsx hsy
  have hdst := pixel_inside hm hdx hdy
  simp only [Request.copy]
  omega

/-- One buffer of 3 by 2 pixels. -/
def oneBuffer : Bufs := fun i =>
  if i.val = 0 then some ⟨4096, 1, 3, 2, 12, by decide, rfl, by decide⟩ else none

/-- A command for its lower right pixels, as part of a large square. -/
def corner : Args := ![1, 0x10001, 0x10000, 0xffffffff, 0, 0]

theorem present_copies_intersection_corner :
    driCmdPresent oneBuffer (some ⟨2, 2, 16⟩) corner = some [⟨16, 16⟩, ⟨20, 20⟩] ∧
      ∀ p ∈ (driCmdPresent oneBuffer (some ⟨2, 2, 16⟩) corner).getD [],
        p.src + 4 ≤ 24 ∧ p.dst + 4 ≤ 32 :=
  ⟨by decide +kernel,
    (present_copies_intersection oneBuffer corner _ ⟨2, 2, 16⟩ rfl (by decide)).1⟩

end AxiomeOS.Dri
