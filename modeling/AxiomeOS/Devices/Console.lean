import AxiomeOS.Lib.Bytes
import AxiomeOS.Lib.Runs

/-!
# The text console

`kernel/framebuffer.c` draws into a back buffer and notes in one rectangle what has to be copied to
the screen.  `fb_flush` copies this rectangle and nothing else, so it has to contain everything that
was drawn since the last copy.

`mark_dirty` merges a new rectangle into the old one.  When the new one begins further left (or
further up) it moves the origin without making the rectangle wider, and the right edge of what was
drawn before is lost.  `flush_shows_back_buffer`: in every sequence of calls in which no character
is drawn to the left of the rectangle or above it, the screen shows the back buffer after each
flush. `flush_leaves_text_behind` is two lines of text that do not appear.
-/

namespace AxiomeOS.Console

open Bytes Runs

/-- The mode the loader has set: at least one row and one column of text. -/
structure Geometry where
  width : ℕ
  height : ℕ
  pitch : ℕ
  bpp : ℕ
  cols : 8 ≤ width
  rows : 16 ≤ height

def Geometry.numCols (g : Geometry) : ℕ := g.width / 8

def Geometry.numRows (g : Geometry) : ℕ := g.height / 16

/-- The state of `framebuffer.c`. -/
structure Fb where
  /-- What the screen shows. -/
  addr : Buffer
  back : Buffer
  /-- `back_buffer` is not null. -/
  hasBack : Bool
  present : Bool
  cursorX : ℕ
  cursorY : ℕ
  fgColor : ℕ
  bgColor : ℕ
  dirty : Bool
  dirtyX : ℕ
  dirtyY : ℕ
  dirtyW : ℕ
  dirtyH : ℕ

/-- A store through `fb_ptr()`. -/
def Fb.paint (s : Fb) (f : Buffer → Buffer) : Fb :=
  if s.hasBack then { s with back := f s.back } else { s with addr := f s.addr }

/-! ### Drawing -/

/-- `mark_dirty` -/
def markDirty (x y w h : ℕ) (s : Fb) : Fb :=
  if w = 0 ∨ h = 0 then s
  else if s.dirtyW = 0 then
    { s with dirtyX := x, dirtyY := y, dirtyW := w, dirtyH := h, dirty := true }
  else
    let dx := if x < s.dirtyX then x else s.dirtyX
    let dy := if y < s.dirtyY then y else s.dirtyY
    { s with
      dirtyX := dx
      dirtyY := dy
      dirtyW := if dx + s.dirtyW < x + w then x + w - dx else s.dirtyW
      dirtyH := if dy + s.dirtyH < y + h then y + h - dy else s.dirtyH
      dirty := true }

section Geometry

variable (g : Geometry)

/-- `set_pixel` -/
def setPixel (x y color : ℕ) (b : Buffer) : Buffer :=
  if g.width ≤ x ∨ g.height ≤ y then b
  else
    let p := y * g.pitch + x * (g.bpp / 8)
    if g.bpp = 32 then setLe b p 4 color
    else if g.bpp = 24 then setLe b p 3 color
    else
      let rowLeft := (g.pitch + 2 ^ 64 - x * (g.bpp / 8)) % 2 ^ 64
      setLe b p (if rowLeft < 4 then rowLeft else 4) color

/-- The loops of `draw_glyph`; `bits` is the row of the font. -/
def glyph (bits : ℕ → ℕ) (baseX baseY fg bg : ℕ) (b : Buffer) : Buffer :=
  (List.range 16).foldl (fun b row =>
    (List.range 8).foldl (fun b col =>
      setPixel g (baseX + col) (baseY + row)
        (if (bits row).testBit (7 - col) then fg else bg) b) b) b

/-- `fill_lines` -/
def fillLines (y₀ y₁ color : ℕ) (b : Buffer) : Buffer :=
  let y₁ := if g.height < y₁ then g.height else y₁
  if g.height ≤ y₀ ∨ y₁ ≤ y₀ then b
  else if g.bpp = 32 ∧ color = 0 then blit b (y₀ * g.pitch) (fun _ => 0) ((y₁ - y₀) * g.pitch)
  else if g.bpp = 32 then
    (List.range (y₁ - y₀)).foldl (fun b i =>
      (List.range g.width).foldl (fun b x => setLe b ((y₀ + i) * g.pitch + x * 4) 4 color) b) b
  else
    (List.range (y₁ - y₀)).foldl (fun b i =>
      (List.range g.width).foldl (fun b x => setPixel g x (y₀ + i) color b) b) b

/-- The loop of `shift_rows_up`. -/
def shiftRows (b : Buffer) : Buffer :=
  (List.range ((g.numRows - 1) * 16)).foldl (fun b y =>
    (List.range g.pitch).foldl (fun b i =>
      blit b (y * g.pitch + i) (fun _ => b ((y + 16) * g.pitch + i)) 1) b) b

/-- `shift_rows_up` -/
def shiftRowsUp (s : Fb) : Fb :=
  let s := s.paint fun b => fillLines g ((g.numRows - 1) * 16) g.height s.bgColor (shiftRows g b)
  markDirty 0 0 g.width g.height { s with dirty := false, dirtyW := 0 }

/-- `while (fb.cursor_y >= fb.num_rows) { shift_rows_up(); fb.cursor_y--; }` -/
def scrollLoop : ℕ → Fb → Fb
  | 0, s => s
  | fuel + 1, s =>
    if g.numRows ≤ s.cursorY then
      let s := shiftRowsUp g s
      scrollLoop fuel { s with cursorY := s.cursorY - 1 }
    else s

/-- The bytes of a pixel, as `fb_flush` counts them. -/
def Geometry.pixelSize : ℕ := if g.bpp / 8 = 0 then 4 else g.bpp / 8

/-- The loop of `fb_flush`. -/
def copyRows (x₀ y₀ w h : ℕ) (back addr : Buffer) : Buffer :=
  (List.range h).foldl (fun addr i =>
    blit addr ((y₀ + i) * g.pitch + x₀ * g.pixelSize)
      (fun k => back ((y₀ + i) * g.pitch + x₀ * g.pixelSize + k)) (w * g.pixelSize)) addr

/-- `fb_flush` -/
def fbFlush (s : Fb) : Fb :=
  if s.present = false ∨ s.hasBack = false ∨ s.dirty = false then s
  else if g.width ≤ s.dirtyX ∨ g.height ≤ s.dirtyY then { s with dirty := false, dirtyW := 0 }
  else
    let w := if g.width < s.dirtyX + s.dirtyW then g.width - s.dirtyX else s.dirtyW
    let h := if g.height < s.dirtyY + s.dirtyH then g.height - s.dirtyY else s.dirtyH
    { s with addr := copyRows g s.dirtyX s.dirtyY w h s.back s.addr, dirty := false, dirtyW := 0 }

variable (font : ℕ → ℕ → ℕ)

/-- The character is drawn: it is in the font (0x20 to 0x7E) and its cell is on the screen. -/
def Drawn (c : UInt8) (cellX cellY : ℕ) : Prop :=
  (cellX < g.numCols ∧ cellY < g.numRows) ∧ 0x20 ≤ c.toNat ∧ c.toNat - 0x20 < 95

instance (c : UInt8) (cellX cellY : ℕ) : Decidable (Drawn g c cellX cellY) :=
  inferInstanceAs (Decidable (_ ∧ _))

/-- `draw_glyph` -/
def drawGlyph (c : UInt8) (cellX cellY fg bg : ℕ) (s : Fb) : Fb :=
  if Drawn g c cellX cellY then
    markDirty (cellX * 8) (cellY * 16) 8 16
      (s.paint (glyph g (font (c.toNat - 0x20)) (cellX * 8) (cellY * 16) fg bg))
  else s

/-- The `switch` of `fb_putchar`. -/
def putcharCase (c : UInt8) (s : Fb) : Fb :=
  if c = 10 then { s with cursorX := 0, cursorY := s.cursorY + 1 }
  else if c = 13 then { s with cursorX := 0 }
  else if c = 9 then { s with cursorX := (s.cursorX + 8) / 8 * 8 }
  else if c = 8 then { s with cursorX := s.cursorX - 1 }
  else
    let s := drawGlyph g font c s.cursorX s.cursorY s.fgColor s.bgColor s
    { s with cursorX := s.cursorX + 1 }

/-- `fb_putchar` -/
def fbPutchar (s : Fb) (c : UInt8) : Fb :=
  if s.present then
    let s := putcharCase g font c s
    let s :=
      if g.numCols ≤ s.cursorX then { s with cursorX := 0, cursorY := s.cursorY + 1 } else s
    scrollLoop g (s.cursorY + 1) s
  else s

/-- `fb_write` -/
def fbWrite (s : Fb) (str : List UInt8) : Fb :=
  if s.present = false ∨ str = [] then s
  else
    let s := str.foldl (fbPutchar g font) s
    if s.hasBack then fbFlush g s else s

/-- `fb_scroll` -/
def fbScroll (s : Fb) : Fb :=
  if s.present then
    let s := shiftRowsUp g s
    let s := { s with cursorY := g.numRows - 1 }
    if s.hasBack then fbFlush g s else s
  else s

/-- `fb_clear` -/
def fbClear (s : Fb) : Fb :=
  if s.present then
    let s := s.paint (fillLines g 0 g.height s.bgColor)
    let s := markDirty 0 0 g.width g.height { s with cursorX := 0, cursorY := 0 }
    if s.hasBack then fbFlush g s else s
  else s

/-! ### Sequences of calls -/

inductive Call
  | putchar (c : UInt8)
  | write (str : List UInt8)
  | scroll
  | clear
  | flush

def run (s : Fb) : Call → Fb
  | .putchar c => fbPutchar g font s c
  | .write str => fbWrite g font s str
  | .scroll => fbScroll g s
  | .clear => fbClear g s
  | .flush => fbFlush g s

/-- The condition for a character: if one is drawn, then pixels have whole bytes that `set_pixel`
does not exceed, and the cell does not begin to the left of the rectangle or above it. -/
def Fits (s : Fb) (c : UInt8) : Prop :=
  c ≠ 10 ∧ c ≠ 13 ∧ c ≠ 9 ∧ c ≠ 8 → s.present = true → Drawn g c s.cursorX s.cursorY →
    (g.bpp = 24 ∨ 32 ≤ g.bpp) ∧
      (s.dirtyW = 0 ∨ s.dirtyX ≤ s.cursorX * 8 ∧ s.dirtyY ≤ s.cursorY * 16)

/-- The condition for a call: every character it writes meets the condition. -/
def CallFits (s : Fb) : Call → Prop
  | .putchar c => Fits g s c
  | .write str => ∀ pre c, pre ++ [c] <+: str → Fits g (pre.foldl (fbPutchar g font) s) c
  | _ => True

/-! ### The screen -/

/-- A byte of a pixel in the rectangle. -/
def InRect (x₀ y₀ w h a : ℕ) : Prop :=
  ∃ x y k, (x₀ ≤ x ∧ x < x₀ + w) ∧ (y₀ ≤ y ∧ y < y₀ + h) ∧ k < g.pixelSize ∧
    a = y * g.pitch + x * g.pixelSize + k

/-- The screen shows the back buffer. -/
def SameScreen (s : Fb) : Prop := ∀ a, InRect g 0 0 g.width g.height a → s.addr a = s.back a

/-- Every byte of a pixel that differs from what the screen shows is in the rectangle. -/
def Covered (s : Fb) : Prop :=
  ∀ a, InRect g 0 0 g.width g.height a → s.addr a ≠ s.back a →
    s.dirty = true ∧ InRect g s.dirtyX s.dirtyY s.dirtyW s.dirtyH a

/-- **The invariant.** -/
structure Inv (s : Fb) : Prop where
  hasBack : s.hasBack = true
  present : s.present = false → s.dirty = false
  clean : s.dirty = false → s.dirtyW = 0
  rect : s.dirty = true → (0 < s.dirtyW ∧ 0 < s.dirtyH) ∧ s.dirtyX + s.dirtyW ≤ g.width ∧
    s.dirtyY + s.dirtyH ≤ g.height
  covered : Covered g s

end Geometry

section Proofs

variable {g : Geometry} {font : ℕ → ℕ → ℕ} {s : Fb}

theorem InRect.mono {x y w h x' y' w' h' a : ℕ} (hin : InRect g x y w h a)
    (hx : x' ≤ x ∧ x + w ≤ x' + w') (hy : y' ≤ y ∧ y + h ≤ y' + h') : InRect g x' y' w' h' a := by
  obtain ⟨px, py, k, hpx, hpy, hk, ha⟩ := hin
  exact ⟨px, py, k, by omega, by omega, hk, ha⟩

theorem Fb.paint_of_hasBack (h : s.hasBack = true) (f : Buffer → Buffer) :
    s.paint f = { s with back := f s.back } := by
  rw [Fb.paint, if_pos h]

/-! ### Glyphs -/

/-- With whole bytes per pixel, `set_pixel` stays in its pixel. -/
theorem confined_setPixel (hbpp : g.bpp = 24 ∨ 32 ≤ g.bpp) (x y color : ℕ) :
    Confined (InRect g x y 1 1) (setPixel g x y color) := by
  have hsize : g.pixelSize = g.bpp / 8 := if_neg (by omega)
  have hstore : ∀ n, n ≤ g.bpp / 8 →
      Confined (InRect g x y 1 1) fun b => setLe b (y * g.pitch + x * (g.bpp / 8)) n color := by
    intro n hn
    refine (confined_setLe _ n color).mono ?_
    intro j hj
    rw [← hsize] at hj hn
    exact ⟨x, y, j - (y * g.pitch + x * g.pixelSize), by omega, by omega, by omega, by omega⟩
  intro b j hj
  unfold setPixel
  split
  · rfl
  split
  · exact hstore 4 (by omega) b j hj
  split
  · exact hstore 3 (by omega) b j hj
  · exact hstore _ (by split <;> omega) b j hj

theorem confined_glyph (hbpp : g.bpp = 24 ∨ 32 ≤ g.bpp) (bits : ℕ → ℕ) (baseX baseY fg bg : ℕ) :
    Confined (InRect g baseX baseY 8 16) (glyph g bits baseX baseY fg bg) := by
  refine .foldl (f := fun row b => (List.range 8).foldl (fun b col =>
    setPixel g (baseX + col) (baseY + row)
      (if (bits row).testBit (7 - col) then fg else bg) b) b) ?_
  intro row hrow
  refine .foldl (f := fun col b => setPixel g (baseX + col) (baseY + row)
    (if (bits row).testBit (7 - col) then fg else bg) b) ?_
  intro col hcol
  rw [List.mem_range] at hrow hcol
  exact (confined_setPixel hbpp _ _ _).mono fun j hj => hj.mono (by omega) (by omega)

/-- A cell that begins neither to the left of the rectangle nor above it is merged into it without
losing anything. -/
theorem Inv.markGlyph (h : Inv g s) (hpresent : s.present = true) {x y : ℕ} {f : Buffer → Buffer}
    (hf : Confined (InRect g x y 8 16) f) (hx : x + 8 ≤ g.width) (hy : y + 16 ≤ g.height)
    (hfits : s.dirtyW = 0 ∨ s.dirtyX ≤ x ∧ s.dirtyY ≤ y) :
    Inv g (markDirty x y 8 16 (s.paint f)) := by
  rw [Fb.paint_of_hasBack h.hasBack, markDirty, if_neg (by omega)]
  have hlive : ¬ s.present = false := ne_false_of_eq_true hpresent
  have hkept : ∀ a, InRect g 0 0 g.width g.height a → s.addr a ≠ f s.back a →
      InRect g x y 8 16 a ∨ s.dirty = true ∧ InRect g s.dirtyX s.dirtyY s.dirtyW s.dirtyH a := by
    intro a ha hne
    by_cases hin : InRect g x y 8 16 a
    · exact .inl hin
    · rw [hf s.back a hin] at hne
      exact .inr (h.covered a ha hne)
  dsimp only
  split
  case isTrue hempty =>
    refine ⟨h.hasBack, fun hp => absurd hp hlive, nofun,
      fun _ => ⟨⟨Nat.succ_pos 7, Nat.succ_pos 15⟩, hx, hy⟩, ?_⟩
    intro a ha hne
    refine ⟨rfl, (hkept a ha hne).resolve_right ?_⟩
    rintro ⟨hdirty, -⟩
    have hpos := (h.rect hdirty).1
    omega
  case isFalse hempty =>
    have hdirty : s.dirty = true := by
      cases hd : s.dirty with
      | true => rfl
      | false => exact absurd (h.clean hd) hempty
    obtain ⟨hpos, hright, hbottom⟩ := h.rect hdirty
    obtain ⟨hleft, htop⟩ := hfits.resolve_left hempty
    rw [if_neg (Nat.not_lt.mpr hleft), if_neg (Nat.not_lt.mpr htop)]
    refine ⟨h.hasBack, fun hp => absurd hp hlive, nofun, ?_, ?_⟩
    · intro _
      dsimp only
      refine ⟨⟨?_, ?_⟩, ?_, ?_⟩ <;> split <;> omega
    · intro a ha hne
      refine ⟨rfl, ?_⟩
      dsimp only
      obtain hin | ⟨-, hin⟩ := hkept a ha hne
      · refine hin.mono ⟨hleft, ?_⟩ ⟨htop, ?_⟩ <;> split <;> omega
      · refine hin.mono ⟨Nat.le_refl _, ?_⟩ ⟨Nat.le_refl _, ?_⟩ <;> split <;> omega

/-! ### Operations on the whole screen -/

/-- Marking the whole screen makes it the rectangle. -/
theorem markDirty_full (hrect : s.dirtyW = 0 ∨ s.dirtyX + s.dirtyW ≤ g.width ∧
      s.dirtyY + s.dirtyH ≤ g.height) : markDirty 0 0 g.width g.height s =
      { s with
        dirtyX := 0, dirtyY := 0, dirtyW := g.width, dirtyH := g.height, dirty := true } := by
  have hcols := g.cols
  have hrows := g.rows
  rw [markDirty, if_neg (by omega)]
  split
  · rfl
  case isFalse hne =>
    obtain ⟨hright, hbottom⟩ := hrect.resolve_left hne
    have hx : (if 0 < s.dirtyX then 0 else s.dirtyX) = 0 := by split <;> omega
    have hy : (if 0 < s.dirtyY then 0 else s.dirtyY) = 0 := by split <;> omega
    have hw : (if 0 + s.dirtyW < 0 + g.width then 0 + g.width - 0 else s.dirtyW) = g.width := by
      split <;> omega
    have hh : (if 0 + s.dirtyH < 0 + g.height then 0 + g.height - 0 else s.dirtyH) = g.height := by
      split <;> omega
    dsimp only
    rw [hx, hy, hw, hh]

theorem inv_full (hback : s.hasBack = true) (hpresent : s.present = true) :
    Inv g { s with
      dirtyX := 0, dirtyY := 0, dirtyW := g.width, dirtyH := g.height, dirty := true } where
  hasBack := hback
  present := fun hp => absurd hp (ne_false_of_eq_true hpresent)
  clean := nofun
  rect := by
    intro _
    have hcols := g.cols
    have hrows := g.rows
    dsimp only
    omega
  covered := fun _ ha _ => ⟨rfl, ha⟩

theorem shiftRowsUp_eq (hback : s.hasBack = true) :
    ∃ back, shiftRowsUp g s = { s with
      back := back, dirtyX := 0, dirtyY := 0, dirtyW := g.width, dirtyH := g.height,
      dirty := true } := by
  refine ⟨fillLines g ((g.numRows - 1) * 16) g.height s.bgColor (shiftRows g s.back), ?_⟩
  rw [shiftRowsUp, Fb.paint_of_hasBack hback, markDirty_full (.inl rfl)]

theorem Inv.shiftRowsUp (h : Inv g s) (hpresent : s.present = true) :
    Inv g (shiftRowsUp g s) ∧ (shiftRowsUp g s).present = true ∧
      (shiftRowsUp g s).cursorY = s.cursorY := by
  obtain ⟨back, heq⟩ := shiftRowsUp_eq h.hasBack
  rw [heq]
  exact ⟨inv_full (s := { s with back := back }) h.hasBack hpresent, hpresent, rfl⟩

theorem Inv.cursor (h : Inv g s) (x y : ℕ) : Inv g { s with cursorX := x, cursorY := y } :=
  { h with }

theorem Inv.scrollLoop (fuel : ℕ) (h : Inv g s) (hpresent : s.present = true) :
    Inv g (scrollLoop g fuel s) := by
  induction fuel generalizing s with
  | zero => exact h
  | succ fuel ih =>
    unfold Console.scrollLoop
    split
    · obtain ⟨hinv, hp, -⟩ := h.shiftRowsUp hpresent
      exact ih (hinv.cursor _ _) hp
    · exact h

/-! ### Characters -/

theorem drawGlyph_present (c : UInt8) (cellX cellY fg bg : ℕ) :
    (drawGlyph g font c cellX cellY fg bg s).present = s.present := by
  unfold drawGlyph markDirty Fb.paint
  repeat' split
  all_goals rfl

theorem Inv.putcharCase (font : ℕ → ℕ → ℕ) (h : Inv g s) (hpresent : s.present = true) {c : UInt8}
    (hfits : Fits g s c) :
    Inv g (putcharCase g font c s) ∧ (putcharCase g font c s).present = true := by
  unfold Console.putcharCase
  iterate 4
    split
    · exact ⟨h.cursor _ _, hpresent⟩
  rename_i h10 h13 h9 h8
  refine ⟨?_, (drawGlyph_present c _ _ _ _).trans hpresent⟩
  unfold drawGlyph
  split
  case isTrue hdrawn =>
    obtain ⟨hbpp, hrect⟩ := hfits ⟨h10, h13, h9, h8⟩ hpresent hdrawn
    have hcol : (s.cursorX + 1) * 8 ≤ g.numCols * 8 := Nat.mul_le_mul_right 8 hdrawn.1.1
    have hrow : (s.cursorY + 1) * 16 ≤ g.numRows * 16 := Nat.mul_le_mul_right 16 hdrawn.1.2
    have hwidth : g.numCols * 8 ≤ g.width := Nat.div_mul_le_self _ _
    have hheight : g.numRows * 16 ≤ g.height := Nat.div_mul_le_self _ _
    have hmark := h.markGlyph hpresent
      (confined_glyph hbpp (font (c.toNat - 0x20)) (s.cursorX * 8) (s.cursorY * 16) s.fgColor
        s.bgColor) (by omega) (by omega) hrect
    exact hmark.cursor _ _
  case isFalse => exact h.cursor _ _

/-- **A character** that fits keeps the invariant. -/
theorem Inv.fbPutchar (h : Inv g s) {c : UInt8} (hfits : Fits g s c) :
    Inv g (fbPutchar g font s c) := by
  unfold Console.fbPutchar
  split
  case isFalse => exact h
  case isTrue hpresent =>
    obtain ⟨hcase, hp⟩ := h.putcharCase font hpresent hfits
    dsimp only
    split
    · exact (hcase.cursor _ _).scrollLoop _ hp
    · exact hcase.scrollLoop _ hp

theorem Inv.foldl_fbPutchar (str : List UInt8) (h : Inv g s)
    (hfits : ∀ pre c, pre ++ [c] <+: str → Fits g (pre.foldl (Console.fbPutchar g font) s) c) :
    Inv g (str.foldl (Console.fbPutchar g font) s) := by
  induction str generalizing s with
  | nil => exact h
  | cons c str ih =>
    obtain ⟨hfirst, hrest⟩ := forall_snoc_prefix_cons.mp hfits
    exact ih (h.fbPutchar hfirst) hrest

/-! ### Copying to the screen -/

/-- The copy loop takes over every byte of the rectangle, and changes nothing that was equal. -/
theorem copyRows_eq {x₀ y₀ w h : ℕ} {back addr : Buffer} {a : ℕ}
    (ha : InRect g x₀ y₀ w h a ∨ addr a = back a) : copyRows g x₀ y₀ w h back addr a = back a := by
  have hloop : ∀ (rows : List ℕ) (addr : Buffer),
      (∃ i ∈ rows, InRect g x₀ (y₀ + i) w 1 a) ∨ addr a = back a →
      rows.foldl (fun addr i => blit addr ((y₀ + i) * g.pitch + x₀ * g.pixelSize)
        (fun k => back ((y₀ + i) * g.pitch + x₀ * g.pixelSize + k)) (w * g.pixelSize)) addr a =
          back a := by
    intro rows
    induction rows with
    | nil =>
      rintro addr (⟨i, hi, -⟩ | heq)
      · cases hi
      · exact heq
    | cons i rows ih =>
      intro addr hor
      refine ih _ ?_
      dsimp only
      -- a byte of this row is copied now, any other one is left alone
      by_cases hrow : (y₀ + i) * g.pitch + x₀ * g.pixelSize ≤ a ∧
          a < (y₀ + i) * g.pitch + x₀ * g.pixelSize + w * g.pixelSize
      · refine .inr ?_
        rw [blit_apply_of_inside _ _ _ _ hrow.1 hrow.2, Nat.add_sub_cancel' hrow.1]
      · rw [blit_apply_of_outside _ _ _ _ (by omega)]
        refine hor.imp_left ?_
        rintro ⟨i', hi', hin⟩
        refine ⟨i', (List.mem_cons.mp hi').resolve_left ?_, hin⟩
        rintro rfl
        obtain ⟨x, y, k, hx, hy, hk, hat⟩ := hin
        obtain rfl : y = y₀ + i' := by omega
        have hleft : x₀ * g.pixelSize ≤ x * g.pixelSize := Nat.mul_le_mul_right _ hx.1
        have hright : (x + 1) * g.pixelSize ≤ (x₀ + w) * g.pixelSize := Nat.mul_le_mul_right _ hx.2
        rw [Nat.add_mul, Nat.add_mul, Nat.one_mul] at hright
        omega
  refine hloop (List.range h) addr (ha.imp_left ?_)
  rintro ⟨x, y, k, hx, hy, hk, hat⟩
  exact ⟨y - y₀, List.mem_range.mpr (by omega), x, y, k, hx, by omega, hk, hat⟩

/-- `fb_flush` has nothing to do only if nothing is marked. -/
theorem Inv.unmarked (h : Inv g s)
    (hor : s.present = false ∨ s.hasBack = false ∨ s.dirty = false) : s.dirty = false := by
  obtain hp | hb | hd := hor
  · exact h.present hp
  · cases h.hasBack.symm.trans hb
  · exact hd

theorem Inv.sameScreen (h : Inv g s) (hdirty : s.dirty = false) : SameScreen g s := by
  intro a ha
  by_cases heq : s.addr a = s.back a
  · exact heq
  · cases hdirty.symm.trans (h.covered a ha heq).1

theorem fbFlush_dirty (h : Inv g s) : (fbFlush g s).dirty = false ∧ (fbFlush g s).dirtyW = 0 ∧
    (fbFlush g s).hasBack = true := by
  have hback := h.hasBack
  unfold fbFlush
  split
  case isTrue hor => exact ⟨h.unmarked hor, h.clean (h.unmarked hor), hback⟩
  case isFalse =>
    split
    · exact ⟨rfl, rfl, hback⟩
    · exact ⟨rfl, rfl, hback⟩

/-- **After `fb_flush` the screen shows the back buffer.** -/
theorem Inv.sameScreen_fbFlush (h : Inv g s) : SameScreen g (fbFlush g s) := by
  intro a ha
  unfold fbFlush
  split
  case isTrue hor => exact h.sameScreen (h.unmarked hor) a ha
  case isFalse hnot =>
    have hdirty : s.dirty = true := by
      cases hd : s.dirty with
      | true => rfl
      | false => exact absurd (.inr (.inr hd)) hnot
    obtain ⟨hpos, hright, hbottom⟩ := h.rect hdirty
    rw [if_neg (by omega)]
    rw [if_neg (by omega), if_neg (by omega)]
    apply copyRows_eq
    by_cases heq : s.addr a = s.back a
    · exact .inr heq
    · exact .inl (h.covered a ha heq).2

theorem Inv.fbFlush (h : Inv g s) : Inv g (fbFlush g s) := by
  obtain ⟨hdirty, hw, hback⟩ := fbFlush_dirty h
  exact ⟨hback, fun _ => hdirty, fun _ => hw, fun hd => (nomatch hdirty.symm.trans hd),
    fun a ha hne => absurd (h.sameScreen_fbFlush a ha) hne⟩

/-- **The step lemma.** -/
theorem Inv.run (h : Inv g s) {c : Call} (hfits : CallFits g font s c) :
    Inv g (run g font s c) := by
  cases c with
  | putchar c => exact h.fbPutchar hfits
  | write str =>
    show Inv g (fbWrite g font s str)
    unfold fbWrite
    split
    · exact h
    · have hchars := h.foldl_fbPutchar str hfits
      rw [if_pos hchars.hasBack]
      exact hchars.fbFlush
  | scroll =>
    show Inv g (fbScroll g s)
    unfold fbScroll
    split
    case isTrue hpresent =>
      have hshift := (h.shiftRowsUp hpresent).1
      rw [if_pos hshift.hasBack]
      exact (hshift.cursor _ _).fbFlush
    case isFalse => exact h
  | clear =>
    show Inv g (fbClear g s)
    unfold fbClear
    split
    case isTrue hpresent =>
      have hrect : s.dirtyW = 0 ∨
          s.dirtyX + s.dirtyW ≤ g.width ∧ s.dirtyY + s.dirtyH ≤ g.height := by
        cases hd : s.dirty with
        | false => exact .inl (h.clean hd)
        | true => exact .inr (h.rect hd).2
      have hfull := markDirty_full (s := { s with
        back := fillLines g 0 g.height s.bgColor s.back, cursorX := 0, cursorY := 0 }) hrect
      dsimp only
      rw [Fb.paint_of_hasBack h.hasBack, hfull, if_pos h.hasBack]
      exact (inv_full (s := { s with
        back := fillLines g 0 g.height s.bgColor s.back, cursorX := 0, cursorY := 0 })
        h.hasBack hpresent).fbFlush
    case isFalse => exact h
  | flush => exact h.fbFlush

/-- The buffers are equal and nothing is marked. -/
structure Start (g : Geometry) (s : Fb) : Prop where
  hasBack : s.hasBack = true
  dirty : s.dirty = false
  dirtyW : s.dirtyW = 0
  same : SameScreen g s

theorem Start.inv (h : Start g s) : Inv g s where
  hasBack := h.hasBack
  present := fun _ => h.dirty
  clean := fun _ => h.dirtyW
  rect := fun hd => (nomatch h.dirty.symm.trans hd)
  covered := fun a ha hne => absurd (h.same a ha) hne

/-- **The screen shows the back buffer after each flush**, for every mode, every font and every
sequence of calls from equal buffers in which no character is drawn to the left of the rectangle or
above it, with a pixel depth of 24 bits or at least 32.  In every state on the way the rectangle
covers all that has changed, a flush shows it, and the calls that flush have shown it. -/
theorem flush_shows_back_buffer (g : Geometry) (font : ℕ → ℕ → ℕ) {s₀ s : Fb} {cs : List Call}
    (hstart : Start g s₀)
    (hrun : RunIn (CallFits g font) (fun s c s' => s' = run g font s c) s₀ cs s) :
    Covered g s ∧ SameScreen g (fbFlush g s) ∧ (s.dirty = false → SameScreen g s) := by
  have hinv : Inv g s := by
    refine RunIn.invariant (Inv g) ?_ hrun hstart.inv
    rintro s c s' h hfits rfl
    exact h.run hfits
  exact ⟨hinv.covered, hinv.sameScreen_fbFlush, hinv.sameScreen⟩

end Proofs

/-! ### Two lines of text -/

/-- The letters `A` to `D` of `font8x16`: sixteen rows of eight pixels each, the uppermost row
first. -/
def letters : List ℕ := [
  0x000010386cc6c6fec6c6c6c600000000, 0x0000fc6666667c66666666fc00000000,
  0x00003c66c2c0c0c0c0c2663c00000000, 0x0000f86c6666666666666cf800000000]

def font8x16 (idx row : ℕ) : ℕ := (letters.getD (idx - 33) 0 >>> (8 * (15 - row))) % 256

/-- Four columns and two rows of text, 32 bits per pixel. -/
def small : Geometry where
  width := 32
  height := 32
  pitch := 128
  bpp := 32
  cols := by decide
  rows := by decide

/-- A black screen, as `fb_init` and `fb_init_buffers` leave it. -/
def black : Fb where
  addr := fun _ => 0
  back := fun _ => 0
  hasBack := true
  present := true
  cursorX := 0
  cursorY := 0
  fgColor := 0x00FFFFFF
  bgColor := 0
  dirty := false
  dirtyX := 0
  dirtyY := 0
  dirtyW := 0
  dirtyH := 0

theorem start_black : Start small black := ⟨rfl, rfl, rfl, fun _ _ => rfl⟩

theorem flush_shows_back_buffer_char :
    SameScreen small (fbFlush small (fbPutchar small font8x16 black 65)) := by
  have hfits : CallFits small font8x16 black (.putchar 65) :=
    fun _ _ _ => ⟨.inr (Nat.le_refl 32), .inl rfl⟩
  exact (flush_shows_back_buffer small font8x16 start_black (.cons ⟨hfits, rfl⟩ (.nil _))).2.1

/-- `AB` is written, then `C`, a new line and `D`: the letter `C` does not appear on the screen.
The byte looked at belongs to its uppermost row. -/
theorem flush_leaves_text_behind :
    ∃ s, [Call.write [65, 66], .write [67, 10, 68]].foldl (run small font8x16) black = s ∧
      s.dirty = false ∧ InRect small 0 0 32 32 (2 * 128 + 18 * 4) ∧
      s.addr (2 * 128 + 18 * 4) = 0 ∧ s.back (2 * 128 + 18 * 4) = 255 := by
  refine ⟨_, rfl, ?_, ⟨18, 2, 0, by decide, by decide, by decide, by decide⟩, ?_, ?_⟩
  · decide +kernel
  · decide +kernel
  · decide +kernel

end AxiomeOS.Console
