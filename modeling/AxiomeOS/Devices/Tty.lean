import AxiomeOS.Lib.Runs
import Mathlib.Logic.Function.Basic

/-!
# The line buffer of the terminal

`tty_input_char` edits `tty_line` at its end while a reader takes bytes from `tty_pos` on.  A
newline or a special key makes the line ready, but what is typed or erased after that changes it
still.

`reads_typed_iff`: a ready line has a byte to read, one that was typed and not erased, exactly as
long as no byte is erased that is the only one left of a ready line.
-/

namespace AxiomeOS.Tty

open Function List Runs

/-- The static data, and as a history the bytes that are typed and neither erased nor read. -/
structure State where
  line : ℕ → UInt8
  len : ℕ
  pos : ℕ
  ready : Bool
  typed : List UInt8

/-- `tty_init`; the array holds anything. -/
def ttyInit (line : ℕ → UInt8) : State := ⟨line, 0, 0, false, []⟩

/-- `tty_line[tty_len++] = c`, if there is room. -/
def State.put (s : State) (c : UInt8) : State :=
  if s.len < 511 then
    { s with line := update s.line s.len c, len := s.len + 1, typed := s.typed ++ [c] }
  else s

def sendEscape (s : State) (seq : List UInt8) : State :=
  { seq.foldl State.put s with ready := true }

/-- The sequences of the special keys, from `TTY_KEY_UP` on. -/
def escapes : List (List UInt8) :=
  [[27, 91, 65], [27, 91, 66], [27, 91, 68], [27, 91, 67], [27, 91, 72], [27, 91, 70],
    [27, 91, 53, 126], [27, 91, 54, 126], [27, 91, 50, 126], [27, 91, 51, 126]]

/-- `tty_input_char`; Ctrl-C goes to the reader and leaves the line alone. -/
def ttyInputChar (s : State) (c : ℕ) : State :=
  if c = 3 then s
  else if 0x100 ≤ c then escapes[c - 0x100]?.elim s (sendEscape s)
  else if c = 13 ∨ c = 10 then { s.put 10 with ready := true }
  else if c = 8 ∨ c = 127 then
    if 0 < s.len ∧ s.line (s.len - 1) ≠ 10 then
      { s with len := s.len - 1, typed := s.typed.dropLast }
    else s
  else if 32 ≤ c ∧ c < 127 then s.put (UInt8.ofNat c)
  else s

/-- A read, blocking or not: the byte `tty_line[tty_pos]` if the line is ready. -/
def ttyReadChar (s : State) : State :=
  if s.ready then
    if s.len ≤ s.pos + 1 then
      { s with ready := false, len := 0, pos := 0, typed := s.typed.tail }
    else { s with pos := s.pos + 1, typed := s.typed.tail }
  else s

inductive Event
  | input (c : ℕ)
  | read

def exec (s : State) : Event → State
  | .input c => ttyInputChar s c
  | .read => ttyReadChar s

/-- A ready line has a byte to read, and it is the first that was typed and not erased. -/
def State.Good (s : State) : Prop :=
  s.ready = true → s.pos < s.len ∧ s.typed.head? = some (s.line s.pos)

/-- **The condition**: the last byte that is left of a ready line is not erased. -/
def Spares (s : State) : Event → Prop
  | .input c => c = 8 ∨ c = 127 → s.ready = true → s.line (s.len - 1) ≠ 10 → s.pos + 1 < s.len
  | .read => True

structure Inv (s : State) : Prop where
  typed : s.typed = ((range s.len).map s.line).drop s.pos
  ready : s.ready = true → s.pos < s.len
  idle : s.ready = false → s.pos = 0

variable {s : State}

theorem Inv.bounds (h : Inv s) : s.pos ≤ s.len ∧ (0 < s.len → s.pos < s.len) := by
  cases hr : s.ready with
  | true =>
    have := h.ready hr
    omega
  | false =>
    have := h.idle hr
    omega

theorem Inv.good (h : Inv s) : s.Good := by
  intro hr
  have hlt := h.ready hr
  refine ⟨hlt, ?_⟩
  simp [h.typed, head?_drop, hlt]

theorem Inv.put (h : Inv s) (c : UInt8) : Inv (s.put c) ∧ 0 < (s.put c).len := by
  have hle := h.bounds.1
  rw [State.put]
  split
  case isTrue =>
    refine ⟨⟨?_, fun hr => Nat.lt_succ_of_lt (h.ready hr), h.idle⟩, Nat.succ_pos _⟩
    have hkeep : (range s.len).map (update s.line s.len c) = (range s.len).map s.line :=
      map_congr_left fun i hi => update_of_ne (Nat.ne_of_lt (mem_range.mp hi)) c s.line
    show s.typed ++ [c] = ((range (s.len + 1)).map (update s.line s.len c)).drop s.pos
    rw [range_succ, map_append, hkeep, drop_append_of_le_length (by simpa using hle), ← h.typed]
    simp
  case isFalse => exact ⟨h, by omega⟩

theorem Inv.raise (h : Inv s) (h0 : 0 < s.len) : Inv { s with ready := true } :=
  ⟨h.typed, fun _ => h.bounds.2 h0, nofun⟩

theorem Inv.sendEscape (h : Inv s) {seq : List UInt8} (hseq : seq ∈ escapes) :
    Inv (sendEscape s seq) := by
  have hne : ∀ seq ∈ escapes, seq ≠ [] := by decide
  obtain ⟨c, cs, rfl⟩ := exists_cons_of_ne_nil (hne seq hseq)
  obtain ⟨hinv, hpos⟩ := foldlRecOn (motive := fun s : State => Inv s ∧ 0 < s.len)
    cs State.put (h.put c)
    fun s hs c _ => hs.1.put c
  exact hinv.raise hpos

/-- **One event** keeps the invariant if it spares the last byte of a ready line. -/
theorem Inv.exec (h : Inv s) (e : Event) (he : Spares s e) : Inv (exec s e) := by
  cases e with
  | input c =>
    rw [Tty.exec, ttyInputChar]
    split
    · exact h
    split
    · cases hseq : escapes[c - 0x100]? with
      | none => exact h
      | some seq => exact h.sendEscape (mem_of_getElem? hseq)
    split
    · exact (h.put 10).1.raise (h.put 10).2
    split
    case isTrue hc =>
      split
      case isTrue herase =>
        have hlt := h.bounds.2 herase.1
        refine ⟨?_, fun hr => Nat.lt_sub_of_add_lt (he hc hr herase.2), h.idle⟩
        obtain ⟨n, hn⟩ : ∃ n, s.len = n + 1 := ⟨s.len - 1, by omega⟩
        simp only [h.typed, hn, range_succ, map_append, Nat.add_sub_cancel]
        rw [drop_append_of_le_length (by simp; omega), map_singleton, dropLast_concat]
      case isFalse => exact h
    split
    · exact (h.put _).1
    · exact h
  | read =>
    rw [Tty.exec, ttyReadChar]
    split
    case isTrue hr =>
      have htail : s.typed.tail = ((range s.len).map s.line).drop (s.pos + 1) := by
        rw [h.typed, tail_drop]
      split
      case isTrue hend => exact ⟨by simpa [htail] using hend, nofun, fun _ => rfl⟩
      case isFalse hmore =>
        exact ⟨htail, fun _ => Nat.lt_of_not_le hmore, fun hf => by cases hr.symm.trans hf⟩
    case isFalse => exact h

/-- **Every byte that is read was typed and not erased**, and a ready line has one, exactly if no
event erases the last byte of a ready line. -/
theorem reads_typed_iff (line : ℕ → UInt8) (es : List Event) :
    (∀ pre, pre <+: es → (pre.foldl exec (ttyInit line)).Good) ↔
      ∀ pre e, pre ++ [e] <+: es → Spares (pre.foldl exec (ttyInit line)) e := by
  refine foldl_property_iff (fun s h => h.good) (fun s e h hgood => ?_) (fun s e h => h.exec e)
    (I := Inv) ⟨rfl, (by cases ·), fun _ => rfl⟩ es
  cases e with
  | read => trivial
  | input c =>
    intro hc hr hlast
    have hlt := h.ready hr
    have herased : exec s (.input c) = { s with len := s.len - 1, typed := s.typed.dropLast } := by
      have hpos : 0 < s.len := by omega
      rcases hc with rfl | rfl <;> simp [exec, ttyInputChar, hpos, hlast]
    rw [herased] at hgood
    have := (hgood hr).1
    dsimp only at this
    omega

/-- **An erased byte is read.**  After `x` and the key up, three bytes are read and the fourth is
erased: the line is still ready, and the next read returns the byte that was erased. -/
theorem erased_byte_is_read :
    let s := [.input 120, .input 0x100, .read, .read, .read, .input 8].foldl exec
      (ttyInit fun _ => 0)
    s.ready = true ∧ s.pos = 3 ∧ s.len = 3 ∧ s.line s.pos = 65 ∧ s.typed = [] := by
  decide

end AxiomeOS.Tty
