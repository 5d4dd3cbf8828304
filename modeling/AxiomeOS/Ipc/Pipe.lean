import AxiomeOS.Lib.Runs
import AxiomeOS.Lib.Slots
import AxiomeOS.Lib.Solo
import Mathlib.Algebra.Group.Nat.Defs

/-!
# Pipes

A pipe is a buffer that grows; a write appends to it, a read takes bytes from its front and moves
the rest down.  A read that finds nothing waits in `sched_suspend`.

System calls run with interrupts disabled, so a call that does not wait is one step.  But
`context_switch` enables interrupts before it returns: a read that had to wait goes on with
interrupts enabled, and the timer may switch to another thread between any two of its steps.  So
such a read is modelled step by step (`Reader`), and a history is any interleaving of calls and of
these steps (`exec`).

`pipe_stream_of_run`: the bytes returned by the reads, followed by the bytes in the buffer, are the
bytes of the accepted writes, in every history in which a read that has waited is left alone
while it takes its bytes.  `pipe_write_lost` is a history in which it is not.
-/

namespace AxiomeOS.Ipc

open Runs Slots Threads Function List Option

variable {r : Reader} {s s' : World} {Q : List UInt8} {t : ℕ}

/-- `struct pipe`, as far as reads and writes use it. -/
structure Pipe where
  buf : ℕ → UInt8
  cap : ℕ
  count : ℕ
  nwriters : ℕ
  waitReader : Option ℕ
  /-- The pipe belongs to a FIFO inode. -/
  shared : Bool
  /-- The address of the buffer: a write that grows the pipe frees the buffer and takes another. -/
  addr : ℕ
  /-- What stands in a buffer that was freed. -/
  freed : ℕ → UInt8

/-- Where a thread stands in `sys_read`.  The bytes `got` are in the caller's buffer. -/
inductive Reader
  | out
  /-- Suspended; `ready` once it was woken. -/
  | blocked (len : ℕ) (ready : Bool)
  /-- At the head of the loop that waits for bytes. -/
  | loop (len : ℕ)
  /-- Has found no bytes, and is about to look for writers. -/
  | empty (len : ℕ)
  /-- About to put itself into `wait_reader`. -/
  | enter (len : ℕ)
  /-- About to call `sched_suspend`. -/
  | suspend (len : ℕ)
  /-- About to fix the number of bytes. -/
  | size (len : ℕ)
  /-- In the loop that copies `r` bytes. -/
  | copy (r i : ℕ) (got : List UInt8)
  /-- Has read the address of the buffer, and is about to read the byte. -/
  | load (r i : ℕ) (got : List UInt8) (addr : ℕ)
  /-- In the loop that moves the rest down. -/
  | shift (r i : ℕ) (got : List UInt8)
  /-- Has read the address of the buffer, and is about to read the byte that is moved. -/
  | move (r i : ℕ) (got : List UInt8) (addr : ℕ)
  /-- Has read the byte that is moved, and is about to store it. -/
  | store (r i : ℕ) (got : List UInt8) (addr : ℕ) (b : UInt8)
  /-- About to subtract `r` from the count and return. -/
  | take (r : ℕ) (got : List UInt8)
deriving DecidableEq

/-- A pipe, the threads that use it, and what they have done so far. -/
structure World where
  pipe : Pipe
  pc : ℕ → Reader
  /-- The bytes returned by the reads, in the order in which they returned. -/
  returned : List UInt8
  /-- The bytes of the writes that were accepted. -/
  accepted : List UInt8

/-- Sizes of mapped memory stay below this, in user space as in the kernel's heap. -/
def maxSize : ℕ := 2 ^ 48

/-! ### Writing -/

/-- `while (ncap < need) ncap *= 2;` -/
def growCap : ℕ → ℕ → ℕ → ℕ
  | 0, ncap, _ => ncap
  | fuel + 1, ncap, need => if ncap < need then growCap fuel (ncap * 2) need else ncap

/-- The capacity after a write of `len` bytes that does not fit. -/
def Pipe.newCap (p : Pipe) (len : ℕ) : ℕ :=
  growCap (p.count + len) (if p.cap = 0 then 256 else p.cap) (p.count + len)

/-- `for (i = 0; i < len; i++) p->buf[p->count++] = s[i];` -/
def Pipe.append (p : Pipe) (bytes : List UInt8) : Pipe :=
  bytes.foldl (fun p b => { p with buf := update p.buf p.count b, count := p.count + 1 }) p

/-- `sys_write_pipe` up to the wake-up; `nb` is what `kmalloc` answers, with whatever the new memory
holds.  `none` when there is no memory. -/
def sysWritePipe (p : Pipe) (bytes : List UInt8) (nb : Option (ℕ → UInt8)) : Option Pipe :=
  if p.cap < p.count + bytes.length then
    nb.map fun nb => Pipe.append
      { p with
        buf := fun i => if i < p.count then p.buf i else nb i
        cap := p.newCap bytes.length
        addr := p.addr + 1
        freed := p.buf }
      bytes
  else some (p.append bytes)

/-- `sched_wake`, on a thread that may be waiting for this pipe. -/
def schedWake (pc : ℕ → Reader) : Option ℕ → ℕ → Reader
  | none => pc
  | some t =>
    match pc t with
    | .blocked len _ => update pc t (.blocked len true)
    | _ => pc

/-- `if (p->wait_reader) { sched_wake(p->wait_reader); p->wait_reader = 0; }` -/
def wakeReader (s : World) : World :=
  { s with
    pc := schedWake s.pc s.pipe.waitReader
    pipe := { s.pipe with waitReader := none } }

/-! ### Reading -/

def World.goto (s : World) (t : ℕ) (r : Reader) : World :=
  { s with pc := update s.pc t r }

/-- The byte at an index of the buffer with this address, which may have been freed. -/
def Pipe.read (p : Pipe) (addr i : ℕ) : UInt8 := if addr = p.addr then p.buf i else p.freed i

/-- A store into the buffer with this address.  Into a buffer that was freed it is lost. -/
def Pipe.put (p : Pipe) (addr i : ℕ) (b : UInt8) : Pipe :=
  { p with buf := if addr = p.addr then update p.buf i b else p.buf }

/-- One step of a thread in `sys_read`. -/
def readerStep (t : ℕ) (s : World) : World :=
  match s.pc t with
  | .out => s
  | .blocked _ _ => s
  | .loop len => if s.pipe.count ≠ 0 then s.goto t (.size len) else s.goto t (.empty len)
  | .empty len => if s.pipe.nwriters = 0 then s.goto t .out else s.goto t (.enter len)
  | .enter len => { s.goto t (.suspend len) with pipe := { s.pipe with waitReader := some t } }
  | .suspend len => s.goto t (.blocked len false)
  | .size len => s.goto t (.copy (if len < s.pipe.count then len else s.pipe.count) 0 [])
  | .copy r i got =>
    if i < r then s.goto t (.load r i got s.pipe.addr) else s.goto t (.shift r 0 got)
  | .load r i got addr => s.goto t (.copy r (i + 1) (got ++ [s.pipe.read addr i]))
  | .shift r i got =>
    if i + r < s.pipe.count then s.goto t (.move r i got s.pipe.addr) else s.goto t (.take r got)
  | .move r i got addr => s.goto t (.store r i got addr (s.pipe.read addr (i + r)))
  | .store r i got addr b =>
    { s.goto t (.shift r (i + 1) got) with pipe := s.pipe.put addr i b }
  | .take r got =>
    { s.goto t .out with
      pipe := { s.pipe with count := (s.pipe.count + (2 ^ 64 - r)) % 2 ^ 64 }
      returned := s.returned ++ got }

/-- With interrupts disabled a thread goes on until it returns or waits. -/
def finish (t : ℕ) : ℕ → World → World
  | 0, s => s
  | fuel + 1, s =>
    match s.pc t with
    | .out => s
    | .blocked _ _ => s
    | _ => finish t fuel (readerStep t s)

/-! ### Histories -/

inductive Event
  /-- A write; `ok` is the answer of `user_range_ok`. -/
  | write (t : ℕ) (bytes : List UInt8) (ok : Bool) (nb : Option (ℕ → UInt8))
  /-- A call of `sys_read`, up to its return or until it waits. -/
  | read (t len : ℕ) (ok : Bool)
  /-- The scheduler switches to a reader that was woken. -/
  | resume (t : ℕ)
  /-- A reader that was switched to makes its next step. -/
  | go (t : ℕ)
  | openWriter
  | closeWriter

/-- `none` for what cannot happen: a thread that waits does not call, memory is not larger than it
is. -/
def exec (s : World) : Event → Option World
  | .write t bytes ok nb =>
    match s.pc t with
    | .out =>
      if bytes ≠ [] ∧ ok = false then some s
      else if maxSize < bytes.length then none
      else
        match sysWritePipe s.pipe bytes nb with
        | none => some s
        | some p =>
          if maxSize < p.cap then none
          else some (wakeReader { s with pipe := p, accepted := s.accepted ++ bytes })
    | _ => none
  | .read t len ok =>
    match s.pc t with
    | .out =>
      if len ≠ 0 ∧ ok = false then some s
      else some (finish t (3 * s.pipe.count + 5) (s.goto t (.loop len)))
    | _ => none
  | .resume t =>
    match s.pc t with
    | .blocked len true => some (s.goto t (.loop len))
    | _ => none
  | .go t =>
    match s.pc t with
    | .out => none
    | .blocked _ _ => none
    | _ => some (readerStep t s)
  | .openWriter => some { s with pipe := { s.pipe with nwriters := s.pipe.nwriters + 1 } }
  | .closeWriter =>
    let s := { s with pipe := { s.pipe with nwriters := s.pipe.nwriters - 1 } }
    some (if s.pipe.shared then s else wakeReader s)

/-! ### What an event does -/

variable {bytes : List UInt8} {ok : Bool} {nb : Option (ℕ → UInt8)} {pc : ℕ → Reader} {t' : ℕ}
  {p : Pipe} {e : Event}

/-- A write is refused, or it appends its bytes and wakes the reader in the slot. -/
theorem exec_write (h : exec s (.write t bytes ok nb) = some s') :
    s' = s ∧ (bytes ≠ [] → ok = true → sysWritePipe s.pipe bytes nb = none) ∨
      ∃ p, sysWritePipe s.pipe bytes nb = some p ∧ (bytes ≠ [] → ok = true) ∧ p.cap ≤ maxSize ∧
        s' = wakeReader { s with pipe := p, accepted := s.accepted ++ bytes } := by
  simp only [exec] at h
  split at h
  · split at h
    · rename_i hrefused
      exact .inl ⟨(some.inj h).symm, fun _ hok => absurd (hok.symm.trans hrefused.2) (by decide)⟩
    split at h
    · cases h
    rename_i hok _
    split at h
    · rename_i hp
      exact .inl ⟨(some.inj h).symm, fun _ _ => hp⟩
    · rename_i p hp
      split at h
      · cases h
      · rename_i hcap
        refine .inr ⟨p, hp, fun hne => ?_, Nat.le_of_not_lt hcap, (some.inj h).symm⟩
        exact Bool.of_not_eq_false fun hfalse => hok ⟨hne, hfalse⟩
  · cases h

theorem exec_read {len : ℕ} (h : exec s (.read t len ok) = some s') :
    s.pc t = .out ∧ (s' = s ∨ s' = finish t (3 * s.pipe.count + 5) (s.goto t (.loop len))) := by
  simp only [exec] at h
  split at h
  · rename_i hpc
    split at h
    · exact ⟨hpc, .inl (some.inj h).symm⟩
    · exact ⟨hpc, .inr (some.inj h).symm⟩
  · cases h

theorem exec_resume (h : exec s (.resume t) = some s') :
    ∃ len, s.pc t = .blocked len true ∧ s' = s.goto t (.loop len) := by
  simp only [exec] at h
  split at h
  · rename_i len hpc
    exact ⟨len, hpc, (some.inj h).symm⟩
  · cases h

theorem exec_go (h : exec s (.go t) = some s') : s.pc t ≠ .out ∧ s' = readerStep t s := by
  simp only [exec] at h
  split at h
  · cases h
  · cases h
  · rename_i hout _
    exact ⟨hout, (some.inj h).symm⟩

/-- A wake-up changes nothing, or it makes the blocked thread it is for ready. -/
theorem schedWake_cases (pc : ℕ → Reader) (who : Option ℕ) (t : ℕ) :
    schedWake pc who t = pc t ∧ (who = some t → ∀ len, pc t ≠ .blocked len false) ∨
      ∃ len ready, who = some t ∧ pc t = .blocked len ready ∧
        schedWake pc who t = .blocked len true := by
  cases who with
  | none => exact .inl ⟨rfl, nofun⟩
  | some u =>
    cases hpc : pc u with
    | blocked len ready =>
      simp only [schedWake, hpc]
      by_cases htu : t = u
      · subst htu
        exact .inr ⟨len, ready, rfl, hpc, update_self t _ pc⟩
      · rw [update_of_ne htu]
        exact .inl ⟨rfl, fun heq => absurd (some.inj heq).symm htu⟩
    | _ =>
      simp only [schedWake, hpc]
      refine .inl ⟨trivial, ?_⟩
      rintro ⟨⟩ len hb
      cases hpc.symm.trans hb

theorem schedWake_out {who : Option ℕ} (h : pc t = .out) : schedWake pc who t = .out := by
  obtain ⟨heq, -⟩ | ⟨len, ready, -, hpc, -⟩ := schedWake_cases pc who t
  · exact heq.trans h
  · cases h.symm.trans hpc

/-- A reader that has fixed how many bytes it takes and has not returned. -/
def Reader.busy : Reader → Bool
  | .copy _ _ _ | .load _ _ _ _ | .shift _ _ _ | .move _ _ _ _ | .store _ _ _ _ _
  | .take _ _ => true
  | _ => false

/-- A reader that has begun to remove its bytes. -/
def Reader.moving : Reader → Bool
  | .shift _ _ _ | .move _ _ _ _ | .store _ _ _ _ _ | .take _ _ => true
  | _ => false

/-- A reader that has moved the rest down and not yet corrected the count. -/
def Reader.taking : Reader → Bool
  | .take _ _ => true
  | _ => false

/-- The guard on histories: while a reader is busy no other thread reads and no write grows the
buffer, and while it is about to correct the count nobody writes. -/
def Undisturbed (s : World) : Event → Prop
  | .write _ bytes _ _ => ∀ t, (s.pc t).taking = false ∧
      (s.pipe.cap < s.pipe.count + bytes.length → (s.pc t).busy = false)
  | .read t _ _ => ∀ t', t' ≠ t → (s.pc t').busy = false
  | .go t => ∀ t', t' ≠ t → (s.pc t').busy = false
  | _ => True

/-! ### The invariant -/

/-- `r` bytes have been copied, and `i` of those behind them moved down. -/
def Moved (buf : ℕ → UInt8) (Q : List UInt8) (r i : ℕ) (got : List UInt8) : Prop :=
  got = Q.take r ∧ (∀ j < i, Q[j + r]? = some (buf j)) ∧
    ∀ j, i ≤ j → j < Q.length → Q[j]? = some (buf j)

/-- What a busy reader knows: `Q` are the bytes that are queued, its own included. -/
def Held (buf : ℕ → UInt8) (addr : ℕ) (Q : List UInt8) : Reader → Prop
  | .copy r i got => i ≤ r ∧ r ≤ Q.length ∧ got = Q.take i
  | .load r i got a => (i < r ∧ r ≤ Q.length ∧ got = Q.take i) ∧ a = addr
  | .shift r i got => i + r ≤ Q.length ∧ Moved buf Q r i got
  | .move r i got a => i + r < Q.length ∧ Moved buf Q r i got ∧ a = addr
  | .store r i got a b =>
    i + r < Q.length ∧ Moved buf Q r i got ∧ a = addr ∧ Q[i + r]? = some b
  | .take r got =>
    r ≤ Q.length ∧ got = Q.take r ∧ ∀ j, j + r < Q.length → Q[j + r]? = some (buf j)
  | _ => True

/-- **The invariant.**  The accepted bytes are the returned ones followed by a queue `Q`; the buffer
holds the queue unless a reader is removing its bytes from it. -/
structure Inv (s : World) (Q : List UInt8) : Prop where
  stream : s.accepted = s.returned ++ Q
  count : s.pipe.count = Q.length
  room : s.pipe.count ≤ s.pipe.cap
  bound : s.pipe.cap ≤ maxSize
  alone : ∀ t t', (s.pc t).busy = true → (s.pc t').busy = true → t = t'
  still : (∀ t, (s.pc t).moving = false) → cells s.pipe.buf s.pipe.count = Q
  held : ∀ t, Held s.pipe.buf s.pipe.addr Q (s.pc t)

theorem idle (buf : ℕ → UInt8) (addr : ℕ) (Q : List UInt8) (r : Reader) (h : r.busy = false) :
    r.moving = false ∧ Held buf addr Q r := by
  cases r <;> simp_all [Reader.busy, Reader.moving, Held]

theorem Inv.get_still (h : Inv s Q)
    (hstill : ∀ t, (s.pc t).moving = false) {j : ℕ} (hj : j < Q.length) :
    Q[j]? = some (s.pipe.buf j) := by
  have hcells := cells_eq_iff.mp (h.still hstill)
  exact hcells.2 j (by rw [h.count]; exact hj)

/-! ### The steps of a reader -/

@[simp] theorem goto_pc_self (s : World) (t : ℕ) (r : Reader) : (s.goto t r).pc t = r := by
  show update s.pc t r t = r
  rw [update_self]

theorem goto_pc_of_ne (s : World) (r : Reader) (h : t' ≠ t) : (s.goto t r).pc t' = s.pc t' := by
  show update s.pc t r t' = s.pc t'
  rw [update_of_ne h]

section

variable (h : Inv s Q) (hothers : ∀ t', t' ≠ t → (s.pc t').busy = false)
include h hothers

/-- A thread that is the only one allowed to be busy moves on; only its own part of the invariant
has to be shown. -/
theorem Inv.advance {buf : ℕ → UInt8} (hheld : Held buf s.pipe.addr Q r)
    (hstill : r.moving = false → cells buf s.pipe.count = Q) :
    Inv { s.goto t r with pipe := { s.pipe with buf := buf } } Q := by
  obtain ⟨halone, hstill, hheld⟩ := solo_update (idle buf s.pipe.addr Q) hothers hheld hstill
  exact ⟨h.stream, h.count, h.room, h.bound, halone, hstill, hheld⟩

theorem Inv.goto {r₀ : Reader} (hpc : s.pc t = r₀) (hmoving : r₀.moving = false)
    (hheld : Held s.pipe.buf s.pipe.addr Q r) : Inv (s.goto t r) Q :=
  h.advance hothers hheld fun _ =>
    h.still (not_mid (idle s.pipe.buf s.pipe.addr Q) hothers (hpc ▸ hmoving))

/-- **One step of a reader** that no other reader disturbs keeps the invariant, for the queue
without the bytes it has returned. -/
theorem Inv.readerStep : ∃ Q', Inv (readerStep t s) Q' := by
  have hheld := h.held t
  unfold Ipc.readerStep
  generalize hpc : s.pc t = r₀ at hheld ⊢
  cases r₀ with
  | out | blocked => exact ⟨Q, h⟩
  | loop len | empty len =>
    dsimp only
    split <;> exact ⟨Q, h.goto hothers hpc rfl trivial⟩
  | enter len =>
    have hgoto : Inv (s.goto t (.suspend len)) Q := h.goto hothers hpc rfl trivial
    exact ⟨Q, { hgoto with }⟩
  | suspend len => exact ⟨Q, h.goto hothers hpc rfl trivial⟩
  | size len =>
    refine ⟨Q, h.goto hothers hpc rfl ⟨Nat.zero_le _, ?_, rfl⟩⟩
    rw [← h.count]
    split
    · omega
    · exact Nat.le_refl _
  | copy r i got =>
    obtain ⟨hir, hrQ, hgot⟩ := hheld
    dsimp only
    split
    · rename_i hlt
      exact ⟨Q, h.goto hothers hpc rfl ⟨⟨hlt, hrQ, hgot⟩, rfl⟩⟩
    · have hi : i = r := by omega
      refine ⟨Q, h.goto hothers hpc rfl ⟨by omega, by rw [hgot, hi], ?_, ?_⟩⟩
      · intro j hj
        omega
      · intro j _ hj
        exact h.get_still (not_mid (idle s.pipe.buf s.pipe.addr Q) hothers (by rw [hpc]; rfl)) hj
  | load r i got addr =>
    obtain ⟨⟨hir, hrQ, hgot⟩, rfl⟩ := hheld
    have hmid := not_mid (idle s.pipe.buf s.pipe.addr Q) hothers (by rw [hpc]; rfl)
    refine ⟨Q, h.goto hothers hpc rfl ⟨hir, hrQ, ?_⟩⟩
    rw [take_add_one, h.get_still hmid (by omega), hgot, Pipe.read, if_pos rfl]
    rfl
  | shift r i got =>
    obtain ⟨hlen, hmoved⟩ := hheld
    have hcount := h.count
    dsimp only
    split
    · exact ⟨Q, h.advance hothers ⟨by omega, hmoved, rfl⟩ (nofun)⟩
    · obtain ⟨hgot, hlow, -⟩ := hmoved
      refine ⟨Q, h.advance hothers ⟨by omega, hgot, ?_⟩ (nofun)⟩
      intro j hj
      exact hlow j (by omega)
  | move r i got addr =>
    obtain ⟨hlen, hmoved, rfl⟩ := hheld
    refine ⟨Q, h.advance hothers ⟨hlen, hmoved, rfl, ?_⟩ (nofun)⟩
    rw [Pipe.read, if_pos rfl]
    exact hmoved.2.2 (i + r) (by omega) hlen
  | store r i got addr b =>
    obtain ⟨hlen, ⟨hgot, hlow, hhigh⟩, rfl, hb⟩ := hheld
    simp only [Pipe.put, if_pos]
    refine ⟨Q, h.advance hothers ⟨by omega, hgot, ?_, ?_⟩ (nofun)⟩
    · intro j hj
      by_cases hji : j = i
      · rw [hji, update_self]
        exact hb
      · rw [update_of_ne hji]
        exact hlow j (by omega)
    · intro j hij hj
      rw [update_of_ne (by omega)]
      exact hhigh j (by omega) hj
  | take r got =>
    obtain ⟨hrQ, hgot, hbuf⟩ := hheld
    have hbound := h.bound
    have hroom := h.room
    have hcount := h.count
    unfold maxSize at hbound
    have hsub : (s.pipe.count + (2 ^ 64 - r)) % 2 ^ 64 = Q.length - r := by omega
    have hcells : cells s.pipe.buf ((s.pipe.count + (2 ^ 64 - r)) % 2 ^ 64) = Q.drop r := by
      rw [hsub, cells_eq_iff]
      refine ⟨length_drop, ?_⟩
      intro j hj
      rw [getElem?_drop, Nat.add_comm]
      exact hbuf j (by omega)
    obtain ⟨halone, hstill, hheld⟩ :=
      solo_update (idle s.pipe.buf s.pipe.addr (Q.drop r)) hothers (r := .out) trivial
        fun _ => hcells
    refine ⟨Q.drop r, ?_, ?_, ?_, h.bound, halone, hstill, hheld⟩
    · show s.accepted = (s.returned ++ got) ++ Q.drop r
      rw [hgot, append_assoc, take_append_drop, h.stream]
    · show (s.pipe.count + (2 ^ 64 - r)) % 2 ^ 64 = _
      rw [hsub, length_drop]
    · show (s.pipe.count + (2 ^ 64 - r)) % 2 ^ 64 ≤ s.pipe.cap
      omega

end

theorem readerStep_pc_of_ne (s : World) (h : t' ≠ t) : (readerStep t s).pc t' = s.pc t' := by
  unfold readerStep
  repeat' split
  all_goals first | rfl | exact goto_pc_of_ne s _ h

/-- What each step keeps is kept with interrupts disabled. -/
theorem finish_keeps {P : World → Prop} (hstep : ∀ s, P s → P (readerStep t s)) (h : P s)
    (fuel : ℕ) : P (finish t fuel s) := by
  induction fuel generalizing s with
  | zero => exact h
  | succ fuel ih =>
    unfold finish
    split
    · exact h
    · exact h
    · exact ih (hstep s h)

theorem Inv.finish (h : Inv s Q) (hothers : ∀ t', t' ≠ t → (s.pc t').busy = false) (fuel : ℕ) :
    ∃ Q', Inv (finish t fuel s) Q' := by
  refine (finish_keeps (P := fun s => (∃ Q, Inv s Q) ∧ ∀ t', t' ≠ t → (s.pc t').busy = false) ?_
    ⟨⟨Q, h⟩, hothers⟩ fuel).1
  rintro s ⟨⟨Q, h⟩, hothers⟩
  refine ⟨h.readerStep hothers, fun t' hne => ?_⟩
  rw [readerStep_pc_of_ne s hne]
  exact hothers t' hne

/-- The reader has returned or waits. -/
def Reader.stopped : Reader → Bool
  | .out | .blocked _ _ => true
  | _ => false

/-- The steps a reader still has to make, from what it knows. -/
def Reader.remaining (count : ℕ) : Reader → ℕ
  | .out | .blocked _ _ => 0
  | .loop _ => 3 * count + 5
  | .empty _ => 3
  | .enter _ => 2
  | .suspend _ => 1
  | .size _ => 3 * count + 4
  | .copy r i _ => 2 * (r - i) + 3 * (count - r) + 3
  | .load r i _ _ => 2 * (r - i) + 3 * (count - r) + 2
  | .shift r i _ => 3 * (count - r - i) + 2
  | .move r i _ _ => 3 * (count - r - i) + 1
  | .store r i _ _ _ => 3 * (count - r - i - 1) + 3
  | .take _ _ => 1

theorem Reader.stopped_of_remaining {count : ℕ} (h : r.remaining count = 0) : r.stopped = true := by
  cases r <;> simp_all [Reader.remaining, Reader.stopped]

theorem readerStep_remaining (h : Inv s Q) :
    ((readerStep t s).pc t).remaining (readerStep t s).pipe.count ≤
      (s.pc t).remaining s.pipe.count - 1 := by
  have hheld := h.held t
  unfold readerStep
  generalize hpc : s.pc t = r₀ at hheld ⊢
  cases r₀ with
  | out | blocked =>
    rw [hpc]
    exact Nat.le_refl _
  | enter len | suspend len | take r got =>
    rw [goto_pc_self]
    exact Nat.le_refl _
  | size len =>
    rw [goto_pc_self]
    simp only [Reader.remaining, World.goto]
    split <;> omega
  | copy r i got =>
    obtain ⟨hir, -, -⟩ := hheld
    dsimp only
    split
    all_goals
      simp only [World.goto, update_self, Reader.remaining]
      omega
  | load r i got addr =>
    obtain ⟨⟨hir, -, -⟩, -⟩ := hheld
    simp only [World.goto, update_self, Reader.remaining]
    omega
  | move r i got addr =>
    have hlen := hheld.1
    rw [← h.count] at hlen
    simp only [World.goto, update_self, Reader.remaining]
    omega
  | store r i got addr b =>
    simp only [World.goto, update_self, Reader.remaining, Pipe.put]
    omega
  | loop len | empty len | shift r i got =>
    dsimp only
    split
    all_goals
      simp only [World.goto, update_self, Reader.remaining]
      omega

/-- The steps that `sys_read` is given are enough for it to return or to wait. -/
theorem finish_ends (h : Inv s Q) (hothers : ∀ t', t' ≠ t → (s.pc t').busy = false) {fuel : ℕ}
    (hfuel : (s.pc t).remaining s.pipe.count ≤ fuel) :
    ((finish t fuel s).pc t).stopped = true := by
  induction fuel generalizing s Q with
  | zero => exact Reader.stopped_of_remaining (Nat.le_zero.mp hfuel)
  | succ fuel ih =>
    obtain ⟨Q', h'⟩ := h.readerStep hothers
    have hless := readerStep_remaining (t := t) h
    unfold finish
    split
    case h_3 =>
      refine ih h' (fun t' hne => ?_) (by omega)
      rw [readerStep_pc_of_ne s hne]
      exact hothers t' hne
    all_goals
      rename_i hpc
      rw [hpc]
      rfl

/-! ### Writing and waking -/

theorem le_growCap (fuel ncap need : ℕ) (hpos : 0 < ncap) (h : need ≤ ncap + fuel) :
    need ≤ growCap fuel ncap need := by
  induction fuel generalizing ncap with
  | zero => exact h
  | succ fuel ih =>
    rw [growCap]
    split
    · exact ih (ncap * 2) (by omega) (by omega)
    · omega

theorem Pipe.le_newCap (p : Pipe) (len : ℕ) : p.count + len ≤ p.newCap len := by
  refine le_growCap _ _ _ ?_ (Nat.le_add_left _ _)
  split
  · decide
  · omega

/-- A written byte stands behind those that were there. -/
theorem Pipe.append_eq (p : Pipe) (bytes : List UInt8) :
    (p.append bytes).count = p.count + bytes.length ∧ (p.append bytes).cap = p.cap ∧
      (p.append bytes).waitReader = p.waitReader ∧ (p.append bytes).nwriters = p.nwriters ∧
      (p.append bytes).addr = p.addr ∧ (∀ j < p.count, (p.append bytes).buf j = p.buf j) ∧
      ∀ k < bytes.length, bytes[k]? = some ((p.append bytes).buf (p.count + k)) := by
  induction bytes generalizing p with
  | nil =>
    exact ⟨rfl, rfl, rfl, rfl, rfl, fun _ _ => rfl, fun k hk => absurd hk (Nat.not_lt_zero k)⟩
  | cons b bytes ih =>
    obtain ⟨hcount, hcap, hwait, hwriters, haddr, hlow, hnew⟩ :=
      ih { p with buf := update p.buf p.count b, count := p.count + 1 }
    refine ⟨?_, hcap, hwait, hwriters, haddr, ?_, ?_⟩
    · rw [length_cons]
      exact hcount.trans (by dsimp only; omega)
    · intro j hj
      refine (hlow j (Nat.lt_succ_of_lt hj)).trans ?_
      exact update_of_ne (Nat.ne_of_lt hj) b p.buf
    · intro k hk
      cases k with
      | zero =>
        rw [getElem?_cons_zero, Nat.add_zero]
        refine congrArg some ?_
        refine Eq.trans ?_ (hlow p.count (Nat.lt_succ_self _)).symm
        exact (update_self p.count b p.buf).symm
      | succ k =>
        rw [getElem?_cons_succ, hnew k (by simpa using hk)]
        rw [show p.count + (k + 1) = p.count + 1 + k by omega]
        rfl

theorem schedWake_eq (pc : ℕ → Reader) (who : Option ℕ) (t : ℕ) :
    schedWake pc who t = pc t ∨ (pc t).busy = false ∧ (schedWake pc who t).busy = false := by
  obtain ⟨heq, -⟩ | ⟨len, ready, -, hpc, hwoken⟩ := schedWake_cases pc who t
  · exact .inl heq
  · rw [hwoken, hpc]
    exact .inr ⟨rfl, rfl⟩

/-- Readers that are not busy may be anywhere. -/
theorem Inv.relabel (h : Inv s Q)
    (hpc : ∀ t, pc t = s.pc t ∨ (s.pc t).busy = false ∧ (pc t).busy = false) :
    Inv { s with pc := pc } Q := by
  obtain ⟨halone, hstill, hheld⟩ :=
    Solo.relabel (idle s.pipe.buf s.pipe.addr Q) ⟨h.alone, h.still, h.held⟩ hpc
  exact { h with alone := halone, still := hstill, held := hheld }

theorem Inv.wakeReader (h : Inv s Q) : Inv (wakeReader s) Q :=
  { h.relabel (schedWake_eq s.pc s.pipe.waitReader) with }

/-- **A write** appends to the queue, whatever the readers are doing, unless one of them has
finished moving bytes, or the buffer is another one. -/
theorem Inv.write (h : Inv s Q) (htaking : ∀ t, (s.pc t).taking = false)
    (haddr : p.addr = s.pipe.addr ∨ ∀ t, (s.pc t).busy = false)
    (hcount : p.count = s.pipe.count + bytes.length) (hroom : p.count ≤ p.cap)
    (hcap : p.cap ≤ maxSize) (hlow : ∀ j < s.pipe.count, p.buf j = s.pipe.buf j)
    (hnew : ∀ k < bytes.length, bytes[k]? = some (p.buf (s.pipe.count + k))) :
    Inv { s with pipe := p, accepted := s.accepted ++ bytes } (Q ++ bytes) := by
  have hQ := h.count
  have hget : ∀ j, s.pipe.count ≤ j → j < (Q ++ bytes).length →
      (Q ++ bytes)[j]? = some (p.buf j) := by
    intro j hle hj
    rw [length_append] at hj
    rw [getElem?_append_right (by omega), hnew _ (by omega)]
    rw [show s.pipe.count + (j - Q.length) = j by omega]
  have hold : ∀ j, j < Q.length → Q[j]? = some (s.pipe.buf j) →
      (Q ++ bytes)[j]? = some (p.buf j) := by
    intro j hj hjQ
    rw [getElem?_append_left hj, hjQ, hlow j (by omega)]
  refine ⟨?_, ?_, hroom, hcap, h.alone, ?_, ?_⟩
  · rw [h.stream, append_assoc]
  · rw [hcount, hQ, length_append]
  · intro hall
    show cells p.buf p.count = _
    rw [cells_eq_iff]
    refine ⟨by rw [hcount, hQ, length_append], ?_⟩
    intro j hj
    by_cases hjQ : j < Q.length
    · exact hold j hjQ (h.get_still hall hjQ)
    · exact hget j (by omega) (by rw [length_append]; omega)
  · have hmoved : ∀ {r i got}, i + r ≤ Q.length → Moved s.pipe.buf Q r i got →
        Moved p.buf (Q ++ bytes) r i got := by
      rintro r i got hlen ⟨hgot, hmoved, hrest⟩
      refine ⟨?_, ?_, ?_⟩
      · rw [take_append_of_le_length (by omega)]
        exact hgot
      · intro j hj
        rw [getElem?_append_left (by omega), hlow j (by omega)]
        exact hmoved j hj
      · intro j hij hj
        by_cases hjQ : j < Q.length
        · exact hold j hjQ (hrest j hij hjQ)
        · exact hget j (by omega) hj
    intro t
    have hheld := h.held t
    have ht := htaking t
    rcases haddr with haddr | hidle
    case inr => exact (idle _ _ _ _ (hidle t)).2
    show Held p.buf p.addr (Q ++ bytes) (s.pc t)
    generalize s.pc t = r at hheld ht ⊢
    cases r with
    | copy r i got =>
      obtain ⟨hir, hrQ, hgot⟩ := hheld
      refine ⟨hir, by rw [length_append]; omega, ?_⟩
      rw [take_append_of_le_length (by omega)]
      exact hgot
    | load r i got addr =>
      obtain ⟨⟨hir, hrQ, hgot⟩, ha⟩ := hheld
      refine ⟨⟨hir, by rw [length_append]; omega, ?_⟩, ha.trans haddr.symm⟩
      rw [take_append_of_le_length (by omega)]
      exact hgot
    | shift r i got =>
      obtain ⟨hlen, hm⟩ := hheld
      exact ⟨by rw [length_append]; omega, hmoved hlen hm⟩
    | move r i got addr =>
      obtain ⟨hlen, hm, ha⟩ := hheld
      exact ⟨by rw [length_append]; omega, hmoved (by omega) hm, ha.trans haddr.symm⟩
    | store r i got addr b =>
      obtain ⟨hlen, hm, ha, hb⟩ := hheld
      refine ⟨by rw [length_append]; omega, hmoved (by omega) hm, ha.trans haddr.symm, ?_⟩
      rw [getElem?_append_left hlen]
      exact hb
    | take r got => cases ht
    | out | blocked | loop | empty | enter | suspend | size => trivial

/-- What `sys_write_pipe` makes of the pipe when it accepts the bytes. -/
theorem sysWritePipe_eq {p' : Pipe} (h : sysWritePipe p bytes nb = some p') :
    p'.count = p.count + bytes.length ∧ p'.count ≤ p'.cap ∧ p'.waitReader = p.waitReader ∧
      p'.nwriters = p.nwriters ∧ (p'.addr = p.addr ∨ p.cap < p.count + bytes.length) ∧
      (∀ j < p.count, p'.buf j = p.buf j) ∧
      ∀ k < bytes.length, bytes[k]? = some (p'.buf (p.count + k)) := by
  unfold sysWritePipe at h
  split at h
  · rename_i hgrow
    obtain ⟨mem, -, rfl⟩ := map_eq_some_iff.mp h
    obtain ⟨hcount, hcap, hwait, hwriters, -, hlow, hnew⟩ := Pipe.append_eq
      { p with
        buf := fun i => if i < p.count then p.buf i else mem i
        cap := p.newCap bytes.length
        addr := p.addr + 1
        freed := p.buf } bytes
    refine ⟨hcount, ?_, hwait, hwriters, .inr hgrow, ?_, hnew⟩
    · rw [hcount, hcap]
      exact p.le_newCap bytes.length
    · intro j hj
      rw [hlow j hj]
      exact if_pos hj
  · cases h
    obtain ⟨hcount, hcap, hwait, hwriters, haddr, hrest⟩ := p.append_eq bytes
    refine ⟨hcount, ?_, hwait, hwriters, .inl haddr, hrest⟩
    omega

/-! ### Histories -/

/-- **One event.** -/
theorem Inv.exec (h : Inv s Q) (hguard : Undisturbed s e) (hexec : exec s e = some s') :
    ∃ Q', Inv s' Q' := by
  cases e with
  | write t bytes ok nb =>
    obtain ⟨rfl, -⟩ | ⟨p, hp, -, hcap, rfl⟩ := exec_write hexec
    · exact ⟨Q, h⟩
    · obtain ⟨hcount, hroom, -, -, haddr, hlow, hnew⟩ := sysWritePipe_eq hp
      have haddr : p.addr = s.pipe.addr ∨ ∀ t, (s.pc t).busy = false :=
        haddr.imp_right fun hgrow t => (hguard t).2 hgrow
      exact ⟨Q ++ bytes,
        (h.write (fun t => (hguard t).1) haddr hcount hroom hcap hlow hnew).wakeReader⟩
  | read t len ok =>
    obtain ⟨hpc, rfl | rfl⟩ := exec_read hexec
    · exact ⟨Q, h⟩
    · have hloop : Inv (s.goto t (.loop len)) Q := h.goto hguard hpc rfl trivial
      refine hloop.finish (fun t' hne => ?_) _
      rw [goto_pc_of_ne s _ hne]
      exact hguard t' hne
  | resume t =>
    obtain ⟨len, hpc, rfl⟩ := exec_resume hexec
    refine ⟨Q, h.relabel fun t' => ?_⟩
    by_cases hne : t' = t
    · subst hne
      rw [update_self, hpc]
      exact .inr ⟨rfl, rfl⟩
    · rw [update_of_ne hne]
      exact .inl rfl
  | go t =>
    rw [(exec_go hexec).2]
    exact h.readerStep hguard
  | openWriter =>
    cases hexec
    exact ⟨Q, { h with }⟩
  | closeWriter =>
    have hclose : Inv { s with pipe := { s.pipe with nwriters := s.pipe.nwriters - 1 } } Q :=
      { h with }
    simp only [Ipc.exec] at hexec
    split at hexec
    · cases hexec
      exact ⟨Q, hclose⟩
    · cases hexec
      exact ⟨Q, hclose.wakeReader⟩

/-- A pipe as `sys_pipe` or `mkfifo` makes it, before anyone uses it. -/
def fresh (buf : ℕ → UInt8) (nwriters : ℕ) (shared : Bool) : World where
  pipe := ⟨buf, 256, 0, nwriters, none, shared, 0, buf⟩
  pc _ := .out
  returned := []
  accepted := []

theorem inv_fresh (buf : ℕ → UInt8) (nwriters : ℕ) (shared : Bool) :
    Inv (fresh buf nwriters shared) [] where
  stream := rfl
  count := rfl
  room := Nat.zero_le _
  bound := show 256 ≤ 2 ^ 48 by decide
  alone := by
    exact nofun
  still := fun _ => rfl
  held := fun _ => trivial

/-- What the property asks: unless a reader is in the middle of removing its bytes, the bytes
returned by the reads and those in the buffer are the bytes of the accepted writes. -/
def Conserved (s : World) : Prop :=
  (∀ t, (s.pc t).moving = false) →
    s.returned ++ cells s.pipe.buf s.pipe.count = s.accepted

/-- **A pipe is a queue of bytes.**  In every history of reads and writes of any sizes by any
threads, including failed calls, waiting readers and closed ends, in which a reader that has
waited is left alone while it takes its bytes: in every state reached, the bytes returned so far
and the bytes in the buffer are together the bytes that were accepted, in order, and a call of
`sys_read` returns or waits. -/
theorem pipe_stream_of_run (buf : ℕ → UInt8) (nwriters : ℕ) (shared : Bool) {es : List Event}
    {s : World}
    (hrun : RunIn Undisturbed (fun s e s' => exec s e = some s') (fresh buf nwriters shared) es s) :
    Conserved s ∧ ∀ t len ok s', Undisturbed s (.read t len ok) →
      exec s (.read t len ok) = some s' → (s'.pc t).stopped = true := by
  obtain ⟨Q, h⟩ := RunIn.invariant (fun s => ∃ Q, Inv s Q)
    (fun s e s' ⟨Q, hQ⟩ hguard hexec => hQ.exec hguard hexec) hrun
    ⟨[], inv_fresh buf nwriters shared⟩
  refine ⟨fun hall => by rw [h.still hall, h.stream], ?_⟩
  intro t len ok s' hguard hread
  obtain ⟨hpc, rfl | rfl⟩ := exec_read hread
  · rw [hpc]
    rfl
  · have hloop : Inv (s.goto t (.loop len)) Q := h.goto hguard hpc rfl trivial
    refine finish_ends hloop (fun t' hne => ?_) ?_
    · rw [goto_pc_of_ne s _ hne]
      exact hguard t' hne
    · rw [goto_pc_self]
      exact Nat.le_refl _

theorem pipe_stream_of_run_simple : ∃ s, execList exec (fresh (fun _ => 0) 1 false)
        [.write 2 [65, 66, 67] true none, .read 1 2 true] = some s ∧ Conserved s := by
  refine ⟨_, rfl, (pipe_stream_of_run (fun _ => 0) 1 false
    (.cons (a := .write 2 [65, 66, 67] true none) ⟨?_, rfl⟩
      (.cons (a := .read 1 2 true) ⟨?_, rfl⟩ (.nil _)))).1⟩
  · exact fun _ => ⟨rfl, fun _ => rfl⟩
  · exact fun _ _ => rfl

/-! ### A reader that is disturbed -/

/-- A thread that does not read is not affected by what the others do. -/
theorem exec_pc_out (hpc : s.pc t = .out)
    (hread : ∀ len ok, e ≠ .read t len ok) (h : exec s e = some s') : s'.pc t = .out := by
  cases e with
  | write t' bytes ok nb =>
    obtain ⟨rfl, -⟩ | ⟨p, -, -, -, rfl⟩ := exec_write h
    · exact hpc
    · exact schedWake_out hpc
  | read t' len ok =>
    have hne : t ≠ t' := fun heq => hread len ok (heq ▸ rfl)
    obtain ⟨-, rfl | rfl⟩ := exec_read h
    · exact hpc
    · exact finish_keeps (fun s hs => (readerStep_pc_of_ne s hne).trans hs)
        ((goto_pc_of_ne s _ hne).trans hpc) _
  | resume t' =>
    obtain ⟨len, hpc', rfl⟩ := exec_resume h
    refine (goto_pc_of_ne s _ ?_).trans hpc
    rintro rfl
    cases hpc.symm.trans hpc'
  | go t' =>
    obtain ⟨hout, rfl⟩ := exec_go h
    refine (readerStep_pc_of_ne s ?_).trans hpc
    rintro rfl
    exact hout hpc
  | openWriter =>
    cases h
    exact hpc
  | closeWriter =>
    simp only [exec] at h
    split at h
    · cases h
      exact hpc
    · cases h
      exact schedWake_out hpc

theorem execList_pc_out {es : List Event} (hpc : s.pc t = .out)
    (hread : ∀ e ∈ es, ∀ len ok, e ≠ .read t len ok) (h : execList exec s es = some s') :
    s'.pc t = .out := by
  induction es generalizing s with
  | nil =>
    cases h
    exact hpc
  | cons e es ih =>
    obtain ⟨s1, hs1, hrest⟩ := bind_eq_some_iff.mp h
    exact ih (exec_pc_out hpc (hread e mem_cons_self) hs1)
      (fun e' he' => hread e' (mem_cons_of_mem e he')) hrest

/-- Thread 1 waits for a byte, thread 2 writes `A`, thread 1 copies it and finds nothing to move
down; before it corrects the count, thread 2 writes `B`. -/
def disturbed : List Event :=
  [.read 1 1 true, .write 2 [65] true none, .resume 1, .go 1, .go 1, .go 1, .go 1, .go 1, .go 1,
    .write 2 [66] true none, .go 1]

/-- The byte `B` is gone, and `A` is in the pipe a second time, with no read under way. -/
theorem pipe_write_lost : ∃ s, execList exec (fresh (fun _ => 0) 1 false) disturbed = some s ∧
      (∀ t, s.pc t = .out) ∧ s.returned = [65] ∧ s.accepted = [65, 66] ∧
      cells s.pipe.buf s.pipe.count = [65] := by
  refine ⟨_, rfl, ?_, rfl, rfl, rfl⟩
  intro t
  by_cases h : t = 1
  · subst h
    rfl
  · have hrun : execList exec (fresh (fun _ => 0) 1 false) disturbed = some _ := rfl
    refine execList_pc_out rfl ?_ hrun
    intro e he len ok heq
    subst heq
    simp [disturbed, h] at he

end AxiomeOS.Ipc
