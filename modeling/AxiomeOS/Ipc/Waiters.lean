import AxiomeOS.Ipc.Pipe
import Mathlib.Data.List.Count

/-!
# Readers that wait for a pipe

A read that finds no bytes enters itself in `wait_reader` and suspends itself.  The slot holds one
thread; a write and, for an anonymous pipe, a close wake the thread in it.

To the pipe of `AxiomeOS.Ipc.Pipe` this module adds the descriptors that refer to it and the calls
that change them: opening a FIFO, duplicating and inheriting descriptors, closing them and
unlinking the FIFO.  An exit closes the descriptors of its thread one after the other, in the way
`sys_close` does.

`no_reader_stranded_iff`: in every history no thread is blocked in a read of a pipe that holds
bytes or has no writer exactly when every step meets the condition `Heard`.  `readers_stranded`
gives three histories in which a step does not.
-/

namespace AxiomeOS.Ipc

open Runs Option

variable {t : ℕ} {s s' : World} {bytes : List UInt8} {nb : Option (ℕ → UInt8)}

/-! ### Descriptors -/

inductive End
  | reader
  | writer
deriving DecidableEq

/-- A pipe and the descriptors that refer to it. -/
structure Ends extends World where
  nreaders : ℕ
  /-- The FIFO was unlinked. -/
  dead : Bool
  freed : Bool
  /-- The descriptors: the thread and the end, one entry for each. -/
  fds : List (ℕ × End)

def Ends.setPipe (s : Ends) (p : Pipe) : Ends := { s with pipe := p }

/-- One more descriptor for the thread. -/
def Ends.ref (s : Ends) (t : ℕ) : End → Ends
  | .reader => { s with nreaders := s.nreaders + 1, fds := (t, .reader) :: s.fds }
  | .writer =>
    { s.setPipe { s.pipe with nwriters := s.pipe.nwriters + 1 } with
      fds := (t, .writer) :: s.fds }

/-- One descriptor less. -/
def Ends.unref (s : Ends) (t : ℕ) : End → Ends
  | .reader => { s with nreaders := s.nreaders - 1, fds := s.fds.erase (t, .reader) }
  | .writer =>
    { s.setPipe { s.pipe with nwriters := s.pipe.nwriters - 1 } with
      fds := s.fds.erase (t, .writer) }

/-- `sys_close` on an end of the pipe, and what `thread_close_fds` does with each descriptor. -/
def sysClose (s : Ends) (t : ℕ) (e : End) : Ends :=
  let s := s.unref t e
  if s.pipe.shared then
    if s.dead ∧ s.nreaders = 0 ∧ s.pipe.nwriters = 0 then { s with freed := true } else s
  else if s.nreaders = 0 ∧ s.pipe.nwriters = 0 then { s with freed := true }
  else { s with toWorld := wakeReader s.toWorld }

inductive Op
  /-- `sys_open` of a FIFO. -/
  | sysOpen (t : ℕ) (e : End)
  /-- `sys_dup2`. -/
  | dup (t : ℕ) (e : End)
  /-- The child `t'` inherits the descriptors of `t`. -/
  | fork (t t' : ℕ)
  | close (t : ℕ) (e : End)
  | unlink
  | write (t : ℕ) (bytes : List UInt8) (ok : Bool) (nb : Option (ℕ → UInt8))
  | read (t len : ℕ) (ok : Bool)
  | resume (t : ℕ)
  | go (t : ℕ)
  /-- A wake-up that has nothing to do with the pipe: the exit of a child. -/
  | wake (t : ℕ)

/-- An event of the pipe itself. -/
def Ends.io (s : Ends) (e : Event) : Option Ends :=
  (exec s.toWorld e).map fun w => { s with toWorld := w }

/-- `none` for what cannot happen: a thread uses descriptors it has, and a thread in `sys_read`
makes no other call. -/
def execOp (s : Ends) : Op → Option Ends
  | .sysOpen t e =>
    if s.pipe.shared = true ∧ s.dead = false ∧ s.pc t = .out then some (s.ref t e) else none
  | .dup t e => if (t, e) ∈ s.fds ∧ s.pc t = .out then some (s.ref t e) else none
  | .fork t t' =>
    if s.pc t = .out ∧ s.pc t' = .out ∧ t' ≠ t ∧ ∀ d ∈ s.fds, d.1 ≠ t' then
      some ((s.fds.filter fun d => decide (d.1 = t)).foldl (fun s d => s.ref t' d.2) s)
    else none
  | .close t e => if (t, e) ∈ s.fds ∧ s.pc t = .out then some (sysClose s t e) else none
  | .unlink =>
    if s.pipe.shared = true ∧ s.dead = false then
      some { s with dead := true, freed := decide (s.nreaders = 0 ∧ s.pipe.nwriters = 0) }
    else none
  | .write t bytes ok nb => if (t, .writer) ∈ s.fds then s.io (.write t bytes ok nb) else none
  | .read t len ok => if (t, .reader) ∈ s.fds then s.io (.read t len ok) else none
  | .resume t => s.io (.resume t)
  | .go t => s.io (.go t)
  | .wake t => some { s with pc := schedWake s.pc (some t) }

/-! ### The property and its condition -/

/-- The thread is blocked in a read and has not been woken. -/
def Blocked (s : World) (t : ℕ) : Prop := ∃ len, s.pc t = .blocked len false

/-- No thread is blocked in a read of a pipe that holds bytes or has no writer. -/
def NoneStranded (s : World) : Prop :=
  ∀ t, Blocked s t → s.pipe.count = 0 ∧ 0 < s.pipe.nwriters

/-- No thread but the one in the slot is blocked. -/
def OnlyWaiter (s : World) : Prop := ∀ t, Blocked s t → s.pipe.waitReader = some t

def NobodyWaits (s : World) : Prop := ∀ t, ¬ Blocked s t

/-- The condition on the next step of a reader that has waited: it suspends itself only when there
is still nothing to read, and it takes bytes only when nobody waits. -/
def ReaderHeard (s : World) (t : ℕ) : Prop :=
  match s.pc t with
  | .suspend _ => s.pipe.count = 0 ∧ 0 < s.pipe.nwriters
  | .take r _ => r = 0 ∨ NobodyWaits s
  | _ => True

/-- The condition on a step: a write that is accepted and the last close of a writer find no
blocked reader but the one they wake. -/
def Heard (s : Ends) : Op → Prop
  | .write _ bytes ok nb => bytes ≠ [] → ok = true →
      s.pipe.count + bytes.length ≤ s.pipe.cap ∨ nb.isSome = true → OnlyWaiter s.toWorld
  | .close _ .writer => s.pipe.nwriters = 1 →
      if s.pipe.shared = true then NobodyWaits s.toWorld else OnlyWaiter s.toWorld
  | .go t => ReaderHeard s.toWorld t
  | _ => True

/-! ### Waking -/

variable {len : ℕ} {p : Pipe} {ok : Bool} {r : Reader} {e : End}

theorem schedWake_blocked {pc : ℕ → Reader} {who : Option ℕ} :
    schedWake pc who t = .blocked len false ↔ pc t = .blocked len false ∧ who ≠ some t := by
  obtain ⟨heq, hother⟩ | ⟨len', ready, hwho, -, hwoken⟩ := schedWake_cases pc who t
  · rw [heq]
    exact ⟨fun hb => ⟨hb, fun hwho => hother hwho len hb⟩, And.left⟩
  · rw [hwoken]
    exact ⟨nofun, fun h => absurd hwho h.2⟩

theorem blocked_wakeReader :
    Blocked (wakeReader s) t ↔ Blocked s t ∧ s.pipe.waitReader ≠ some t := by
  constructor
  · rintro ⟨len, h⟩
    obtain ⟨hb, hw⟩ := schedWake_blocked.mp h
    exact ⟨⟨len, hb⟩, hw⟩
  · rintro ⟨⟨len, hb⟩, hw⟩
    exact ⟨len, schedWake_blocked.mpr ⟨hb, hw⟩⟩

/-- **Waking the thread in the slot** leaves nobody stranded exactly if there is nothing to hear of
or nobody else to hear it. -/
theorem noneStranded_wakeReader : NoneStranded (wakeReader s) ↔
      (s.pipe.count = 0 ∧ 0 < s.pipe.nwriters) ∨ OnlyWaiter s := by
  constructor
  · intro h
    by_cases hs : s.pipe.count = 0 ∧ 0 < s.pipe.nwriters
    · exact .inl hs
    · refine .inr fun t ht => ?_
      by_contra hne
      exact hs (h t (blocked_wakeReader.mpr ⟨ht, hne⟩))
  · intro h t ht
    obtain ⟨hb, hne⟩ := blocked_wakeReader.mp ht
    rcases h with hs | honly
    · exact hs
    · exact absurd (honly t hb) hne

theorem NoneStranded.wakeReader (h : NoneStranded s) : NoneStranded (wakeReader s) :=
  fun t ht => h t (blocked_wakeReader.mp ht).1

/-! ### Writing -/

theorem sysWritePipe_isSome : (sysWritePipe p bytes nb).isSome = true ↔
      p.count + bytes.length ≤ p.cap ∨ nb.isSome = true := by
  unfold sysWritePipe
  split
  · rename_i hlt
    rw [isSome_map]
    constructor
    · exact .inr
    · rintro (hle | hnb)
      · omega
      · exact hnb
  · rename_i hle
    exact ⟨fun _ => .inl (by omega), fun _ => rfl⟩

/-- **A write.** -/
theorem noneStranded_write (h : NoneStranded s) (hs : exec s (.write t bytes ok nb) = some s') :
    NoneStranded s' ↔ (bytes ≠ [] → ok = true →
      s.pipe.count + bytes.length ≤ s.pipe.cap ∨ nb.isSome = true → OnlyWaiter s) := by
  rw [← sysWritePipe_isSome]
  obtain ⟨rfl, hrefused⟩ | ⟨p, hp, hok, -, rfl⟩ := exec_write hs
  · refine ⟨fun _ hne hok hsome => ?_, fun _ => h⟩
    rw [hrefused hne hok] at hsome
    cases hsome
  · obtain ⟨hcount, -, hslot, hwriters, -⟩ := sysWritePipe_eq hp
    have honly : OnlyWaiter { s with pipe := p, accepted := s.accepted ++ bytes } ↔
        OnlyWaiter s := by
      unfold OnlyWaiter
      rw [hslot]
      rfl
    by_cases hb : bytes = []
    · refine ⟨fun _ hne => absurd hb hne, fun _ => NoneStranded.wakeReader fun t ht => ?_⟩
      dsimp only
      rw [hcount, hwriters, hb]
      exact h t ht
    · rw [noneStranded_wakeReader, honly, hcount, hwriters, hp]
      have hlen : 0 < bytes.length := List.length_pos_of_ne_nil hb
      constructor
      · rintro (hs | honly) - - -
        · omega
        · exact honly
      · exact fun hcond => .inr (hcond hb (hok hb) rfl)

/-! ### Reading -/

/-- The number of bytes a reader has fixed. -/
def Reader.wants : Reader → ℕ
  | .copy r _ _ | .load r _ _ _ | .shift r _ _ | .move r _ _ _ | .store r _ _ _ _ | .take r _ => r
  | _ => 0

/-- The counts are values of `size_t`. -/
structure Sized (s : World) : Prop where
  count : s.pipe.count < 2 ^ 64
  wants : ∀ t, (s.pc t).wants < 2 ^ 64

theorem Sized.goto (h : Sized s) (t : ℕ) (hr : r.wants < 2 ^ 64) : Sized (s.goto t r) where
  count := h.count
  wants := by
    intro t'
    by_cases hne : t' = t
    · rw [hne, goto_pc_self]
      exact hr
    · rw [goto_pc_of_ne s r hne]
      exact h.wants t'

theorem Sized.readerStep (h : Sized s) (t : ℕ) : Sized (readerStep t s) := by
  have hself := h.wants t
  have hcount := h.count
  have hpos : 0 < 2 ^ 64 := by decide
  unfold Ipc.readerStep
  generalize s.pc t = r₀ at hself ⊢
  cases r₀ with
  | out | blocked => exact h
  | loop len | empty len =>
    dsimp only
    split <;> exact h.goto t hpos
  | enter len => exact ⟨hcount, (h.goto t (r := .suspend len) hpos).wants⟩
  | suspend len => exact h.goto t hpos
  | size len =>
    refine h.goto t ?_
    dsimp only [Reader.wants]
    split
    · omega
    · exact hcount
  | copy r i got | shift r i got =>
    dsimp only
    split <;> exact h.goto t hself
  | load r i got addr | move r i got addr => exact h.goto t hself
  | store r i got addr b => exact ⟨hcount, (h.goto t (r := .shift r (i + 1) got) hself).wants⟩
  | take r got => exact ⟨Nat.mod_lt _ (by decide), (h.goto t (r := .out) hpos).wants⟩

theorem readerStep_nwriters (s : World) (t : ℕ) :
    (readerStep t s).pipe.nwriters = s.pipe.nwriters := by
  unfold readerStep
  repeat' split
  all_goals rfl

theorem readerStep_count (h : (s.pc t).taking = false) :
    (readerStep t s).pipe.count = s.pipe.count := by
  unfold readerStep
  generalize s.pc t = r at h ⊢
  cases r with
  | take => cases h
  | _ =>
    dsimp only
    repeat' split
    all_goals rfl

/-- A step blocks its thread exactly if the thread suspends itself. -/
theorem blocked_readerStep {t' : ℕ} : Blocked (readerStep t s) t' ↔
    Blocked s t' ∨ t' = t ∧ ∃ len, s.pc t = .suspend len := by
  unfold Blocked
  by_cases hne : t' = t
  · subst hne
    unfold readerStep
    cases hpc : s.pc t' <;> (dsimp only; repeat' split) <;> simp [hpc]
  · simp [readerStep_pc_of_ne s hne, hne]

theorem NobodyWaits.readerStep (h : NobodyWaits s)
    (hsuspend : ∀ len, s.pc t ≠ .suspend len) : NobodyWaits (readerStep t s) := by
  intro t' hb
  rcases blocked_readerStep.mp hb with hb | ⟨-, len, hpc⟩
  · exact h t' hb
  · exact hsuspend len hpc

/-- **One step of a reader.** -/
theorem noneStranded_readerStep (h : NoneStranded s) (hsized : Sized s) :
    NoneStranded (readerStep t s) ↔ ReaderHeard s t := by
  unfold ReaderHeard NoneStranded
  simp only [blocked_readerStep, readerStep_nwriters]
  cases hpc : s.pc t with
  | suspend len =>
    rw [readerStep_count (by rw [hpc]; rfl)]
    exact ⟨fun hs => hs t (.inr ⟨rfl, len, rfl⟩), fun hs _ _ => hs⟩
  | take r got =>
    have hr : r < 2 ^ 64 := by
      have hwants := hsized.wants t
      rw [hpc] at hwants
      exact hwants
    have hcount : (readerStep t s).pipe.count = (s.pipe.count + (2 ^ 64 - r)) % 2 ^ 64 := by
      unfold readerStep
      rw [hpc]
    simp only [hcount, reduceCtorEq, exists_false, and_false, or_false]
    constructor
    · intro hs
      by_cases hr0 : r = 0
      · exact .inl hr0
      · refine .inr fun t' hb => ?_
        have hzero := (hs t' hb).1
        rw [(h t' hb).1] at hzero
        omega
    · rintro (hr0 | hnobody) t' hb
      · obtain ⟨hzero, hwriters⟩ := h t' hb
        rw [hr0, hzero]
        exact ⟨rfl, hwriters⟩
      · exact absurd hb (hnobody t')
  | _ =>
    rw [readerStep_count (by rw [hpc]; rfl)]
    simpa [NoneStranded] using h

/-- What a reader knows that has not been interrupted since it looked. -/
def Knows (s : World) : Reader → Prop
  | .empty _ => s.pipe.count = 0
  | .enter _ | .suspend _ => s.pipe.count = 0 ∧ 0 < s.pipe.nwriters
  | .size _ | .copy _ _ _ | .load _ _ _ _ | .shift _ _ _ | .move _ _ _ _ | .store _ _ _ _ _
  | .take _ _ => NobodyWaits s
  | _ => True

theorem Knows.heard (h : Knows s (s.pc t)) : ReaderHeard s t := by
  unfold ReaderHeard
  generalize s.pc t = r at h ⊢
  cases r with
  | suspend => exact h
  | take => exact .inr h
  | _ => trivial

theorem Knows.readerStep (h : Knows s (s.pc t)) (hs : NoneStranded s) :
    Knows (readerStep t s) ((readerStep t s).pc t) := by
  -- a reader that has seen bytes goes on to take them
  have hnobody : NobodyWaits s → (∀ len, s.pc t ≠ .suspend len) →
      NobodyWaits (Ipc.readerStep t s) :=
    NobodyWaits.readerStep
  unfold Ipc.readerStep at hnobody ⊢
  cases hpc : s.pc t with
  | out | blocked | suspend | take => simp [hpc, Knows]
  | loop len =>
    by_cases hcount : s.pipe.count = 0
    · simp [hcount, Knows, World.goto]
    · have hn : NobodyWaits s := fun t' ht' => hcount (hs t' ht').1
      simpa [hpc, hcount, Knows] using hnobody hn
  | empty len =>
    rw [hpc] at h
    by_cases hwriters : s.pipe.nwriters = 0
    · simp [hwriters, Knows]
    · simp only [if_neg hwriters, goto_pc_self]
      exact ⟨h, Nat.pos_of_ne_zero hwriters⟩
  | enter len =>
    rw [hpc] at h
    simpa [Knows] using h
  | size | copy | load | shift | move | store =>
    rw [hpc] at h
    have hn := hnobody h (by simp [hpc])
    simp only [hpc] at hn ⊢
    repeat' split at hn
    all_goals simp [*, Knows]

/-- **A read with interrupts disabled** leaves nobody stranded. -/
theorem NoneStranded.finish (h : NoneStranded s) (hsized : Sized s)
    (hknows : Knows s (s.pc t)) (fuel : ℕ) :
    NoneStranded (finish t fuel s) ∧ Sized (finish t fuel s) := by
  obtain ⟨h, hsized, -⟩ := finish_keeps
    (P := fun s => NoneStranded s ∧ Sized s ∧ Knows s (s.pc t)) (fun s ⟨h, hsized, hknows⟩ =>
      ⟨(noneStranded_readerStep h hsized).mpr hknows.heard, hsized.readerStep t,
        hknows.readerStep h⟩)
    ⟨h, hsized, hknows⟩ fuel
  exact ⟨h, hsized⟩

/-! ### Events of the pipe -/

theorem schedWake_wants (pc : ℕ → Reader) (who : Option ℕ) (t : ℕ) :
    (schedWake pc who t).wants = (pc t).wants := by
  obtain ⟨heq, -⟩ | ⟨len, ready, -, hpc, hwoken⟩ := schedWake_cases pc who t
  · rw [heq]
  · rw [hwoken, hpc]
    rfl

theorem Sized.wakeReader (h : Sized s) : Sized (wakeReader s) where
  count := h.count
  wants := by
    intro t
    show (schedWake s.pc s.pipe.waitReader t).wants < 2 ^ 64
    rw [schedWake_wants]
    exact h.wants t

theorem Sized.write (h : Sized s) (hs : exec s (.write t bytes ok nb) = some s') : Sized s' := by
  obtain ⟨rfl, -⟩ | ⟨p, hp, -, hcap, rfl⟩ := exec_write hs
  · exact h
  · obtain ⟨-, hroom, -⟩ := sysWritePipe_eq hp
    unfold maxSize at hcap
    have hlt : p.count < 2 ^ 64 := by omega
    have hsized : Sized { s with pipe := p, accepted := s.accepted ++ bytes } := ⟨hlt, h.wants⟩
    exact hsized.wakeReader

theorem NoneStranded.loop (h : NoneStranded s) (t len : ℕ) :
    NoneStranded (s.goto t (.loop len)) := by
  rintro t' ⟨len', hb⟩
  by_cases hne : t' = t
  · rw [hne, goto_pc_self] at hb
    cases hb
  · rw [goto_pc_of_ne s _ hne] at hb
    exact h t' ⟨len', hb⟩

theorem Sized.loop (h : Sized s) (t len : ℕ) : Sized (s.goto t (.loop len)) :=
  h.goto t (by decide : 0 < 2 ^ 64)

theorem NoneStranded.read (h : NoneStranded s)
    (hsized : Sized s) (hs : exec s (.read t len ok) = some s') : NoneStranded s' ∧ Sized s' := by
  obtain ⟨-, rfl | rfl⟩ := exec_read hs
  · exact ⟨h, hsized⟩
  · refine (h.loop t len).finish (hsized.loop t len) ?_ _
    rw [goto_pc_self]
    trivial

theorem NoneStranded.resume (h : NoneStranded s) (hsized : Sized s)
    (hs : exec s (.resume t) = some s') : NoneStranded s' ∧ Sized s' := by
  obtain ⟨len, -, rfl⟩ := exec_resume hs
  exact ⟨h.loop t len, hsized.loop t len⟩

/-! ### The descriptors -/

def Ends.number (s : Ends) : End → ℕ
  | .reader => s.nreaders
  | .writer => s.pipe.nwriters

/-- **The invariant.**  The two counters are the numbers of descriptors, and a thread that is in
`sys_read` keeps the descriptor it reads from. -/
structure EndsInv (s : Ends) : Prop where
  sized : Sized s.toWorld
  counted : ∀ e, s.number e = s.fds.countP fun d => decide (d.2 = e)
  holds : ∀ t, s.pc t ≠ .out → (t, End.reader) ∈ s.fds

section

variable (s : Ends) (t : ℕ) (e e' : End)

theorem Ends.number_ref : (s.ref t e).number e' = s.number e' + if e = e' then 1 else 0 := by
  cases e <;> cases e' <;> rfl

theorem Ends.number_unref : (s.unref t e).number e' = s.number e' - if e = e' then 1 else 0 := by
  cases e <;> cases e' <;> rfl

theorem Ends.fds_ref : (s.ref t e).fds = (t, e) :: s.fds := by
  cases e <;> rfl

theorem Ends.fds_unref : (s.unref t e).fds = s.fds.erase (t, e) := by
  cases e <;> rfl

end

theorem EndsInv.ref {s : Ends} (h : EndsInv s) (t : ℕ) (e : End) : EndsInv (s.ref t e) where
  sized := by cases e <;> exact ⟨h.sized.count, h.sized.wants⟩
  counted := by
    intro e'
    rw [s.number_ref, s.fds_ref, h.counted, List.countP_cons]
    simp only [decide_eq_true_eq]
  holds := by
    intro t' hpc
    rw [s.fds_ref]
    refine List.mem_cons_of_mem _ (h.holds t' ?_)
    cases e <;> exact hpc

theorem NoneStranded.ref {s : Ends} (h : NoneStranded s.toWorld) (t : ℕ) (e : End) :
    NoneStranded (s.ref t e).toWorld := by
  cases e with
  | reader => exact h
  | writer =>
    intro t' hb
    exact ⟨(h t' hb).1, Nat.succ_pos _⟩

theorem EndsInv.inherit {s : Ends} (h : EndsInv s) (hs : NoneStranded s.toWorld) (t : ℕ)
    (ds : List (ℕ × End)) : EndsInv (ds.foldl (fun s d => s.ref t d.2) s) ∧
      NoneStranded (ds.foldl (fun s d => s.ref t d.2) s).toWorld := by
  induction ds generalizing s with
  | nil => exact ⟨h, hs⟩
  | cons d ds ih => exact ih (h.ref t d.2) (hs.ref t d.2)

theorem EndsInv.unref {s : Ends} (h : EndsInv s) (hfd : (t, e) ∈ s.fds) (hout : s.pc t = .out) :
    EndsInv (s.unref t e) where
  sized := by cases e <;> exact ⟨h.sized.count, h.sized.wants⟩
  counted := by
    intro e'
    rw [s.number_unref, s.fds_unref, h.counted, List.countP_erase]
    simp [hfd]
  holds := by
    intro t' hpc
    have hpc' : s.pc t' ≠ .out := by cases e <;> exact hpc
    rw [s.fds_unref]
    refine (List.mem_erase_of_ne ?_).mpr (h.holds t' hpc')
    rintro ⟨⟩
    exact hpc' hout

theorem EndsInv.nobodyWaits {s : Ends} (h : EndsInv s) (hr : s.nreaders = 0) :
    NobodyWaits s.toWorld := by
  rintro t ⟨len, hb⟩
  have hmem := h.holds t (by rw [hb]; simp)
  have hpos : 0 < s.fds.countP fun d => decide (d.2 = End.reader) :=
    List.countP_pos_iff.mpr ⟨_, hmem, by simp⟩
  rw [← h.counted .reader] at hpos
  exact absurd hr (Nat.ne_of_gt hpos)

/-- **A close.** -/
theorem noneStranded_sysClose {s : Ends} (h : EndsInv s) (hs : NoneStranded s.toWorld)
    (hfd : (t, e) ∈ s.fds) (hout : s.pc t = .out) :
    NoneStranded (sysClose s t e).toWorld ↔ Heard s (.close t e) := by
  have hinv := h.unref hfd hout
  cases e with
  | reader =>
    -- the writers are the same, so the woken thread does not matter
    refine ⟨fun _ => trivial, fun _ => ?_⟩
    unfold sysClose
    dsimp only
    split
    · split
      · exact hs
      · exact hs
    · split
      · exact hs
      · exact NoneStranded.wakeReader hs
  | writer =>
    have hleft : (s.unref t .writer).pipe.nwriters = s.pipe.nwriters - 1 := rfl
    -- without the wake-up: as long as there is another writer, or nobody waits
    have hunref : NoneStranded (s.unref t .writer).toWorld ↔
        (s.pipe.nwriters = 1 → NobodyWaits s.toWorld) := by
      constructor
      · intro hu hone t' ht'
        have hpos := (hu t' ht').2
        rw [hleft] at hpos
        omega
      · intro hone t' ht'
        obtain ⟨hzero, hpos⟩ := hs t' ht'
        have hne : s.pipe.nwriters ≠ 1 := fun heq => hone heq t' ht'
        exact ⟨hzero, by rw [hleft]; omega⟩
    have hshared : (s.unref t .writer).pipe.shared = s.pipe.shared := rfl
    unfold sysClose Heard
    dsimp only
    rw [hshared]
    by_cases hsh : s.pipe.shared = true
    · rw [if_pos hsh, if_pos hsh, ← hunref]
      split
      · rfl
      · rfl
    · rw [if_neg hsh, if_neg hsh]
      split
      · rename_i hnone
        have hnobody : NobodyWaits s.toWorld := hinv.nobodyWaits hnone.1
        exact ⟨fun _ _ t' ht' => absurd ht' (hnobody t'), fun _ t' ht' => absurd ht' (hnobody t')⟩
      · constructor
        · intro hnone hone
          refine (noneStranded_wakeReader.mp hnone).resolve_left fun hboth => ?_
          rw [hleft] at hboth
          omega
        · intro hone
          by_cases heq : s.pipe.nwriters = 1
          · exact noneStranded_wakeReader.mpr (.inr (hone heq))
          · exact (hunref.mpr fun h1 => absurd h1 heq).wakeReader

theorem EndsInv.sysClose {s : Ends} (h : EndsInv s) (hfd : (t, e) ∈ s.fds) (hout : s.pc t = .out) :
    EndsInv (sysClose s t e) := by
  have hinv := h.unref hfd hout
  unfold Ipc.sysClose
  dsimp only
  split
  · split
    · exact { hinv with }
    · exact hinv
  · split
    · exact { hinv with }
    · refine ⟨hinv.sized.wakeReader, ?_,
        fun t' hpc => hinv.holds t' fun ho => hpc (schedWake_out ho)⟩
      intro e'
      cases e' with
      | reader => exact hinv.counted .reader
      | writer => exact hinv.counted .writer

/-! ### Histories -/

/-- Reads and writes leave the writers alone. -/
theorem exec_nwriters {e : Event} (hopen : e ≠ .openWriter)
    (hclose : e ≠ .closeWriter) (h : exec s e = some s') : s'.pipe.nwriters = s.pipe.nwriters := by
  cases e with
  | write t bytes ok nb =>
    obtain ⟨rfl, -⟩ | ⟨p, hp, -, -, rfl⟩ := exec_write h
    · rfl
    · exact (sysWritePipe_eq hp).2.2.2.1
  | read t len ok =>
    obtain ⟨-, rfl | rfl⟩ := exec_read h
    · rfl
    · exact finish_keeps (s := s.goto t _) (P := fun s' => s'.pipe.nwriters = s.pipe.nwriters)
        (fun s' hs => (readerStep_nwriters s' t).trans hs) rfl _
  | resume t =>
    obtain ⟨len, -, rfl⟩ := exec_resume h
    rfl
  | go t =>
    rw [(exec_go h).2]
    exact readerStep_nwriters s t
  | openWriter => exact absurd rfl hopen
  | closeWriter => exact absurd rfl hclose

theorem EndsInv.io {s : Ends} {w : World} {e : Event} (h : EndsInv s)
    (hw : exec s.toWorld e = some w) (hsized : Sized w)
    (hread : ∀ t len ok, e = .read t len ok → (t, End.reader) ∈ s.fds)
    (hends : e ≠ .openWriter ∧ e ≠ .closeWriter) : EndsInv { s with toWorld := w } := by
  refine ⟨hsized, ?_, ?_⟩
  · intro e'
    cases e' with
    | reader => exact h.counted .reader
    | writer => exact (exec_nwriters hends.1 hends.2 hw).trans (h.counted .writer)
  · intro t hpc
    by_cases hout : s.pc t = .out
    · by_contra hmem
      refine hpc (exec_pc_out hout (fun len ok heq => ?_) hw)
      exact hmem (hread t len ok heq)
    · exact h.holds t hout

/-- **One operation.** -/
theorem EndsInv.execOp {s s' : Ends} {op : Op} (h : EndsInv s) (hs : NoneStranded s.toWorld)
    (hexec : execOp s op = some s') : EndsInv s' ∧ (NoneStranded s'.toWorld ↔ Heard s op) := by
  cases op with
  | sysOpen t e | dup t e =>
    obtain ⟨-, ⟨⟩⟩ := ite_none_right_eq_some.mp hexec
    exact ⟨h.ref t e, fun _ => trivial, fun _ => hs.ref t e⟩
  | fork t t' =>
    obtain ⟨-, ⟨⟩⟩ := ite_none_right_eq_some.mp hexec
    obtain ⟨hinv, hnone⟩ := h.inherit hs t' (s.fds.filter fun d => decide (d.1 = t))
    exact ⟨hinv, fun _ => trivial, fun _ => hnone⟩
  | close t e =>
    obtain ⟨⟨hfd, hout⟩, ⟨⟩⟩ := ite_none_right_eq_some.mp hexec
    exact ⟨h.sysClose hfd hout, noneStranded_sysClose h hs hfd hout⟩
  | unlink =>
    obtain ⟨-, ⟨⟩⟩ := ite_none_right_eq_some.mp hexec
    exact ⟨{ h with }, fun _ => trivial, fun _ => hs⟩
  | write t bytes ok nb =>
    obtain ⟨-, hio⟩ := ite_none_right_eq_some.mp hexec
    obtain ⟨w, hw, rfl⟩ := map_eq_some_iff.mp hio
    exact ⟨h.io hw (h.sized.write hw) (by simp) (by simp), noneStranded_write hs hw⟩
  | read t len ok =>
    obtain ⟨hfd, hio⟩ := ite_none_right_eq_some.mp hexec
    obtain ⟨w, hw, rfl⟩ := map_eq_some_iff.mp hio
    obtain ⟨hnone, hsized⟩ := hs.read h.sized hw
    refine ⟨h.io hw hsized ?_ (by simp), fun _ => trivial, fun _ => hnone⟩
    rintro t' len' ok' ⟨⟩
    exact hfd
  | resume t =>
    obtain ⟨w, hw, rfl⟩ := map_eq_some_iff.mp hexec
    obtain ⟨hnone, hsized⟩ := hs.resume h.sized hw
    exact ⟨h.io hw hsized (by simp) (by simp), fun _ => trivial, fun _ => hnone⟩
  | go t =>
    obtain ⟨w, hw, rfl⟩ := map_eq_some_iff.mp hexec
    have hstep := (exec_go hw).2
    refine ⟨h.io hw (hstep ▸ h.sized.readerStep t) (by simp) (by simp), ?_⟩
    rw [hstep]
    exact noneStranded_readerStep hs h.sized
  | wake t =>
    cases hexec
    refine ⟨⟨⟨h.sized.count, ?_⟩, h.counted, ?_⟩, fun _ => trivial, fun _ t' hb => ?_⟩
    · intro t'
      rw [schedWake_wants]
      exact h.sized.wants t'
    · intro t' hpc
      refine h.holds t' fun hout => hpc ?_
      show schedWake s.pc (some t) t' = .out
      exact schedWake_out hout
    · obtain ⟨len, hb⟩ := hb
      have hb' : schedWake s.pc (some t) t' = .blocked len false := hb
      exact hs t' ⟨len, (schedWake_blocked.mp hb').1⟩

inductive Origin
  /-- `sys_pipe`, called by the thread. -/
  | anonymous (t : ℕ)
  /-- `mkfifo`. -/
  | fifo

/-- The pipe as it is made. -/
def Ends.start (buf : ℕ → UInt8) : Origin → Ends
  | .anonymous t =>
    { toWorld := fresh buf 1 false, nreaders := 1, dead := false, freed := false
      fds := [(t, .reader), (t, .writer)] }
  | .fifo =>
    { toWorld := fresh buf 0 true, nreaders := 0, dead := false, freed := false, fds := [] }

theorem endsInv_start (buf : ℕ → UInt8) (o : Origin) : EndsInv (Ends.start buf o) := by
  cases o with
  | anonymous | fifo =>
    refine ⟨⟨(by decide : 0 < 2 ^ 64), fun _ => (by decide : 0 < 2 ^ 64)⟩, ?_, ?_⟩
    · intro e
      cases e with
      | reader | writer => rfl
    · exact fun _ hpc => absurd rfl hpc

theorem noneStranded_start (buf : ℕ → UInt8) (o : Origin) :
    NoneStranded (Ends.start buf o).toWorld := by
  rintro t ⟨len, hb⟩
  cases o with
  | anonymous | fifo => cases hb

/-- The operations, one after the other. -/
def OpStep (s : Ends) (op : Op) (s' : Ends) : Prop := execOp s op = some s'

/-- **Who waits for a pipe.**  For every pipe and every FIFO and every interleaving of the
operations on it, by any number of threads: after each operation no thread is blocked in a read
while there are bytes or no writer, exactly when each operation was one that every waiting thread
hears of. -/
theorem no_reader_stranded_iff (buf : ℕ → UInt8) (o : Origin) (ops : List Op) :
    (∀ pre, pre <+: ops → ∀ s, Run OpStep (Ends.start buf o) pre s → NoneStranded s.toWorld) ↔
      ∀ pre op, pre ++ [op] <+: ops → ∀ s s', Run OpStep (Ends.start buf o) pre s →
        OpStep s op s' → Heard s op := by
  refine run_property_iff (I := fun s => EndsInv s ∧ NoneStranded s.toWorld) (fun s h => h.2) ?_
    ⟨endsInv_start buf o, noneStranded_start buf o⟩ ops
  intro s op s' hI hstep
  obtain ⟨hinv, hiff⟩ := hI.1.execOp hI.2 hstep
  exact ⟨hiff.mp, fun hG => ⟨hinv, hiff.mpr hG⟩⟩

/-! ### Readers that hear nothing -/

/-- The close of the last writer of a FIFO. -/
def writerGone : List Op :=
  [.sysOpen 1 .reader, .sysOpen 2 .writer, .read 1 4 true, .close 2 .writer]

/-- Two readers, of which the second took the slot. -/
def twoReaders : List Op :=
  [.fork 1 2, .fork 1 3, .read 1 4 true, .read 2 4 true, .write 3 [65] true none]

/-- A reader that is woken without need, and then interrupted between its test and the suspension,
while the other thread writes. -/
def interrupted : List Op :=
  [.fork 1 2, .read 1 4 true, .wake 1, .resume 1, .go 1, .go 1, .write 2 [65] true none,
    .go 1, .go 1]

/-- **Readers are left blocked**: thread 1 waits for a writer of a FIFO that has none; it waits for
bytes of a pipe that holds one, which only the second reader was told; and it does so although it
is the only reader. -/
theorem readers_stranded :
    (∃ s, execList execOp (Ends.start (fun _ => 0) .fifo) writerGone = some s ∧
      s.pc 1 = .blocked 4 false ∧ s.pipe.nwriters = 0) ∧
    (∃ s, execList execOp (Ends.start (fun _ => 0) (.anonymous 1)) twoReaders = some s ∧
      s.pc 1 = .blocked 4 false ∧ s.pipe.count = 1) ∧
    (∃ s, execList execOp (Ends.start (fun _ => 0) (.anonymous 1)) interrupted = some s ∧
      s.pc 1 = .blocked 4 false ∧ s.pipe.count = 1) := by
  refine ⟨⟨_, rfl, rfl, rfl⟩, ⟨_, rfl, rfl, rfl⟩, ⟨_, rfl, rfl, rfl⟩⟩

end AxiomeOS.Ipc
