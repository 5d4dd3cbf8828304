import AxiomeOS.Vfs.Tree

/-!
# Reference counts and the descriptor tables

While a system call runs, the kernel holds references that are in no table yet, or no longer in one.
`Table e s hand` relates the counts of the state `s` to the entries of all tables together with the
entries `hand` that the running call holds:

* what a used entry refers to is allocated, and the end of a pipe belongs to an allocated pipe;
* a vnode has at least as many references as entries refer to it;
* a pipe counts at least as many readers and writers as entries refer to its ends, and, if `e`
  holds, exactly as many.

A call takes references into the hand (`Table.take`), puts them into a table (`Table.put`), pulls
them out of one (`Table.pull`) and gives them up (`Table.untake`).  Overwriting an entry loses a
reference, which keeps the inequalities (`Table.overwrite`).
-/

namespace AxiomeOS.Vfs

open Tally Function List Finset Files

variable {n p t : ℕ} {i : Fin 32}

variable {s s' : Files} {hand hand' : List File} {e : Prop}

/-! ### Counting entries -/

/-- The entry refers to the vnode. -/
def File.refers (n : ℕ) (f : File) : Bool :=
  f.used && (f.kind = .vnode || f.kind = .pipe) && f.node = some n

/-- The vnode is an end of the pipe. -/
def Vnode.isEnd (type : VType) (p : ℕ) (v : Vnode) : Bool := v.type = type && v.priv = some p

/-- The entry refers to an end of the pipe. -/
def Files.atEnd (s : Files) (type : VType) (p : ℕ) (f : File) : Bool :=
  f.used && f.kind = .pipe && f.node.any fun n => (s.vnode n).isEnd type p

/-- How many entries of the tables and of the hand have the property. -/
def total (s : Files) (hand : List File) (P : File → Bool) : ℕ :=
  tally s.threads s.fds P + hand.countP P

/-- The entry stands in the hand or in the table of a thread that has not exited. -/
def Has (s : Files) (hand : List File) (f : File) : Prop :=
  f ∈ hand ∨ ∃ t ∈ s.threads, ∃ i, s.fds t i = f

theorem Has.cons {f g : File} (h : Has s hand f) : Has s (g :: hand) f := by
  rcases h with h | h
  · exact .inl (mem_cons_of_mem g h)
  · exact .inr h

theorem has_table (ht : t ∈ s.threads) (i : Fin 32) : Has s hand (s.fds t i) :=
  .inr ⟨t, ht, i, rfl⟩

variable {P Q : File → Bool} {f g : File}

theorem total_cons : total s (f :: hand) P = total s hand P + (P f).toNat := by
  rw [total, total, countP_cons, ← Nat.add_assoc]
  cases P f <;> rfl

theorem total_congr (h : ∀ f, Has s hand f → P f = Q f) : total s hand P = total s hand Q := by
  rw [total, total]
  have htable : tally s.threads s.fds P = tally s.threads s.fds Q :=
    tally_congr fun t ht i => h _ (has_table ht i)
  have hhand : hand.countP P = hand.countP Q := countP_congr fun f hf => by rw [h f (.inl hf)]
  rw [htable, hhand]

theorem total_pos (hf : Has s hand f) (hP : P f = true) : 0 < total s hand P := by
  rw [total]
  rcases hf with hf | ⟨t, ht, i, rfl⟩
  · have := countP_pos_iff.mpr ⟨f, hf, hP⟩
    omega
  · have := tally_pos ht hP
    omega

theorem total_eq_zero (h : ∀ f, Has s hand f → P f = false) : total s hand P = 0 := by
  rw [total]
  have htable : tally s.threads s.fds P = 0 := tally_eq_zero.mpr fun t ht i => h _ (has_table ht i)
  have hhand : hand.countP P = 0 := by
    rw [countP_eq_zero]
    intro f hf
    rw [h f (.inl hf)]
    exact Bool.false_ne_true
  rw [htable, hhand]

theorem total_state (hfds : s'.fds = s.fds) (hthreads : s'.threads = s.threads) :
    total s' hand P = total s hand P := by
  rw [total, total, hfds, hthreads]

theorem has_state (hfds : s'.fds = s.fds) (hthreads : s'.threads = s.threads) :
    Has s' hand f ↔ Has s hand f := by
  rw [Has, Has, hfds, hthreads]

theorem total_setFd (ht : t ∈ s.threads) (i : Fin 32) (f : File) (hand : List File) :
    total (s.setFd t i f) hand P + (P (s.fds t i)).toNat = total s hand P + (P f).toNat := by
  have := tally_set ht s.fds i f P
  rw [total, total]
  show tally s.threads (setEntry s.fds t i f) P + _ + _ = _
  omega

theorem has_setFd (h : Has (s.setFd t i g) hand f) : f = g ∨ Has s hand f := by
  rcases h with h | ⟨t', ht', i', rfl⟩
  · exact .inr (.inl h)
  · by_cases hti : t' = t ∧ i' = i
    · obtain ⟨rfl, rfl⟩ := hti
      exact .inl (setEntry_self ..)
    · have hne : t' ≠ t ∨ i' ≠ i := by
        by_contra hcon
        push Not at hcon
        exact hti hcon
      right
      rw [show (s.setFd t i g).fds t' i' = s.fds t' i' from setEntry_of_ne s.fds g hne]
      exact .inr ⟨t', ht', i', rfl⟩

/-! ### The invariant -/

/-- Reading and writing ends are counted apart. -/
def Pipe.count (p : Pipe) : VType → ℤ
  | .pipeR => p.nreaders
  | .pipeW => p.nwriters
  | _ => 0

/-- The type of an end of a pipe. -/
def VType.IsEnd (type : VType) : Prop := type = .pipeR ∨ type = .pipeW

/-- What a used entry refers to is allocated. -/
structure Good (s : Files) (f : File) : Prop where
  vnode : f.used = true → f.kind = .vnode → ∃ n ∈ s.live, f.node = some n
  pipe : f.used = true → f.kind = .pipe → ∃ n ∈ s.live, f.node = some n ∧
    (s.vnode n).type.IsEnd ∧ ∃ p ∈ s.pipes, (s.vnode n).priv = some p

/-- **The counts and the tables.** -/
structure Table (e : Prop) (s : Files) (hand : List File) : Prop where
  good : ∀ f, Has s hand f → Good s f
  held : ∀ n ∈ s.live, total s hand (File.refers n) ≤ (s.vnode n).refcount
  counts : ∀ p ∈ s.pipes, ∀ type : VType, type.IsEnd →
    (total s hand (s.atEnd type p) : ℤ) ≤ (s.pipe p).count type ∧
      (e → (s.pipe p).count type = total s hand (s.atEnd type p))

theorem File.refers_eq_true :
    f.refers n = true ↔ f.used = true ∧ (f.kind = .vnode ∨ f.kind = .pipe) ∧ f.node = some n := by
  simp [File.refers, and_assoc]

theorem Files.atEnd_eq_true {type : VType} :
    s.atEnd type p f = true ↔ f.used = true ∧ f.kind = .pipe ∧
      ∃ n, f.node = some n ∧ (s.vnode n).type = type ∧ (s.vnode n).priv = some p := by
  cases hn : f.node <;> simp [atEnd, Vnode.isEnd, hn, and_assoc]

theorem File.refers_of_unused (h : f.used = false) : f.refers n = false := by
  rw [File.refers, h]
  rfl

theorem Files.atEnd_of_unused {type : VType} (h : f.used = false) : s.atEnd type p f = false := by
  rw [atEnd, h]
  rfl

theorem good_of_unused (h : f.used = false) : Good s f where
  vnode := by
    intro hu
    rw [h] at hu
    cases hu
  pipe := by
    intro hu
    rw [h] at hu
    cases hu

theorem Good.live (h : Good s f) (hf : f.refers n = true) : n ∈ s.live := by
  obtain ⟨hu, hk, hn⟩ := File.refers_eq_true.mp hf
  obtain ⟨m, hm, hnode⟩ : ∃ m ∈ s.live, f.node = some m :=
    hk.elim (h.vnode hu) fun hk => (h.pipe hu hk).imp fun _ hm => ⟨hm.1, hm.2.1⟩
  cases hn.symm.trans hnode
  exact hm

theorem Good.pipe_live {type : VType} (h : Good s f) (hf : s.atEnd type p f = true) :
    p ∈ s.pipes := by
  obtain ⟨hu, hk, n, hn, -, hp⟩ := atEnd_eq_true.mp hf
  obtain ⟨m, -, hnode, -, q, hq, hpriv⟩ := h.pipe hu hk
  rw [hn, Option.some.injEq] at hnode
  rw [hnode, hpriv, Option.some.injEq] at hp
  rw [← hp]
  exact hq

theorem Table.refers_fresh (h : Table e s hand) (hn : n ∉ s.live) :
    total s hand (File.refers n) = 0 := by
  refine total_eq_zero fun f hf => ?_
  cases hr : f.refers n with
  | false => rfl
  | true => exact absurd ((h.good f hf).live hr) hn

theorem Table.atEnd_fresh (h : Table e s hand) (hp : p ∉ s.pipes) (type : VType) :
    total s hand (s.atEnd type p) = 0 := by
  refine total_eq_zero fun f hf => ?_
  cases hr : s.atEnd type p f with
  | false => rfl
  | true => exact absurd ((h.good f hf).pipe_live hr) hp

theorem Good.frame (h : Good s f) (hnode : ∀ n ∈ s.live, f.refers n = true → n ∈ s'.live ∧
      (s'.vnode n).type = (s.vnode n).type ∧ (s'.vnode n).priv = (s.vnode n).priv)
    (hpipe : ∀ p type, s.atEnd type p f = true → p ∈ s'.pipes) : Good s' f where
  vnode := by
    intro hu hk
    obtain ⟨n, hn, hnd⟩ := h.vnode hu hk
    exact ⟨n, (hnode n hn (File.refers_eq_true.mpr ⟨hu, .inl hk, hnd⟩)).1, hnd⟩
  pipe := by
    intro hu hk
    obtain ⟨n, hn, hnd, htype, p, -, hpriv⟩ := h.pipe hu hk
    obtain ⟨hn', ht', hp'⟩ := hnode n hn (File.refers_eq_true.mpr ⟨hu, .inr hk, hnd⟩)
    refine ⟨n, hn', hnd, by rw [ht']; exact htype, p, ?_, by rw [hp']; exact hpriv⟩
    exact hpipe p _ (atEnd_eq_true.mpr ⟨hu, hk, n, hnd, rfl, hpriv⟩)

theorem Good.atEnd_congr (h : Good s f)
    (hnode : ∀ n ∈ s.live, f.refers n = true → (s'.vnode n).type = (s.vnode n).type ∧
      (s'.vnode n).priv = (s.vnode n).priv) (type : VType) (p : ℕ) :
    s'.atEnd type p f = s.atEnd type p f := by
  cases hu : f.used with
  | false => rw [atEnd_of_unused hu, atEnd_of_unused hu]
  | true =>
    by_cases hk : f.kind = .pipe
    · obtain ⟨n, hn, hnd, -⟩ := h.pipe hu hk
      obtain ⟨ht, hp⟩ := hnode n hn (File.refers_eq_true.mpr ⟨hu, .inr hk, hnd⟩)
      simp only [atEnd, Vnode.isEnd, hnd, Option.any_some, ht, hp]
    · simp only [atEnd, hk, decide_false, Bool.and_false, Bool.false_and]

/-- **The frame rule.**  The tables and the hand hold no entry that was not there, and what the
remaining entries refer to is as it was; the counts are given. -/
theorem Table.frame (h : Table e s hand) (hhas : ∀ f, Has s' hand' f → f.used = true → Has s hand f)
    (hnode : ∀ f, Has s' hand' f → ∀ n ∈ s.live, f.refers n = true → n ∈ s'.live ∧
      (s'.vnode n).type = (s.vnode n).type ∧ (s'.vnode n).priv = (s.vnode n).priv)
    (hpipe : ∀ f, Has s' hand' f → ∀ p type, s.atEnd type p f = true → p ∈ s'.pipes)
    (hheld : ∀ n ∈ s'.live, total s' hand' (File.refers n) ≤ (s'.vnode n).refcount)
    (hcounts : ∀ p ∈ s'.pipes, ∀ type : VType, type.IsEnd →
      (total s' hand' (s.atEnd type p) : ℤ) ≤ (s'.pipe p).count type ∧
        (e → (s'.pipe p).count type = total s' hand' (s.atEnd type p))) : Table e s' hand' := by
  have hgood : ∀ f, Has s' hand' f → Good s f := by
    intro f hf
    cases hu : f.used with
    | false => exact good_of_unused hu
    | true => exact h.good f (hhas f hf hu)
  constructor
  case good => exact fun f hf => (hgood f hf).frame (hnode f hf) (hpipe f hf)
  case held => exact hheld
  case counts =>
    intro p hp type htype
    have hsame : total s' hand' (s'.atEnd type p) = total s' hand' (s.atEnd type p) :=
      total_congr fun f hf =>
        (hgood f hf).atEnd_congr (fun n hn hr => (hnode f hf n hn hr).2) type p
    rw [hsame]
    exact hcounts p hp type htype

/-! ### Between hand and table -/

/-- **Regrouping.**  The used entries are where they were, or elsewhere in the tables and the
hand. -/
theorem Table.regroup (h : Table e s hand) (hlive : s'.live = s.live) (hvnode : s'.vnode = s.vnode)
    (hpipes : s'.pipes = s.pipes) (hpipe : s'.pipe = s.pipe)
    (hhas : ∀ f, Has s' hand' f → f.used = true → Has s hand f)
    (htotal : ∀ P : File → Bool, (∀ f, f.used = false → P f = false) →
      total s' hand' P = total s hand P) : Table e s' hand' := by
  refine h.frame hhas ?_ ?_ ?_ ?_
  · intro f _ n hn _
    rw [hlive, hvnode]
    exact ⟨hn, rfl, rfl⟩
  · intro f hf p type hr
    rw [hpipes]
    exact (h.good f (hhas f hf (atEnd_eq_true.mp hr).1)).pipe_live hr
  · intro n hn
    rw [hlive] at hn
    rw [htotal _ fun _ => File.refers_of_unused, hvnode]
    exact h.held n hn
  · intro p hp type htype
    rw [hpipes] at hp
    rw [htotal _ fun _ => atEnd_of_unused, hpipe]
    exact h.counts p hp type htype

/-- The order of what is in hand does not matter. -/
theorem Table.perm (h : Table e s hand) (hp : hand.Perm hand') : Table e s hand' := by
  refine h.regroup rfl rfl rfl rfl ?_ ?_
  · exact fun f hf _ => hf.imp_left hp.mem_iff.mpr
  · intro P _
    rw [total, total, hp.countP_eq]

/-- **Put** an entry of the hand into a free place of a table. -/
theorem Table.put (h : Table e s (f :: hand)) (ht : t ∈ s.threads)
    (hi : (s.fds t i).used = false) : Table e (s.setFd t i f) hand := by
  refine h.regroup rfl rfl rfl rfl ?_ ?_
  · intro g hg _
    rcases has_setFd hg with rfl | hg
    · exact .inl mem_cons_self
    · exact hg.cons
  · intro P hP
    have hset := total_setFd ht i f hand (P := P)
    rw [hP _ hi] at hset
    rw [total_cons]
    exact hset

/-- **Pull** an entry out of a table. -/
theorem Table.pull (h : Table e s hand) (ht : t ∈ s.threads)
    (hg : g.used = false) : Table e (s.setFd t i g) (s.fds t i :: hand) := by
  refine h.regroup rfl rfl rfl rfl ?_ ?_
  · intro f hf hu
    rcases has_setFd hf with rfl | hf | hf
    · rw [hg] at hu
      cases hu
    · rcases mem_cons.mp hf with rfl | hf
      · exact has_table ht i
      · exact .inl hf
    · exact .inr hf
  · intro P hP
    have hset := total_setFd ht i g hand (P := P)
    rw [hP _ hg] at hset
    rw [total_cons]
    exact hset

/-- **Replace** an entry by one that refers to no more than it. -/
theorem Table.replace (h : Table e s hand) (ht : t ∈ s.threads) (hgood : Good s g)
    (href : ∀ n, (g.refers n).toNat ≤ ((s.fds t i).refers n).toNat)
    (hend : ∀ type p, (s.atEnd type p g).toNat ≤ (s.atEnd type p (s.fds t i)).toNat ∧
      (e → s.atEnd type p g = s.atEnd type p (s.fds t i))) : Table e (s.setFd t i g) hand := by
  constructor
  case good =>
    intro f hf
    have hold : Good s f := by
      rcases has_setFd hf with rfl | hf
      · exact hgood
      · exact h.good f hf
    exact ⟨hold.vnode, hold.pipe⟩
  case held =>
    intro n hn
    have hsum := total_setFd (P := File.refers n) ht i g hand
    have hle := h.held n hn
    have hless := href n
    show _ ≤ (s.vnode n).refcount
    omega
  case counts =>
    intro p hp type htype
    have hsum := total_setFd (P := s.atEnd type p) ht i g hand
    obtain ⟨hle, heq⟩ := h.counts p hp type htype
    obtain ⟨hless, hsame⟩ := hend type p
    show (total (s.setFd t i g) hand (s.atEnd type p) : ℤ) ≤ (s.pipe p).count type ∧
      (e → (s.pipe p).count type = total (s.setFd t i g) hand (s.atEnd type p))
    refine ⟨by omega, fun he => ?_⟩
    rw [hsame he] at hsum
    rw [heq he]
    omega

/-- **Overwrite** an entry by one that refers to nothing.  The reference is lost. -/
theorem Table.overwrite (h : Table e s hand) (ht : t ∈ s.threads)
    (hg : g.kind ≠ .vnode ∧ g.kind ≠ .pipe)
    (hold : e → (s.fds t i).used = true → (s.fds t i).kind ≠ .pipe) :
    Table e (s.setFd t i g) hand := by
  refine h.replace ht ⟨fun _ hk => absurd hk hg.1, fun _ hk => absurd hk hg.2⟩ (fun n => ?_)
    fun type p => ?_
  · rw [show g.refers n = false by simp [File.refers, hg]]
    exact Nat.zero_le _
  · rw [show s.atEnd type p g = false by simp [atEnd, hg]]
    refine ⟨Nat.zero_le _, fun he => (Bool.eq_false_iff.mpr fun hr => ?_).symm⟩
    obtain ⟨hu, hk, -⟩ := atEnd_eq_true.mp hr
    exact hold he hu hk

/-- Moving the offset of an entry. -/
theorem Table.reoffset (h : Table e s hand) (ht : t ∈ s.threads) (i : Fin 32) (off : ℕ) :
    Table e (s.setFd t i { s.fds t i with off := off }) hand :=
  have hold := h.good _ (has_table ht i)
  h.replace ht ⟨hold.vnode, hold.pipe⟩ (fun _ => le_refl _) fun _ _ => ⟨le_refl _, fun _ => rfl⟩

/-! ### Taking and giving up -/

/-- The state differs in nothing but counts from the one before. -/
structure Recount (s s' : Files) : Prop where
  fds : s'.fds = s.fds
  threads : s'.threads = s.threads
  live : s'.live = s.live
  pipes : s'.pipes = s.pipes
  type : ∀ n, (s'.vnode n).type = (s.vnode n).type
  priv : ∀ n, (s'.vnode n).priv = (s.vnode n).priv

theorem Recount.good (hs : Recount s s') (h : Good s f) : Good s' f := by
  refine h.frame (fun n hn _ => ⟨by rw [hs.live]; exact hn, hs.type n, hs.priv n⟩) ?_
  intro p type hr
  rw [hs.pipes]
  exact h.pipe_live hr

theorem Recount.has (hs : Recount s s') : Has s' hand f ↔ Has s hand f :=
  has_state hs.fds hs.threads

theorem Recount.total_atEnd (hs : Recount s s') (type : VType) (p : ℕ) :
    total s' hand (s'.atEnd type p) = total s hand (s.atEnd type p) := by
  have hend : s'.atEnd type p = s.atEnd type p := by
    funext f
    simp only [atEnd, Vnode.isEnd, hs.type, hs.priv]
  rw [hend, total_state hs.fds hs.threads]

/-- **Take** a reference: the counts have gone up by the entry. -/
theorem Table.take (h : Table e s hand) (hs : Recount s s') (hf : Good s f)
    (href : ∀ n ∈ s.live, total s hand (File.refers n) + (f.refers n).toNat ≤ (s'.vnode n).refcount)
    (hcount : ∀ p ∈ s.pipes, ∀ type : VType, type.IsEnd →
      (s'.pipe p).count type = (s.pipe p).count type + (s.atEnd type p f).toNat) :
    Table e s' (f :: hand) := by
  constructor
  case good =>
    intro g hg
    rcases hs.has.mp hg with hg | hg
    · rcases mem_cons.mp hg with rfl | hg
      · exact hs.good hf
      · exact hs.good (h.good g (.inl hg))
    · exact hs.good (h.good g (.inr hg))
  case held =>
    intro n hn
    rw [hs.live] at hn
    rw [total_state hs.fds hs.threads, total_cons]
    exact href n hn
  case counts =>
    intro p hp type htype
    rw [hs.pipes] at hp
    obtain ⟨hle, heq⟩ := h.counts p hp type htype
    rw [hs.total_atEnd, total_cons, hcount p hp type htype]
    refine ⟨by push_cast; omega, fun he => ?_⟩
    rw [heq he]
    push_cast
    rfl

/-- **Give up** a reference: the counts have gone down by the entry. -/
theorem Table.untake (h : Table e s (f :: hand)) (hs : Recount s s')
    (href : ∀ n ∈ s.live, (s.vnode n).refcount ≤ (s'.vnode n).refcount + (f.refers n).toNat)
    (hcount : ∀ p ∈ s.pipes, ∀ type : VType, type.IsEnd →
      (s'.pipe p).count type = (s.pipe p).count type - (s.atEnd type p f).toNat) :
    Table e s' hand := by
  constructor
  case good => exact fun g hg => hs.good (h.good g (hs.has.mp hg).cons)
  case held =>
    intro n hn
    rw [hs.live] at hn
    have hle := h.held n hn
    have := href n hn
    rw [total_cons] at hle
    rw [total_state hs.fds hs.threads]
    omega
  case counts =>
    intro p hp type htype
    rw [hs.pipes] at hp
    obtain ⟨hle, heq⟩ := h.counts p hp type htype
    rw [total_cons] at hle heq
    push_cast at hle heq
    rw [hs.total_atEnd, hcount p hp type htype]
    refine ⟨by omega, fun he => ?_⟩
    have := heq he
    omega

section

variable (h : Table e s hand)
include h

/-- Counts may go up by nothing. -/
theorem Table.recount (hs : Recount s s')
    (href : ∀ n ∈ s.live, (s.vnode n).refcount ≤ (s'.vnode n).refcount)
    (hcount : ∀ p ∈ s.pipes, ∀ type, (s'.pipe p).count type = (s.pipe p).count type) :
    Table e s' hand where
  good := fun g hg => hs.good (h.good g (hs.has.mp hg))
  held := by
    intro n hn
    rw [hs.live] at hn
    rw [total_state hs.fds hs.threads]
    exact (h.held n hn).trans (href n hn)
  counts := by
    intro p hp type htype
    rw [hs.pipes] at hp
    rw [hs.total_atEnd, hcount p hp type]
    exact h.counts p hp type htype

/-! ### Allocating and freeing -/

/-- **Free** what nothing refers to. -/
theorem Table.shrink (hfds : s'.fds = s.fds) (hthreads : s'.threads = s.threads)
    (hvnode : s'.vnode = s.vnode) (hpipe : s'.pipe = s.pipe) (hlive : s'.live ⊆ s.live)
    (hpipes : s'.pipes ⊆ s.pipes)
    (hn : ∀ n ∈ s.live, n ∉ s'.live → total s hand (File.refers n) = 0)
    (hp : ∀ p ∈ s.pipes, p ∉ s'.pipes → ∀ type : VType, type.IsEnd →
      total s hand (s.atEnd type p) = 0)
    : Table e s' hand := by
  have hhas : ∀ g, Has s' hand g → Has s hand g := fun g hg => (has_state hfds hthreads).mp hg
  refine h.frame (fun g hg _ => hhas g hg) ?_ ?_ ?_ ?_
  · intro g hg n hmem hr
    refine ⟨?_, by rw [hvnode], by rw [hvnode]⟩
    by_contra hfreed
    have := total_pos (hhas g hg) hr
    rw [hn n hmem hfreed] at this
    exact Nat.lt_irrefl 0 this
  · intro g hg p type hr
    have hgood := h.good g (hhas g hg)
    by_contra hfreed
    have htype : type.IsEnd := by
      obtain ⟨hu, hk, n, hnd, ht, -⟩ := atEnd_eq_true.mp hr
      obtain ⟨m, -, hmd, hend, -⟩ := hgood.pipe hu hk
      rw [hnd, Option.some.injEq] at hmd
      rw [← ht, hmd]
      exact hend
    have := total_pos (hhas g hg) hr
    rw [hp p (hgood.pipe_live hr) hfreed type htype] at this
    exact Nat.lt_irrefl 0 this
  · intro n hmem
    rw [total_state hfds hthreads, hvnode]
    exact h.held n (hlive hmem)
  · intro p hmem type htype
    rw [total_state hfds hthreads, hpipe]
    exact h.counts p (hpipes hmem) type htype

theorem Table.freeVnode (hn : total s hand (File.refers n) = 0) : Table e (s.freeVnode n) hand := by
  refine h.shrink rfl rfl rfl rfl (erase_subset n s.live) (Subset.refl _) ?_
    (fun p hp hp' => absurd hp hp')
  intro m hm hm'
  have hmn : m = n := by
    by_contra hne
    exact hm' (mem_erase_of_ne_of_mem hne hm)
  rw [hmn]
  exact hn

/-- A pipe whose counts are zero can be freed. -/
theorem Table.freePipe (hr : (s.pipe p).nreaders = 0) (hw : (s.pipe p).nwriters = 0) :
    Table e (s.freePipe p) hand := by
  refine h.shrink rfl rfl rfl rfl (Subset.refl _) (erase_subset p s.pipes)
    (fun n hn hn' => absurd hn hn') ?_
  intro q hq hq' type htype
  have hqp : q = p := by
    by_contra hne
    exact hq' (mem_erase_of_ne_of_mem hne hq)
  have hle := (h.counts q hq type htype).1
  have hzero : (s.pipe q).count type = 0 := by
    rw [hqp]
    rcases htype with rfl | rfl
    · exact hr
    · exact hw
  omega

/-- A fresh vnode. -/
theorem Table.newVnode (hn : n ∉ s.live) (v : Vnode) : Table e (s.newVnode n v) hand := by
  have hsame : ∀ P, total (s.newVnode n v) hand P = total s hand P := fun P => total_state rfl rfl
  have hne : ∀ m ∈ s.live, m ≠ n := fun m hm he => hn (he ▸ hm)
  refine h.frame (fun g hg _ => (has_state rfl rfl).mp hg) ?_ ?_ ?_ ?_
  · intro g _ m hm _
    rw [newVnode_vnode_of_ne s v (hne m hm)]
    exact ⟨mem_insert_of_mem hm, rfl, rfl⟩
  · intro g hg p type hr
    exact (h.good g ((has_state rfl rfl).mp hg)).pipe_live hr
  · intro m hm
    rw [hsame]
    rcases mem_insert.mp hm with rfl | hm
    · rw [h.refers_fresh hn]
      exact Nat.zero_le _
    · rw [newVnode_vnode_of_ne s v (hne m hm)]
      exact h.held m hm
  · intro p hp type htype
    rw [hsame]
    exact h.counts p hp type htype

/-- A fresh pipe that counts nothing. -/
theorem Table.newPipe (hp : p ∉ s.pipes) {x : Pipe} (hr : x.nreaders = 0) (hw : x.nwriters = 0) :
    Table e (s.newPipe p x) hand := by
  have hsame : ∀ P, total (s.newPipe p x) hand P = total s hand P := fun P => total_state rfl rfl
  refine h.frame (fun g hg _ => (has_state rfl rfl).mp hg) (fun g _ m hm _ => ⟨hm, rfl, rfl⟩)
    ?_ ?_ ?_
  · intro g hg q type hr
    exact mem_insert_of_mem ((h.good g ((has_state rfl rfl).mp hg)).pipe_live hr)
  · intro m hm
    rw [hsame]
    exact h.held m hm
  · intro q hq type htype
    rw [hsame]
    by_cases hqp : q = p
    · subst hqp
      have hzero : ((s.newPipe q x).pipe q).count type = 0 := by
        rw [show (s.newPipe q x).pipe q = x from update_self ..]
        rcases htype with rfl | rfl
        · exact hr
        · exact hw
      rw [h.atEnd_fresh hp type, hzero]
      exact ⟨le_refl 0, fun _ => rfl⟩
    · rw [show (s.newPipe p x).pipe q = s.pipe q from update_of_ne hqp ..]
      exact h.counts q ((mem_insert.mp hq).resolve_left hqp) type htype

/-! ### Threads -/

/-- A thread whose table is empty may come. -/
theorem Table.addThread (ht : t ∉ s.threads) {row : Fin 32 → File}
    (hrow : ∀ i, (row i).used = false) :
    Table e { s with threads := insert t s.threads, fds := update s.fds t row } hand := by
  have hother : ∀ u ∈ s.threads, update s.fds t row u = s.fds u := by
    intro u hu
    have hut : u ≠ t := by
      rintro rfl
      exact ht hu
    exact update_of_ne hut ..
  refine h.regroup rfl rfl rfl rfl ?_ ?_
  · rintro g (hg | ⟨u, hmem, i, rfl⟩) hu
    · exact .inl hg
    · dsimp only at hu ⊢
      rcases mem_insert.mp hmem with rfl | hmem
      · rw [update_self, hrow i] at hu
        cases hu
      · rw [hother u hmem]
        exact has_table hmem i
  · intro P hP
    have hrow' : ∀ i, P (update s.fds t row t i) = false := by
      intro i
      rw [update_self]
      exact hP _ (hrow i)
    rw [total, total, tally_insert ht hrow', tally_congr fun u hu i => by rw [hother u hu]]

/-- A thread that has closed its table may go. -/
theorem Table.eraseThread (ht : t ∈ s.threads) (hrow : ∀ i, (s.fds t i).used = false) :
    Table e { s with threads := s.threads.erase t } hand := by
  refine h.regroup rfl rfl rfl rfl ?_ ?_
  · rintro g (hg | ⟨u, hu, i, rfl⟩) _
    · exact .inl hg
    · exact has_table (mem_of_mem_erase hu) i
  · intro P hP
    rw [total, total, tally_erase ht fun i => hP _ (hrow i)]

end

end AxiomeOS.Vfs
