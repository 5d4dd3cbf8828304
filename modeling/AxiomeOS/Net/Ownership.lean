import AxiomeOS.Net.Mbuf

/-!
# Who owns an mbuf

Every entry of the pool is tagged with the one place that may reach it: the free list, the
receive chain of a socket, a segment of a retransmission queue, code outside `tcp.c`, or the call
that is running.  A `Partition` is a tagging under which the free list is a chain of entries
tagged `free`.

Each operation of `net_buf.c` comes with one lemma: it keeps the partition, moves entries between
the owners it is about, and leaves tag and content of every other entry alone (`Frame`).
-/

namespace AxiomeOS.Net

open Bytes Chains Function List

/-- The place that may reach an mbuf.  The owners of packets other than a receive chain are told
apart by the first mbuf of the packet. -/
inductive Owner
  | free
  | rx (i : Fin 32)
  | tx (i : Fin 32) (head : MbufPtr)
  | held (head : MbufPtr)
  | call (head : MbufPtr)
  | lost
  deriving DecidableEq

/-- The entries on the free list are tagged `free`, and no reference is shared. -/
structure Partition (p : Pool) (own : MbufPtr → Owner) : Prop where
  free : Holds own .free p.nextFree p.free
  refs : ∀ k, (p.mbuf k).refcount ≤ 1

/-- Every entry whose tag is not among `T` keeps its tag and its content. -/
def Frame (T : Owner → Prop) (p : Pool) (own : MbufPtr → Owner) (p' : Pool)
    (own' : MbufPtr → Owner) : Prop :=
  ∀ k, ¬ T (own k) → own' k = own k ∧ p'.mbuf k = p.mbuf k

variable {p p' p'' : Pool} {own own' own'' : MbufPtr → Owner} {T T' : Owner → Prop}
  {t t' : Owner} {k : MbufPtr}

theorem Frame.refl (T : Owner → Prop) (p : Pool) (own : MbufPtr → Owner) :
    Frame T p own p own := fun _ _ => ⟨rfl, rfl⟩

theorem Frame.mono (h : Frame T p own p' own') (hT : ∀ t, T t → T' t) : Frame T' p own p' own' :=
  fun k hk => h k fun ht => hk (hT _ ht)

theorem Frame.trans (h : Frame T p own p' own') (h' : Frame T p' own' p'' own'') :
    Frame T p own p'' own'' := by
  intro k hk
  obtain ⟨hown, hmbuf⟩ := h k hk
  obtain ⟨hown', hmbuf'⟩ := h' k (hown ▸ hk)
  exact ⟨hown'.trans hown, hmbuf'.trans hmbuf⟩

theorem Frame.holds (h : Frame T p own p' own') (ht : ¬ T t) {q : Option MbufPtr}
    (hq : Holds own t p.nextSeg q) : Holds own' t p'.nextSeg q := by
  refine hq.frame fun a ha => ?_
  obtain ⟨hown, hmbuf⟩ := h a (ha ▸ ht)
  exact ⟨hown.trans ha, congrArg Mbuf.nextSeg hmbuf⟩

/-! ### Writes -/

theorem Partition.modify (hp : Partition p own) (f : Mbuf → Mbuf) (hk : own k ≠ .free)
    (hf : (f (p.mbuf k)).refcount ≤ 1) : Partition (p.modify k f) own where
  free := by
    refine hp.free.frame fun a ha => ⟨ha, ?_⟩
    have hne : a ≠ k := fun h => hk (h ▸ ha)
    exact congrArg Mbuf.next (p.modify_mbuf_of_ne f hne)
  refs := by
    intro j
    by_cases hj : j = k
    · rw [hj, Pool.modify_mbuf_self]
      exact hf
    · rw [p.modify_mbuf_of_ne f hj]
      exact hp.refs j

theorem Partition.setNextSeg (hp : Partition p own) (q : Option MbufPtr) (hk : own k ≠ .free) :
    Partition (p.setNextSeg k q) own :=
  hp.modify _ hk (hp.refs k)

theorem Frame.modify (p : Pool) (own : MbufPtr → Owner) (k : MbufPtr) (f : Mbuf → Mbuf) :
    Frame (· = own k) p own (p.modify k f) own := by
  intro j hj
  have hne : j ≠ k := fun h => hj (h ▸ rfl)
  exact ⟨rfl, p.modify_mbuf_of_ne f hne⟩

theorem exists_retag (hp : Partition p own) (h : Holds own t p.nextSeg (some k))
    (ht : t ≠ .free) (t' : Owner) : ∃ own', Partition p own' ∧ Frame (· = t) p own p own' ∧
      Holds own' t' p.nextSeg (some k) := by
  obtain ⟨l, hl, hown⟩ := h
  refine ⟨fun j => if j ∈ l then t' else own j, ⟨?_, hp.refs⟩, ?_, l, hl, ?_⟩
  · refine hp.free.frame fun a ha => ⟨?_, rfl⟩
    have hnot : a ∉ l := fun hmem => ht ((hown a hmem).symm.trans ha)
    rw [if_neg hnot, ha]
  · intro j hj
    have hnot : j ∉ l := fun hmem => hj (hown j hmem)
    exact ⟨if_neg hnot, rfl⟩
  · intro a ha
    exact if_pos ha

/-- An entry put in front of the free list. -/
theorem Partition.push (hp : Partition p own) (f : Mbuf → Mbuf) (hk : own k ≠ .free)
    (hnext : (f (p.mbuf k)).next = p.free) (hf : (f (p.mbuf k)).refcount ≤ 1) :
    Partition { p.modify k f with free := some k } (update own k .free) where
  free := by
    obtain ⟨l, hl, hown⟩ := hp.free
    have hnot : ∀ a ∈ l, a ≠ k := fun a ha h => hk (h ▸ hown a ha)
    refine ⟨k :: l, ⟨rfl, ?_⟩, ?_⟩
    · have hlink : Pool.nextFree { p.modify k f with free := some k } k = p.free :=
        (congrArg Mbuf.next (p.modify_mbuf_self k f)).trans hnext
      rw [hlink]
      exact hl.frame fun a ha => congrArg Mbuf.next (p.modify_mbuf_of_ne f (hnot a ha))
    · intro a ha
      rcases mem_cons.mp ha with rfl | ha
      · exact update_self ..
      · rw [update_of_ne (hnot a ha)]
        exact hown a ha
  refs := (hp.modify f hk hf).refs

theorem Partition.pushFree (hp : Partition p own) (hk : own k ≠ .free) :
    Partition (p.pushFree k) (update own k .free) :=
  hp.push (fun m => { m with refcount := 1, next := p.free }) hk rfl (Nat.le_refl 1)

theorem Frame.reown (h : Frame (· = own k) p own p' own) (t : Owner) :
    Frame (· = own k) p own p' (update own k t) := by
  intro j hj
  have hne : j ≠ k := fun h => hj (h ▸ rfl)
  exact ⟨update_of_ne hne .., (h j hj).2⟩

theorem Frame.pushFree (p : Pool) (own : MbufPtr → Owner) (k : MbufPtr) :
    Frame (· = own k) p own (p.pushFree k) (update own k .free) :=
  Frame.reown (.modify p own k fun m => { m with refcount := 1, next := p.free }) .free

/-! ### The operations of the pool -/

/-- **The pool starts as a partition**, with every entry that got a page on the free list. -/
theorem mbufInit_partition (page : MbufPtr → Option Buffer) :
    ∃ own, Partition (mbufInit page) own := by
  refine Exists.imp (fun own h => And.left h) (?_ : ∃ own, _ ∧ ∀ k ∉ finRange 256, own k = .lost)
  rw [mbufInit]
  have hnd := nodup_finRange 256
  -- `l` is the part of the table already visited: the entries before it are untouched.
  generalize finRange 256 = l at hnd ⊢
  induction l with
  | nil => exact ⟨fun _ => .lost, ⟨.null _ _, fun _ => Nat.zero_le _⟩, fun _ _ => rfl⟩
  | cons i l ih =>
    obtain ⟨hi, hnd⟩ := nodup_cons.mp hnd
    obtain ⟨own, hp, hlost⟩ := ih hnd
    rw [foldr_cons]
    cases page i with
    | none => refine ⟨own, hp, fun k hk => hlost k fun hmem => hk (mem_cons_of_mem _ hmem)⟩
    | some data =>
      refine ⟨_, hp.push _ (by rw [hlost i hi]; simp) rfl (Nat.le_refl 1), ?_⟩
      intro k hk
      obtain ⟨hki, hkl⟩ := not_or.mp (mt mem_cons.mpr hk)
      rw [update_of_ne hki]
      exact hlost k hkl

theorem mbufAlloc_owned (hp : Partition p own) {a : MbufPtr}
    (h : mbufAlloc p = some (a, p')) (t : Owner) : own a = .free ∧ Partition p' (update own a t) ∧
      Frame (· = .free) p own p' (update own a t) ∧ p'.nextSeg a = none := by
  rw [mbufAlloc] at h
  cases hfree : p.free with
  | none => rw [hfree] at h; cases h
  | some b =>
    rw [hfree] at h
    simp only [Option.some.injEq, Prod.mk.injEq] at h
    obtain ⟨rfl, rfl⟩ := h
    obtain ⟨l, hl, hown⟩ := hp.free
    rw [hfree] at hl
    cases l with
    | nil => cases hl
    | cons c l =>
      obtain rfl : b = c := Option.some.inj hl.1
      have hb : own b = .free := hown b mem_cons_self
      have hnot : ∀ a ∈ l, a ≠ b := fun a ha h =>
        (nodup_cons.mp hl.nodup).1 (h ▸ ha)
      have hkeep : ∀ j, j ≠ b → (p.modify b Mbuf.fresh).mbuf j = p.mbuf j := fun j hj =>
        p.modify_mbuf_of_ne Mbuf.fresh hj
      have hself := p.modify_mbuf_self b Mbuf.fresh
      refine ⟨hb, ⟨⟨l, ?_, ?_⟩, ?_⟩, ?_, ?_⟩
      · exact .frame hl.2 fun a ha => congrArg Mbuf.next (hkeep a (hnot a ha))
      · intro a ha
        rw [update_of_ne (hnot a ha)]
        exact hown a (mem_cons_of_mem _ ha)
      · intro j
        by_cases hj : j = b
        · subst hj
          exact (congrArg Mbuf.refcount hself).le
        · exact (congrArg Mbuf.refcount (hkeep j hj)).le.trans (hp.refs j)
      · intro j hj
        have hne : j ≠ b := fun h => hj (h ▸ hb)
        exact ⟨update_of_ne hne .., hkeep j hne⟩
      · exact congrArg Mbuf.nextSeg hself

/-- An entry taken from the free list and filled. -/
theorem mbufAlloc_modify_owned (hp : Partition p own) {a : MbufPtr} (h : mbufAlloc p = some (a, p'))
    (ht : t ≠ .free) {f : Mbuf → Mbuf} (hf : (f (p'.mbuf a)).refcount ≤ 1)
    (hseg : (f (p'.mbuf a)).nextSeg = none) : own a = .free ∧
      Partition (p'.modify a f) (update own a t) ∧
      Frame (· = .free) p own (p'.modify a f) (update own a t) ∧
      (p'.modify a f).nextSeg a = none := by
  obtain ⟨ha, hp1, hframe, -⟩ := mbufAlloc_owned hp h t
  refine ⟨ha, hp1.modify f (by rw [update_self]; exact ht) hf, fun j hj => ?_, ?_⟩
  · have hne : j ≠ a := fun h => hj (h ▸ ha)
    exact ⟨(hframe j hj).1, (p'.modify_mbuf_of_ne f hne).trans (hframe j hj).2⟩
  · exact (congrArg Mbuf.nextSeg (p'.modify_mbuf_self a f)).trans hseg

theorem Holds.single (h : p.nextSeg k = none) (hk : own k = t) : Holds own t p.nextSeg (some k) :=
  ⟨[k], ⟨rfl, h⟩, fun a ha => by rw [mem_singleton.mp ha, hk]⟩

theorem freeSegs_owned (ht : t ≠ .free) (l : List MbufPtr) {fuel : ℕ} {p : Pool}
    {own : MbufPtr → Owner} (hp : Partition p own) (hl : Chain p.nextSeg (p.nextSeg k) l)
    (hown : ∀ a ∈ l, own a = t) (hk : own k = t) (hnot : k ∉ l) (hfuel : l.length ≤ fuel) :
    ∃ own', Partition (freeSegs fuel p k) own' ∧
      Frame (· = t) p own (freeSegs fuel p k) own' ∧ own' k = t := by
  -- The fragments leave the packet from the front, one per round.
  induction l generalizing fuel p own with
  | nil =>
    have hdone : freeSegs fuel p k = p := by
      cases fuel with
      | zero => rfl
      | succ fuel => rw [freeSegs, show p.nextSeg k = none from hl]
    rw [hdone]
    exact ⟨own, hp, .refl _ _ _, hk⟩
  | cons seg l ih =>
    obtain ⟨fuel, rfl⟩ : ∃ j, fuel = j + 1 := ⟨fuel - 1, by simp at hfuel; omega⟩
    obtain ⟨hks, hkl⟩ := not_or.mp (mt mem_cons.mpr hnot)
    obtain ⟨hsl, -⟩ := nodup_cons.mp hl.nodup
    have hseg : own seg = t := hown seg mem_cons_self
    have hp2 : Partition ((p.setNextSeg k (p.nextSeg seg)).pushFree seg) (update own seg .free) :=
      (hp.setNextSeg _ (hk ▸ ht)).pushFree (hseg ▸ ht)
    have hkeep : ∀ a, a ≠ k → a ≠ seg →
        ((p.setNextSeg k (p.nextSeg seg)).pushFree seg).mbuf a = p.mbuf a := fun a hak has =>
      (Pool.pushFree_mbuf_of_ne _ has).trans (p.setNextSeg_mbuf_of_ne _ hak)
    have hlink : ((p.setNextSeg k (p.nextSeg seg)).pushFree seg).nextSeg k = p.nextSeg seg := by
      rw [Pool.pushFree_nextSeg, Pool.setNextSeg_nextSeg_self]
    have hrest : Chain ((p.setNextSeg k (p.nextSeg seg)).pushFree seg).nextSeg
        (((p.setNextSeg k (p.nextSeg seg)).pushFree seg).nextSeg k) l := by
      rw [hlink]
      refine .frame hl.2 fun a ha => congrArg Mbuf.nextSeg (hkeep a ?_ ?_)
      · exact fun h => hkl (h ▸ ha)
      · exact fun h => hsl (h ▸ ha)
    have hown2 : ∀ a, a ≠ seg → update own seg Owner.free a = own a :=
      fun a ha => update_of_ne ha ..
    obtain ⟨own', hp', hframe, hk'⟩ := ih hp2 hrest
      (fun a ha => (hown2 a fun h => hsl (h ▸ ha)).trans (hown a (mem_cons_of_mem _ ha)))
      ((hown2 k hks).trans hk) hkl (by simpa using hfuel)
    rw [freeSegs, hl.1]
    refine ⟨own', hp', .trans ?_ hframe, hk'⟩
    intro a ha
    have has : a ≠ seg := fun h => ha (h ▸ hseg)
    exact ⟨hown2 a has, hkeep a (fun h => ha (h ▸ hk)) has⟩

/-- **`mbuf_free` gives back the whole packet** that hangs off its argument, and nothing else. -/
theorem mbufFree_owned (hp : Partition p own) (h : Holds own t p.nextSeg (some k))
    (ht : t ≠ .free) :
    ∃ own', Partition (mbufFree p k) own' ∧ Frame (· = t) p own (mbufFree p k) own' ∧
      own' k = .free ∧ (mbufFree p k).free = some k := by
  obtain ⟨l, hl, hown⟩ := h
  cases l with
  | nil => cases hl
  | cons a l =>
    obtain rfl : k = a := Option.some.inj hl.1
    have hlen : l.length ≤ 256 := by
      have := hl.length_le
      simp only [length_cons, Fintype.card_fin] at this
      omega
    have hrest : ∀ a ∈ l, own a = t := fun a ha => hown a (mem_cons_of_mem _ ha)
    obtain ⟨own1, hp1, hframe, hk1⟩ := freeSegs_owned ht l hp hl.2 hrest
      (hown k mem_cons_self) (nodup_cons.mp hl.nodup).1 hlen
    rw [mbufFree, if_neg (by have := hp.refs k; omega)]
    refine ⟨_, hp1.pushFree (hk1 ▸ ht), hframe.trans ?_, update_self .., rfl⟩
    have hpush := Frame.pushFree (freeSegs 256 p k) own1 k
    rw [hk1] at hpush
    exact hpush

theorem mbufAlloc0_owned (hp : Partition p own) {a : MbufPtr}
    (h : mbufAlloc0 p = some (a, p')) (ht : t ≠ .free) :
    own a = .free ∧ Partition p' (update own a t) ∧
      Frame (· = .free) p own p' (update own a t) ∧ p'.nextSeg a = none := by
  rw [mbufAlloc0] at h
  cases halloc : mbufAlloc p with
  | none => rw [halloc] at h; cases h
  | some r =>
    obtain ⟨b, p1⟩ := r
    rw [halloc] at h
    simp only [Option.some.injEq, Prod.mk.injEq] at h
    obtain ⟨rfl, rfl⟩ := h
    obtain ⟨-, hp1, -, hnone⟩ := mbufAlloc_owned hp halloc t
    exact mbufAlloc_modify_owned hp halloc ht (hp1.refs b) hnone

/-- The packet at `b` hung behind the mbuf `a`, which had nothing behind it. -/
theorem exists_link (hp : Partition p own) {a b : MbufPtr} (ha : own a = t)
    (hb : Holds own t' p.nextSeg (some b)) (ht : t ≠ .free) (ht' : t' ≠ .free) (hne : t' ≠ t) :
    ∃ own', Partition (p.setNextSeg a (some b)) own' ∧
      Frame (fun x => x = t ∨ x = t') p own (p.setNextSeg a (some b)) own' ∧
      Holds own' t (p.setNextSeg a (some b)).nextSeg (some a) := by
  obtain ⟨own', hp', hframe, l, hl, hown⟩ := exists_retag hp hb ht' t
  have ha' : own' a = t := (hframe a (ha ▸ hne.symm)).1.trans ha
  refine ⟨own', hp'.setNextSeg _ (ha' ▸ ht), ?_, a :: l, ⟨rfl, ?_⟩, ?_⟩
  · refine Frame.trans (hframe.mono fun _ h => .inr h) ?_
    have hset := Frame.modify p own' a fun m => { m with nextSeg := some b }
    exact hset.mono fun _ h => .inl (h.trans ha')
  · -- `a` is not on the chain from `b`: the retagging kept the old tag of `a`.
    have hnot : a ∉ l := by
      intro hmem
      obtain ⟨l', hl', hown'⟩ := hb
      rw [hl.unique hl'] at hmem
      exact hne ((hown' a hmem).symm.trans ha)
    rw [Pool.setNextSeg_nextSeg_self]
    exact hl.frame fun c hc => p.setNextSeg_nextSeg_of_ne _ fun h => hnot (h ▸ hc)
  · intro c hc
    rcases mem_cons.mp hc with rfl | hc
    · exact ha'
    · exact hown c hc

theorem cloneSegs_owned (ht : t ≠ .free) {c : MbufPtr} (fuel : ℕ) {p : Pool} {own : MbufPtr → Owner}
    {dst : MbufPtr} {l : List MbufPtr} (seg : Option MbufPtr) (hp : Partition p own)
    (hl : Chain p.nextSeg (some c) (l ++ [dst])) (hown : ∀ a ∈ l ++ [dst], own a = t) :
    ∃ own', Partition (cloneSegs fuel p c dst seg).1 own' ∧
      Frame (fun x => x = .free ∨ x = t) p own (cloneSegs fuel p c dst seg).1 own' ∧
      ∀ c', (cloneSegs fuel p c dst seg).2 = some c' →
        c' = c ∧ Holds own' t (cloneSegs fuel p c dst seg).1.nextSeg (some c) := by
  -- The copies made so far, `l ++ [dst]`, are a packet of the calling code.
  induction fuel generalizing p own dst l seg with
  | zero =>
    exact ⟨own, hp, .refl _ _ _, fun c' h => ⟨(Option.some.inj h).symm, l ++ [dst], hl, hown⟩⟩
  | succ fuel ih =>
    cases seg with
    | none =>
      exact ⟨own, hp, .refl _ _ _,
        fun c' h => ⟨(Option.some.inj h).symm, l ++ [dst], hl, hown⟩⟩
    | some seg =>
      cases halloc : mbufAlloc p with
      | none =>
        simp only [cloneSegs, halloc]
        obtain ⟨own', hp', hframe, -, -⟩ := mbufFree_owned hp ⟨l ++ [dst], hl, hown⟩ ht
        refine ⟨own', hp', hframe.mono fun _ h => .inr h, ?_⟩
        exact nofun
      | some r =>
        obtain ⟨dc, p1⟩ := r
        simp only [cloneSegs, halloc]
        -- First the new copy is filled, then hung behind the last one.
        obtain ⟨hdc, hp1, hframe1, hnone1⟩ := mbufAlloc_modify_owned hp halloc ht
          (f := copyInto (p1.mbuf seg)) (Nat.le_refl 1) rfl
        have hself : update own dc t dc = t := update_self ..
        have hkeep : ∀ a ∈ l ++ [dst], update own dc t a = t ∧
            (p1.modify dc (copyInto (p1.mbuf seg))).nextSeg a = p.nextSeg a := fun a ha =>
          have hsame := hframe1 a (hown a ha ▸ ht)
          ⟨hsame.1.trans (hown a ha), congrArg Mbuf.nextSeg hsame.2⟩
        have hdst := (hkeep dst (by simp)).1
        have hne : dc ≠ dst := fun h => ht ((hown dst (by simp)).symm.trans (h ▸ hdc))
        have hchain : Chain ((p1.modify dc (copyInto (p1.mbuf seg))).setNextSeg dst
            (some dc)).nextSeg (some c) (l ++ dst :: [dc]) := by
          refine .link hl ⟨rfl, ?_⟩ ?_ (Pool.setNextSeg_nextSeg_self ..)
          · rw [Pool.setNextSeg_nextSeg_of_ne _ _ hne]
            exact hnone1
          · intro b hb
            have hbd := (nodup_append.mp hl.nodup).2.2 b hb dst (by simp)
            rw [Pool.setNextSeg_nextSeg_of_ne _ _ hbd]
            exact (hkeep b (by simp [hb])).2
        obtain ⟨own', hp', hframe', hres⟩ := ih (l := l ++ [dst]) _
          (hp1.setNextSeg (some dc) (hdst.symm ▸ ht)) (by simpa using hchain) (by
            intro a ha
            rcases mem_append.mp ha with ha | ha
            · exact (hkeep a ha).1
            · rw [mem_singleton.mp ha]
              exact hself)
        refine ⟨own', hp', .trans (.trans (hframe1.mono fun _ h => .inl h) ?_) hframe', hres⟩
        exact (Frame.modify _ _ dst _).mono fun _ h => .inr (h.trans hdst)

/-- **`mbuf_clone` makes a packet of its own** out of entries of the free list, whatever its
argument looks like; if the pool runs out, it gives them back. -/
theorem mbufClone_owned (hp : Partition p own) (src : MbufPtr) (t : MbufPtr → Owner)
    (ht : ∀ c, t c ≠ .free) : ∃ own', Partition (mbufClone p src).1 own' ∧
      Frame (fun x => x = .free ∨ ∃ c, own c = .free ∧ x = t c) p own (mbufClone p src).1 own' ∧
      ∀ c, (mbufClone p src).2 = some c →
        own c = .free ∧ Holds own' (t c) (mbufClone p src).1.nextSeg (some c) := by
  cases halloc : mbufAlloc p with
  | none =>
    simp only [mbufClone, halloc]
    refine ⟨own, hp, .refl _ _ _, ?_⟩
    exact nofun
  | some r =>
    obtain ⟨c, p1⟩ := r
    simp only [mbufClone, halloc]
    obtain ⟨hc, hp1, hframe1, hnone1⟩ := mbufAlloc_modify_owned hp halloc (ht c)
      (f := copyInto (p1.mbuf src)) (Nat.le_refl 1) rfl
    obtain ⟨own', hp', hframe', hres⟩ := cloneSegs_owned (ht c) 256 (l := [])
      ((p1.modify c (copyInto (p1.mbuf src))).nextSeg src) hp1 ⟨rfl, hnone1⟩
      (by
        intro a ha
        rw [mem_singleton.mp ha, update_self])
    refine ⟨own', hp', .trans (hframe1.mono fun _ h => .inl h)
      (hframe'.mono fun x h => h.imp id fun h => ⟨c, hc, h⟩), ?_⟩
    · intro c' h
      obtain ⟨rfl, hholds⟩ := hres c' h
      exact ⟨hc, hholds⟩

end AxiomeOS.Net
