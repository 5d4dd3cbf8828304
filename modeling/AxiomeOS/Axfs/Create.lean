import AxiomeOS.Axfs.Directory
import AxiomeOS.Axfs.Full

/-!
# axiomefs: what a new node makes visible

`axfs_create` writes the inode of the new node and then enters it in the parent directory.  The
entry goes to a slot that is free, or to a new data block, or nowhere: `afs_dir_add_entry` returns
silently when the directory has used all its extents, and `axfs_create` answers 0 all the same.
The parent is found by `axfs_parent_dir`, which copies at most `MAX_NAME` bytes of the path before
the last slash.

`Linked v S` is a volume whose inodes `S` own their blocks and whose directories name inodes of
`S` only.  `Entered` says what entering a node changes: the search for that one name in that one
directory.  From it, along a path, `lookupFrom_entered` and then `create_visible_iff`: the new
node is found, and every other path as before, exactly when the cut path leads to the parent and
the parent has room.
-/

namespace AxiomeOS.Axfs

open Bytes List Option

variable {e i d n : ℕ} {v v' : Volume} {S : ℕ → Prop} {name : List UInt8}

/-! ### Volumes whose directories lead to owned inodes -/

/-- The inode is a directory. -/
def isDir (di : Block) : Prop := Inode.inType.get di = NodeType.dir.code

instance (di : Block) : Decidable (isDir di) :=
  inferInstanceAs (Decidable (Inode.inType.get di = NodeType.dir.code))

/-- The inodes `S` own their blocks, the root is one of them, and so is everything a directory of
`S` names. -/
structure Linked (v : Volume) (S : ℕ → Prop) : Prop extends Owned v S where
  root : S v.rootInodeBlock
  closed : ∀ i name n, S i → isDir (v.blocks i) → findEntry v (v.blocks i) name = some n → S n

/-- The directory has a free slot or can grow by a block. -/
def HasRoom (v : Volume) (d : ℕ) : Prop :=
  (scanDir v (v.blocks d) fun blk i => (Dent.inodeId i).get blk = 0).isSome = true ∨
    count (v.blocks d) < maxExtents

instance (v : Volume) (d : ℕ) : Decidable (HasRoom v d) :=
  inferInstanceAs (Decidable (_ ∨ _))

theorem lookupFrom_cons (h : isDir (v.blocks i)) (c : List UInt8)
    (comps : List (List UInt8)) : lookupFrom v i (c :: comps) =
      (findEntry v (v.blocks i) c).bind fun next => lookupFrom v next comps := by
  rw [lookupFrom]
  exact if_neg (not_not_intro h)

theorem lookupFrom_of_not_isDir (h : ¬ isDir (v.blocks i)) (c : List UInt8)
    (comps : List (List UInt8)) : lookupFrom v i (c :: comps) = none := by
  rw [lookupFrom]
  exact if_pos h

/-- A lookup stays in `S`. -/
theorem Linked.lookupFrom_mem (h : Linked v S) (comps : List (List UInt8)) (i : ℕ) (hi : S i)
    (heq : lookupFrom v i comps = some n) : S n := by
  induction comps generalizing i with
  | nil =>
    cases heq
    exact hi
  | cons c comps ih =>
    by_cases hdir : isDir (v.blocks i)
    · rw [lookupFrom_cons hdir] at heq
      obtain ⟨next, hnext, hrest⟩ := bind_eq_some_iff.mp heq
      exact ih next (h.closed i c next hi hdir hnext) hrest
    · rw [lookupFrom_of_not_isDir hdir] at heq
      cases heq

/-- One turn of the loop of `axfs_parent_dir`. -/
theorem parentFrom_cons (v : Volume) (i : ℕ) (c : List UInt8) (comps : List (List UInt8)) :
    parentFrom v i (c :: comps) =
      (findEntry v (v.blocks i) c).elim 0 fun next => parentFrom v next comps := by
  -- the body is unfolded with the search as a variable: unfolded in place, the kernel would
  -- evaluate the search, down to the arithmetic of the extent count
  have hbody : ∀ F : Block → List UInt8 → Option ℕ, findEntry v = F →
      ∃ B : (l : List (List UInt8)) → List.below (motive := fun _ => ℕ → ℕ) l → ℕ → ℕ,
        parentFrom._f v = B ∧
          ∀ c comps f j, B (c :: comps) f j = (F (v.blocks j) c).elim 0 f.1 := by
    intro F hF
    delta parentFrom._f
    rw [hF]
    refine ⟨_, rfl, fun c comps f j => ?_⟩
    dsimp only [Volume.afsReadBlock]
    cases F (v.blocks j) c <;> rfl
  have hrec : parentFrom v =
      fun x l => List.brecOn (motive := fun _ => ℕ → ℕ) l (parentFrom._f v) x := by
    delta parentFrom
    with_reducible rfl
  obtain ⟨B, hB, hcons⟩ := hbody _ rfl
  rw [hrec, hB]
  exact hcons c comps _ i

/-- Where a lookup gets, `axfs_parent_dir` gets. -/
theorem parentFrom_of_lookupFrom (comps : List (List UInt8)) (i : ℕ)
    (heq : lookupFrom v i comps = some n) : parentFrom v i comps = n := by
  induction comps generalizing i with
  | nil =>
    cases heq
    rfl
  | cons c comps ih =>
    rw [lookupFrom] at heq
    split at heq
    case isTrue => cases heq
    case isFalse =>
      obtain ⟨next, hnext, hrest⟩ := bind_eq_some_iff.mp heq
      rw [parentFrom_cons, show findEntry v (v.blocks i) c = some next from hnext]
      exact ih next hrest

theorem lookupFrom_append (v : Volume) (cs ds : List (List UInt8)) :
    ∀ i, lookupFrom v i (cs ++ ds) = (lookupFrom v i cs).bind fun n => lookupFrom v n ds := by
  induction cs with
  | nil => intro i; rfl
  | cons c cs ih =>
    intro i
    rw [cons_append, lookupFrom, lookupFrom]
    split
    · rfl
    · rw [bind_assoc]
      exact bind_congr fun n _ => ih n

/-! ### Entering a node -/

/-- **Entering a node** changes the search for one name in one directory, and nothing else that a
lookup reads. -/
structure Entered (v v' : Volume) (S : ℕ → Prop) (d : ℕ) (name : List UInt8) (child : ℕ) :
    Prop where
  node : ∀ i, S i → axfsMakeVnode v' i = axfsMakeVnode v i
  dir : ∀ i, S i → (isDir (v'.blocks i) ↔ isDir (v.blocks i))
  other : ∀ i nm, S i → (0 : UInt8) ∉ nm → ¬ (i = d ∧ nm = name) →
    findEntry v' (v'.blocks i) nm = findEntry v (v.blocks i) nm
  entry : findEntry v' (v'.blocks d) name = some child ∨
    findEntry v' (v'.blocks d) name = findEntry v (v.blocks d) name
  found : HasRoom v d → findEntry v (v.blocks d) name = none →
    findEntry v' (v'.blocks d) name = some child
  lost : ¬ HasRoom v d → findEntry v' (v'.blocks d) name = findEntry v (v.blocks d) name

variable {di : Block} {s : ℕ} {w : Volume}

theorem axfsMakeVnode_congr (h : ∀ f : Field, 32 ≤ f.off → f.off + f.width ≤ 84 →
      f.get (v'.blocks i) = f.get (v.blocks i)) : axfsMakeVnode v' i = axfsMakeVnode v i := by
  simp (disch := decide) only [axfsMakeVnode, Volume.afsReadBlock, h]
  rfl

section Enter

variable {child : ℕ} (type : ℕ)

theorem findEntry_frame (hinode : v'.blocks i = v.blocks i) (hdata : ∀ k, k < count (v.blocks i) →
      v'.blocks (extent (v.blocks i) k) = v.blocks (extent (v.blocks i) k)) (nm : List UInt8) :
    findEntry v' (v'.blocks i) nm = findEntry v (v.blocks i) nm := by
  refine findEntry_congr (by rw [hinode]) fun s hs => ?_
  have hblk := hdata s.1 (mem_slots.mp hs).1
  rw [slotMatches, slotMatches, hinode, hblk]
  exact ⟨rfl, fun _ => rfl⟩

/-- A slot of a directory that is neither the written one nor in the written block. -/
theorem slotMatches_putDent {blk : Block} (hname : name.length < 256)
    (hblk : v'.blocks (extent di e) = putDent blk s name child type)
    (hold : v.blocks (extent di e) = blk)
    (hother : ∀ k, k < count di → k ≠ e → v'.blocks (extent di k) = v.blocks (extent di k))
    {t : ℕ × ℕ} (ht : t ∈ slots (count di)) (hne : t ≠ (e, s)) (nm : List UInt8)
    (hz : (0 : UInt8) ∉ nm) : slotMatches v' di nm t = slotMatches v di nm t ∧
      dentInode (v'.blocks (extent di t.1)) t.2 = dentInode (v.blocks (extent di t.1)) t.2 := by
  by_cases hte : t.1 = e
  · have hts : t.2 ≠ s := fun h => hne (Prod.ext hte h)
    have hsame : ∀ j, 264 * t.2 ≤ j → j < 264 * (t.2 + 1) →
        putDent blk s name child type j = blk j := fun j h1 h2 =>
      putDent_outside blk hname child type (by omega)
    rw [slotMatches, slotMatches, hte, hblk, hold, dentInode_congr hsame]
    refine ⟨?_, rfl⟩
    rw [Bool.eq_iff_iff, dentMatches_iff hz, dentMatches_iff hz, dentInode_congr hsame,
      dentName_congr hsame]
  · rw [slotMatches, slotMatches, hother t.1 (mem_slots.mp ht).1 hte]
    exact ⟨rfl, rfl⟩

theorem entered_nothing (hno : ¬ HasRoom v d)
    (hframe : ∀ i, S i → axfsMakeVnode v' i = axfsMakeVnode v i ∧
      (isDir (v'.blocks i) ↔ isDir (v.blocks i)) ∧
      ∀ nm, findEntry v' (v'.blocks i) nm = findEntry v (v.blocks i) nm) (hd : S d) :
    Entered v v' S d name child where
  node := fun i hi => (hframe i hi).1
  dir := fun i hi => (hframe i hi).2.1
  other := fun i nm hi _ _ => (hframe i hi).2.2 nm
  entry := .inr ((hframe d hd).2.2 name)
  found := fun h _ => absurd h hno
  lost := fun _ => (hframe d hd).2.2 name

theorem find?_first (p : ℕ → Bool) (n : ℕ) (h : ∀ i, i ≠ 0 → p i = false) :
    ((range 15).map fun i => (n, i)).find? (fun s => p s.2) =
      if p 0 = true then some (n, 0) else none := by
  rw [show range 15 = 0 :: (range 14).map (· + 1) from rfl, map_cons, find?_cons]
  cases hp : p 0 with
  | true => rfl
  | false =>
    rw [if_neg Bool.false_ne_true, find?_eq_none]
    intro s hs
    simp only [List.mem_map] at hs
    obtain ⟨i, ⟨j, -, rfl⟩, rfl⟩ := hs
    rw [h (j + 1) (by omega)]
    decide

variable (hc : child ≠ 0) (hc' : child < 2 ^ 32) (hz : (0 : UInt8) ∉ name) (hne : name ≠ [])
  (hname : name.length < 256)

include hc hc' hne hname in
theorem dentMatches_putDent (blk : Block) (i : ℕ) {nm : List UInt8} (hnm : (0 : UInt8) ∉ nm) :
    dentMatches nm (putDent blk i name child type) i = true ↔ nm = name := by
  rw [dentMatches_iff hnm, dentInode_putDent _ _ hname _ hc', dentName_putDent _ _ hname]
  refine ⟨fun h => h.2.2.symm, ?_⟩
  rintro rfl
  exact ⟨hc, hne, rfl⟩

include hc hc' hz hne hname

/-- Writing into a free slot of the directory enters the node. -/
theorem entered_slot (hL : Linked v S) (hd : S d) {s : ℕ × ℕ}
    (hscan : scanDir v (v.blocks d) (fun blk i => (Dent.inodeId i).get blk = 0) = some s)
    (hblk : v'.blocks (extent (v.blocks d) s.1) =
      putDent (v.blocks (extent (v.blocks d) s.1)) s.2 name child type)
    (hframe : ∀ j, InUse v j → j ≠ extent (v.blocks d) s.1 → v'.blocks j = v.blocks j) :
    Entered v v' S d name child := by
  have hs : s.1 < count (v.blocks d) ∧ s.2 < 15 := mem_slots.mp (mem_of_find?_eq_some hscan)
  have hfree : dentInode (v.blocks (extent (v.blocks d) s.1)) s.2 = 0 := by
    have := find?_some hscan
    rwa [decide_eq_true_eq] at this
  have hinode : ∀ i, S i → v'.blocks i = v.blocks i := by
    intro i hi
    refine hframe i (hL.inode i hi) fun h => ?_
    exact (hL.extents d s.1 hd hs.1).2 (h ▸ hi)
  have hdata : ∀ i k, S i → k < count (v.blocks i) → ¬ (i = d ∧ k = s.1) →
      v'.blocks (extent (v.blocks i) k) = v.blocks (extent (v.blocks i) k) := by
    intro i k hi hk hnot
    refine hframe _ (hL.extents i k hi hk).1 fun h => hnot ?_
    exact hL.inj i k d s.1 hi hk hd hs.1 h
  -- the written slot carries the new name, and was free before
  have hnew : ∀ nm, (0 : UInt8) ∉ nm →
      (slotMatches v' (v.blocks d) nm s = true ↔ nm = name) ∧
        slotMatches v (v.blocks d) nm s = false := by
    intro nm hnm
    rw [slotMatches, slotMatches, hblk, dentMatches_putDent type hc hc' hne hname _ _ hnm,
      ← Bool.not_eq_true, dentMatches_iff hnm]
    exact ⟨Iff.rfl, fun h => h.1 hfree⟩
  have hrest : ∀ nm, (0 : UInt8) ∉ nm → ∀ t ∈ slots (count (v.blocks d)), t ≠ s →
      slotMatches v' (v.blocks d) nm t = slotMatches v (v.blocks d) nm t ∧
        dentInode (v'.blocks (extent (v.blocks d) t.1)) t.2 =
          dentInode (v.blocks (extent (v.blocks d) t.1)) t.2 := by
    intro nm hnm t ht hts
    exact slotMatches_putDent type hname hblk rfl
      (fun k hk hke => hdata d k hd hk fun h => hke h.2) ht hts nm hnm
  have hmem : s ∈ slots (count (v.blocks d)) := mem_slots.mpr hs
  have hsearch := find?_of_one ((hnew name hz).1.mpr rfl) (slots (count (v.blocks d)))
    (fun t ht hts => (hrest name hz t ht hts).1) hmem
  have hat : dentInode (v'.blocks (extent (v.blocks d) s.1)) s.2 = child := by
    rw [hblk, dentInode_putDent _ _ hname _ hc']
  refine ⟨fun i hi => ?_, fun i hi => ?_, fun i nm hi hnm hnot => ?_, ?_, fun _ hnone => ?_, ?_⟩
  · exact axfsMakeVnode_congr fun f _ _ => by rw [hinode i hi]
  · rw [hinode i hi]
  · by_cases hid : i = d
    · subst hid
      rw [hinode i hi]
      refine findEntry_congr rfl fun t ht => ?_
      by_cases hts : t = s
      · rw [hts, (hnew nm hnm).2]
        refine ⟨?_, nofun⟩
        rw [← Bool.not_eq_true, (hnew nm hnm).1]
        exact fun h => hnot ⟨rfl, h⟩
      · exact ⟨(hrest nm hnm t ht hts).1, fun _ => (hrest nm hnm t ht hts).2⟩
    · exact findEntry_frame (hinode i hi) (fun k hk => hdata i k hi hk fun h => hid h.1) nm
  · rw [hinode d hd, findEntry_eq, findEntry_eq]
    rcases hsearch with h | ⟨h, hsome⟩
    · left
      rw [h, map_some, hat]
    · right
      rw [h]
      refine map_congr fun t ht => ?_
      have hts : t ≠ s := by
        rintro rfl
        have := find?_some ht
        rw [(hnew name hz).2] at this
        cases this
      exact (hrest name hz t (mem_of_find?_eq_some ht) hts).2
  · rw [hinode d hd, findEntry_eq]
    rw [findEntry_eq, map_eq_none_iff] at hnone
    rcases hsearch with h | ⟨-, hsome⟩
    · rw [h, map_some, hat]
    · exact absurd hnone hsome
  · intro hno
    exact absurd (.inl (by rw [hscan]; rfl)) hno

omit hz in
/-- The fifteen slots of a block that holds one entry. -/
theorem find?_oneEntry {nm : List UInt8} (hnm : (0 : UInt8) ∉ nm) (n : ℕ) :
    ((range 15).map fun i => (n, i)).find?
        (fun s => dentMatches nm (putDent zeroBlock 0 name child type) s.2) =
      if nm = name then some (n, 0) else none := by
  have hrest : ∀ i, i ≠ 0 → dentMatches nm (putDent zeroBlock 0 name child type) i = false := by
    intro i hi
    have hsame : ∀ j, 264 * i ≤ j → j < 264 * (i + 1) →
        putDent zeroBlock 0 name child type j = zeroBlock j := fun j h1 h2 =>
      putDent_outside zeroBlock hname child type (by omega)
    rw [← Bool.not_eq_true, dentMatches_iff hnm, dentInode_congr hsame, dentInode_zeroBlock]
    exact fun h => h.1 rfl
  simp only [find?_first _ n hrest, dentMatches_putDent type hc hc' hne hname _ _ hnm]

/-- Appending a block that holds the entry to the directory enters the node. -/
theorem entered_grow (hL : Linked v S) (hd : S d)
    (hcount : count (v'.blocks d) = count (v.blocks d) + 1) (hextent : ∀ k, extent (v'.blocks d) k =
      if k = count (v.blocks d) then n else extent (v.blocks d) k)
    (hhead : ∀ f : Field, 32 ≤ f.off → f.off + f.width ≤ 84 →
      f.get (v'.blocks d) = f.get (v.blocks d))
    (hblk : v'.blocks n = putDent zeroBlock 0 name child type)
    (hroom : count (v.blocks d) < maxExtents)
    (hframe : ∀ j, InUse v j → j ≠ d → v'.blocks j = v.blocks j) :
    Entered v v' S d name child := by
  have hinode : ∀ i, S i → i ≠ d → v'.blocks i = v.blocks i := fun i hi => hframe i (hL.inode i hi)
  have hdata : ∀ i k, S i → k < count (v.blocks i) →
      v'.blocks (extent (v.blocks i) k) = v.blocks (extent (v.blocks i) k) := by
    intro i k hi hk
    refine hframe _ (hL.extents i k hi hk).1 fun h => ?_
    exact (hL.extents i k hi hk).2 (h ▸ hd)
  -- the search: first the old slots, as before, then the new block
  have hsearch : ∀ nm, (0 : UInt8) ∉ nm → findEntry v' (v'.blocks d) nm =
      (findEntry v (v.blocks d) nm).or (if nm = name then some child else none) := by
    intro nm hnm
    have hold : (slots (count (v.blocks d))).find? (slotMatches v' (v'.blocks d) nm) =
        (slots (count (v.blocks d))).find? (slotMatches v (v.blocks d) nm) := by
      refine find?_congr fun s hs => ?_
      have hlt := (mem_slots.mp hs).1
      rw [slotMatches, slotMatches, hextent, if_neg (Nat.ne_of_lt hlt), hdata d s.1 hd hlt]
    have hnew : ((range 15).map fun i => (count (v.blocks d), i)).find?
        (slotMatches v' (v'.blocks d) nm) =
          if nm = name then some (count (v.blocks d), 0) else none := by
      rw [← find?_oneEntry type hc hc' hne hname hnm]
      refine find?_congr fun s hs => ?_
      obtain ⟨i, -, rfl⟩ := List.mem_map.mp hs
      rw [slotMatches, hextent, if_pos rfl, hblk]
    rw [findEntry_eq, findEntry_eq, hcount, slots_succ, find?_append, hold, hnew]
    cases hs : (slots (count (v.blocks d))).find? (slotMatches v (v.blocks d) nm) with
    | some s =>
      have hlt := (mem_slots.mp (mem_of_find?_eq_some hs)).1
      rw [some_or, map_some, map_some, some_or, hextent,
        if_neg (Nat.ne_of_lt hlt), hdata d s.1 hd hlt]
    | none =>
      rw [none_or, map_none, none_or]
      by_cases heq : nm = name
      · rw [if_pos heq, if_pos heq, map_some, hextent, if_pos rfl, hblk,
          dentInode_putDent _ _ hname _ hc']
      · rw [if_neg heq, if_neg heq, map_none]
  refine ⟨fun i hi => ?_, fun i hi => ?_, fun i nm hi hnm hnot => ?_, ?_, fun _ hnone => ?_, ?_⟩
  · by_cases hid : i = d
    · rw [hid]
      exact axfsMakeVnode_congr hhead
    · exact axfsMakeVnode_congr fun f _ _ => by rw [hinode i hi hid]
  · by_cases hid : i = d
    · rw [hid, isDir, isDir, hhead Inode.inType (by decide) (by decide)]
    · rw [hinode i hi hid]
  · by_cases hid : i = d
    · rw [hid, hsearch nm hnm, if_neg fun h => hnot ⟨hid, h⟩, or_none]
    · exact findEntry_frame (hinode i hi hid) (fun k hk => hdata i k hi hk) nm
  · rw [hsearch name hz, if_pos rfl]
    cases findEntry v (v.blocks d) name with
    | none => exact .inl rfl
    | some n => exact .inr rfl
  · rw [hsearch name hz, if_pos rfl, hnone, none_or]
  · exact fun hno => absurd (.inr hroom) hno

end Enter

/-! ### Creating a node -/

/-- The new node is entered in directory `d` as block `n`, a fresh inode without entries. -/
structure Created (v v' : Volume) (S : ℕ → Prop) (d : ℕ) (name : List UInt8) (n : ℕ)
    (type : NodeType) : Prop extends Entered v v' S d name n where
  root : v'.rootInodeBlock = v.rootInodeBlock
  newType : (axfsMakeVnode v' n).type = type
  newSize : (axfsMakeVnode v' n).size = 0
  empty : ∀ nm, findEntry v' (v'.blocks n) nm = none

theorem findEntry_of_count_zero (h : count di = 0) (nm : List UInt8) :
    findEntry v di nm = none := by
  rw [findEntry_eq, h]
  rfl

section NewInode

variable (child : ℕ) (type : NodeType) (cur : Option (ℕ × ℕ))

theorem count_newInode : count (newInode child type cur) = 0 := by
  rw [count, newInode]
  simp (disch := decide) only [Field.get_put_of_disjoint, Field.get_put]

theorem size_newInode : Inode.size.get (newInode child type cur) = 0 := by
  rw [newInode]
  simp (disch := decide) only [Field.get_put_of_disjoint, Field.get_put]

theorem inType_newInode : Inode.inType.get (newInode child type cur) = type.code := by
  have hcode : type.code < 256 ^ Inode.inType.width := by cases type <;> decide
  rw [newInode]
  simp (disch := decide) only [Field.get_put_of_disjoint, Field.get_put _ _ hcode]

end NewInode

theorem Owned.scanDir_frame (ho : Owned v S) (hd : S d)
    (hframe : ∀ j, InUse v j → w.blocks j = v.blocks j) (p : Block → ℕ → Bool) :
    scanDir w (v.blocks d) p = scanDir v (v.blocks d) p := by
  rw [scanDir_eq, scanDir_eq]
  refine find?_congr fun s hs => ?_
  rw [hframe _ (ho.extents d s.1 hd (mem_slots.mp hs).1).1]

/-- The volume once the inode of the new node is written, before it is entered. -/
structure Born (v w : Volume) (n : ℕ) (type : NodeType) : Prop where
  unused : ¬ InUse v n
  ne_zero : n ≠ 0
  ne_bitmap : n ≠ v.freeBitmapBlock
  lt : n < 2 ^ 32
  total : w.totalBlocks = v.totalBlocks
  bitmap : w.freeBitmapBlock = v.freeBitmapBlock
  root : w.rootInodeBlock = v.rootInodeBlock
  marked : ∀ j, v.marked j = true ∨ j = n → w.marked j = true
  frame : ∀ j, InUse v j → w.blocks j = v.blocks j
  newType : Inode.inType.get (w.blocks n) = type.code
  newSize : Inode.size.get (w.blocks n) = 0
  newCount : count (w.blocks n) = 0

theorem born_alloc (ho : Owned v S) (hn : n < v.limit)
    (hfree : v.marked n = false) (type : NodeType) (cur : Option (ℕ × ℕ)) :
    Born v (writeInode (v.mark n) n (newInode n type cur)) n type := by
  have hne : ∀ j, v.marked j = true → n ≠ j := by
    rintro j hj rfl
    rw [hj] at hfree
    cases hfree
  have hbm := hne _ ho.bitmap_used
  have hlt : n < 2 ^ 32 := by
    rw [Volume.limit] at hn
    omega
  refine ⟨fun h => hne n h.used rfl, hne 0 ho.zero_used, hbm, hlt, rfl, rfl, rfl,
    fun j hj => ?_, fun j hj => ?_, ?_, ?_, ?_⟩
  · rw [marked_writeInode (v.mark n) hbm, marked_mark]
    rcases hj with hj | hj
    · rw [hj, Bool.true_or]
    · rw [decide_eq_true hj, Bool.or_true]
  · rw [blocks_writeInode_of_ne _ (hne j hj.used).symm, blocks_mark_of_ne v n hj.ne_bitmap]
  · rw [get_writeInode _ _ _ (by decide), inType_newInode]
  · rw [get_writeInode _ _ _ (by decide), size_newInode]
  · rw [count_writeInode, count_newInode]

theorem Born.created (hB : Born v w n type) (hE : Entered v v' S d name n)
    (hroot : v'.rootInodeBlock = w.rootInodeBlock) (hn : v'.blocks n = w.blocks n) :
    Created v v' S d name n type where
  toEntered := hE
  root := hroot.trans hB.root
  newType := by
    show (if Inode.inType.get (v'.blocks n) = _ then NodeType.dir else NodeType.file) = type
    rw [hn, hB.newType]
    cases type <;> rfl
  newSize := by
    show Inode.size.get (v'.blocks n) = 0
    rw [hn, hB.newSize]
  empty := fun nm => findEntry_of_count_zero (by rw [hn, hB.newCount]) nm

/-- The search for a free block stays in the bitmap: it finds one there, or the volume has no more
blocks than that. -/
def Volume.Searchable (v : Volume) : Prop := v.totalBlocks ≤ 32768 ∨ 0 < v.freeBlocks

/-- The block a directory grows by is not in use: it was free, or it is block 0. -/
theorem afsAllocBlock_unused (hw : w.Searchable) :
    ((afsAllocBlock w).2 = 0 ∨ w.marked (afsAllocBlock w).2 = false) ∧
      (afsAllocBlock w).2 < 2 ^ 64 ∧
      (afsAllocBlock w).1.rootInodeBlock = w.rootInodeBlock ∧
      ∀ j, j ≠ w.freeBitmapBlock → (afsAllocBlock w).1.blocks j = w.blocks j := by
  by_cases hfree : 0 < w.freeBlocks
  · obtain ⟨k, hk, hkfree, heq⟩ := afsAllocBlock_spec hfree
    rw [heq]
    refine ⟨.inr hkfree, ?_, rfl, fun j hj => blocks_mark_of_ne w k hj⟩
    rw [Volume.limit] at hk
    dsimp only
    omega
  · have htotal := hw.resolve_right hfree
    have hfull : w.Full := by
      intro i hi
      by_contra hm
      apply hfree
      rw [Bool.not_eq_true] at hm
      refine Finset.card_pos.mpr ⟨i, Finset.mem_filter.mpr ⟨Finset.mem_range.mpr ?_, hm⟩⟩
      rw [Volume.limit]
      omega
    rw [afsAllocBlock_of_full hfull]
    exact ⟨.inl rfl, Nat.two_pow_pos 64, rfl, fun _ _ => rfl⟩

/-- `afs_dir_add_entry` with its search for a free slot and its allocation as parameters. -/
def addEntryBy (scan : Option (ℕ × ℕ)) (alloc : Volume × ℕ) (v : Volume) (d : ℕ) (name : List UInt8)
    (child type : ℕ) : Volume :=
  scan.elim
    (if maxExtents ≤ count (v.blocks d) then v
      else writeInode (alloc.1.afsWriteBlock alloc.2 (putDent zeroBlock 0 name child type)) d
        (appendExtent (v.blocks d) alloc.2))
    fun s => v.afsWriteBlock (extent (v.blocks d) s.1)
      (putDent (v.blocks (extent (v.blocks d) s.1)) s.2 name child type)

theorem afsDirAddEntry_eq (v : Volume) (d : ℕ) (name : List UInt8) (child type : ℕ) :
    afsDirAddEntry v d name child type =
      addEntryBy (scanDir v (v.blocks d) fun blk i => (Dent.inodeId i).get blk = 0)
        (afsAllocBlock v) v d name child type := by
  -- unfolded with the search and the allocation as variables, as in `parentFrom_cons`
  have hbody : ∀ scan alloc, scan = scanDir → alloc = afsAllocBlock →
      ∃ f, @afsDirAddEntry = f ∧ ∀ v d name child type, f v d name child type =
        addEntryBy (scan v (v.blocks d) fun blk i => (Dent.inodeId i).get blk = 0) (alloc v) v d
          name child type := by
    intro scan alloc hscan halloc
    delta afsDirAddEntry
    rw [← hscan, ← halloc]
    refine ⟨_, rfl, fun v d name child type => ?_⟩
    dsimp only [Volume.afsReadBlock]
    cases scan v (v.blocks d) fun blk i => (Dent.inodeId i).get blk = 0 with
    | none =>
      rw [addEntryBy, elim_none]
      by_cases hmax : maxExtents ≤ count (v.blocks d)
      · rw [if_pos hmax, if_pos (show maxExtents ≤ Inode.extentCount.get (v.blocks d) from hmax)]
      · rw [if_neg hmax, if_neg (show ¬ maxExtents ≤ Inode.extentCount.get (v.blocks d) from hmax)]
    | some s =>
      rw [addEntryBy, elim_some]
      dsimp only [extent]
  obtain ⟨f, hf, heq⟩ := hbody _ _ rfl rfl
  rw [hf]
  exact heq v d name child type

/-- **Entering the new node** in a directory, whatever its fill level. -/
theorem Born.enter (hL : Linked v S)
    (hB : Born v w n type) (hw : w.Searchable) (hd : S d) (hz : (0 : UInt8) ∉ name)
    (hne : name ≠ []) (hname : name.length < 256) :
    Created v (afsDirAddEntry w d name n type.code) S d name n type := by
  have hdi : w.blocks d = v.blocks d := hB.frame d (hL.inode d hd)
  have hn_ne : ∀ j, InUse v j → n ≠ j := fun j hj h => hB.unused (h ▸ hj)
  have hscan := hL.scanDir_frame hd hB.frame fun blk i => (Dent.inodeId i).get blk = 0
  rw [afsDirAddEntry_eq, hdi, hscan]
  cases hs : scanDir v (v.blocks d) (fun blk i => (Dent.inodeId i).get blk = 0) with
  | some s =>
    rw [addEntryBy, elim_some, hdi]
    have hlt : s.1 < count (v.blocks d) := (mem_slots.mp (mem_of_find?_eq_some hs)).1
    have huse := (hL.extents d s.1 hd hlt).1
    refine hB.created (entered_slot type.code hB.ne_zero hB.lt hz hne hname hL hd hs ?_ ?_) rfl ?_
    · rw [blocks_afsWriteBlock, if_pos rfl, hB.frame _ huse]
    · intro j hj hne'
      rw [blocks_afsWriteBlock, if_neg hne', hB.frame j hj]
    · rw [blocks_afsWriteBlock, if_neg (hn_ne _ huse)]
  | none =>
    rw [addEntryBy, elim_none, hdi]
    by_cases hmax : maxExtents ≤ count (v.blocks d)
    · rw [if_pos hmax]
      have hno : ¬ HasRoom v d := by
        rintro (h | h)
        · rw [hs] at h
          cases h
        · exact absurd h (Nat.not_lt.mpr hmax)
      refine hB.created (entered_nothing hno (fun i hi => ?_) hd) rfl rfl
      have hi' := hB.frame i (hL.inode i hi)
      refine ⟨axfsMakeVnode_congr fun f _ _ => by rw [hi'], by rw [hi'], fun nm => ?_⟩
      exact findEntry_frame hi' (fun k hk => hB.frame _ (hL.extents i k hi hk).1) nm
    · rw [if_neg hmax]
      have hcount : count (v.blocks d) < maxExtents := Nat.not_le.mp hmax
      obtain ⟨hunused, hk64, hroot, hblocks⟩ := afsAllocBlock_unused hw
      generalize afsAllocBlock w = a at hunused hk64 hroot hblocks ⊢
      obtain ⟨w1, k⟩ := a
      have hk : ∀ j, InUse v j ∨ j = n → k ≠ j := by
        rintro j hj rfl
        rcases hunused with h | h
        · rcases hj with hj | hj
          · exact hj.ne_zero h
          · exact hB.ne_zero (hj ▸ h)
        · rw [hB.marked k (hj.imp_left InUse.used)] at h
          cases h
      have hd_use := hL.inode d hd
      have hkeep : ∀ j, (InUse v j ∨ j = n) → j ≠ d → j ≠ v.freeBitmapBlock →
          (writeInode (w1.afsWriteBlock k (putDent zeroBlock 0 name n type.code)) d
            (appendExtent (v.blocks d) k)).blocks j = w.blocks j := by
        intro j hj hjd hbm
        rw [blocks_writeInode_of_ne _ hjd, blocks_afsWriteBlock, if_neg (Ne.symm (hk j hj)),
          hblocks j (by rw [hB.bitmap]; exact hbm)]
      have hkd : k ≠ d := hk d (.inl hd_use)
      refine hB.created (entered_grow (n := k) type.code hB.ne_zero hB.lt hz hne hname
        hL hd ?_ ?_ ?_ ?_ hcount ?_) hroot ?_
      · rw [count_writeInode, count_appendExtent hcount]
      · intro j
        rw [extent_writeInode, extent_appendExtent hk64]
      · intro f h1 h2
        rw [get_writeInode _ _ _ h1, get_appendExtent _ _ h2]
      · rw [blocks_writeInode_of_ne _ hkd, blocks_afsWriteBlock, if_pos rfl]
      · intro j hj hjd
        rw [hkeep j (.inl hj) hjd hj.ne_bitmap, hB.frame j hj]
      · exact hkeep n (.inr rfl) (hn_ne d hd_use) hB.ne_bitmap

/-- **What `axfs_create` does** once it has found a parent among the nodes of the volume. -/
theorem axfsCreate_created (hL : Linked v S) (hfree : 0 < v.freeBlocks)
    (hsearch : v.totalBlocks ≤ 32768 ∨ 1 < v.freeBlocks)
    {relpath : List UInt8} (hz : (0 : UInt8) ∉ relpath) {cur : Option (ℕ × ℕ)}
    (hok : (axfsCreate v relpath type cur).2 = 0) (hd : S (axfsParentDir v relpath).1) :
    baseName relpath ≠ [] ∧
      ∃ n, Created v (axfsCreate v relpath type cur).1 S (axfsParentDir v relpath).1
        ((baseName relpath).take maxName) n type := by
  have hd0 : (axfsParentDir v relpath).1 ≠ 0 := (hL.inode _ hd).ne_zero
  have hbase : (baseName relpath).take maxName ≠ [] := by
    intro h
    have hname : (axfsParentDir v relpath).2 = [] := h
    rw [axfsCreate, if_neg hd0, if_pos hname] at hok
    cases hok
  obtain ⟨n, hn, hnfree, halloc⟩ := afsAllocBlock_spec hfree
  have hB := born_alloc hL.toOwned hn hnfree type cur
  have heq : (axfsCreate v relpath type cur).1 =
      afsDirAddEntry (writeInode (v.mark n) n (newInode n type cur)) (axfsParentDir v relpath).1
        ((baseName relpath).take maxName) n type.code := by
    rw [axfsCreate, if_neg hd0, if_neg (show (axfsParentDir v relpath).2 ≠ [] from hbase), halloc]
    rfl
  refine ⟨fun h => hbase (by rw [h]; rfl), n, ?_⟩
  rw [heq]
  have hleft : (writeInode (v.mark n) n (newInode n type cur)).Searchable := by
    refine hsearch.imp id fun hmore => ?_
    have hsame : (writeInode (v.mark n) n (newInode n type cur)).freeBlocks =
      (v.mark n).freeBlocks :=
      freeBlocks_congr rfl (marked_writeInode (v.mark n) hB.ne_bitmap _)
    have hmark := freeBlocks_mark hn hnfree
    omega
  refine hB.enter hL hleft hd (fun h => hz ?_) hbase ?_
  · have hmem := mem_of_mem_take h
    rw [baseName, mem_reverse] at hmem
    exact mem_reverse.mp ((takeWhile_sublist _).subset hmem)
  · rw [length_take]
    have : maxName = 255 := rfl
    omega

/-! ### Lookups after a create -/

/-- The path leads to directory `d` and there to `name`. -/
def Names (v : Volume) (d : ℕ) (name : List UInt8) (comps : List (List UInt8)) : Prop :=
  ∃ pre, comps = pre ++ [name] ∧ lookupFrom v v.rootInodeBlock pre = some d

section Lookup

variable {type : NodeType}

theorem Created.lookupFrom_new (hC : Created v v' S d name n type) (comps : List (List UInt8)) :
    lookupFrom v' n comps = if comps = [] then some n else none := by
  cases comps with
  | nil => rfl
  | cons c comps =>
    rw [lookupFrom, if_neg (cons_ne_nil c comps)]
    split
    · rfl
    · rw [show findEntry v' (v'.afsReadBlock n) c = none from hC.empty c, bind_none]

/-- **A lookup after the create** goes as before, or passes the new entry. -/
theorem Created.lookupFrom_cases (hL : Linked v S) (hC : Created v v' S d name n type) :
    ∀ (comps : List (List UInt8)) (i : ℕ), S i → (∀ c ∈ comps, (0 : UInt8) ∉ c) →
      lookupFrom v' i comps = lookupFrom v i comps ∨
        ∃ pre post, comps = pre ++ name :: post ∧ lookupFrom v i pre = some d ∧
          isDir (v.blocks d) ∧ findEntry v' (v'.blocks d) name = some n ∧
          lookupFrom v' i comps = if post = [] then some n else none := by
  intro comps
  induction comps with
  | nil => intro i _ _; exact .inl rfl
  | cons c comps ih =>
    intro i hi hz
    have hz' : ∀ c' ∈ comps, (0 : UInt8) ∉ c' := fun c' hc' => hz c' (mem_cons_of_mem c hc')
    by_cases hdir : isDir (v.blocks i)
    · have hv' := lookupFrom_cons ((hC.dir i hi).mpr hdir) c comps
      have hv := lookupFrom_cons hdir c comps
      -- the step is the old one, unless it is the new entry
      have hstep : findEntry v' (v'.blocks i) c = findEntry v (v.blocks i) c ∨
          (i = d ∧ c = name ∧ findEntry v' (v'.blocks d) name = some n) := by
        by_cases hnew : i = d ∧ c = name
        · rw [hnew.1, hnew.2]
          rcases hC.entry with h | h
          · exact .inr ⟨rfl, rfl, h⟩
          · exact .inl h
        · exact .inl (hC.other i c hi (hz c (mem_cons_self ..)) hnew)
      rcases hstep with hsame | ⟨rfl, rfl, hentry⟩
      · cases hnext : findEntry v (v.blocks i) c with
        | none => exact .inl (by rw [hv', hv, hsame, hnext, bind_none, bind_none])
        | some next =>
          rw [hv', hv, hsame, hnext, bind_some, bind_some]
          have hS := hL.closed i c next hi hdir hnext
          rcases ih next hS hz' with h | ⟨pre, post, heq, hpre, hd, hentry, hres⟩
          · exact .inl h
          · refine .inr ⟨c :: pre, post, by rw [heq, cons_append], ?_, hd, hentry, hres⟩
            rw [lookupFrom_cons hdir, hnext, bind_some, hpre]
      · refine .inr ⟨[], comps, rfl, rfl, hdir, hentry, ?_⟩
        rw [hv', hentry, bind_some, hC.lookupFrom_new]
    · left
      rw [lookupFrom_of_not_isDir hdir, lookupFrom_of_not_isDir (mt (hC.dir i hi).mp hdir)]

theorem lookupFrom_missing {pre post : List (List UInt8)} (hpre : lookupFrom v i pre = some d)
    (hnone : findEntry v (v.blocks d) name = none) :
    lookupFrom v i (pre ++ name :: post) = none := by
  rw [lookupFrom_append, hpre, bind_some]
  by_cases hdir : isDir (v.blocks d)
  · rw [lookupFrom_cons hdir, hnone, bind_none]
  · exact lookupFrom_of_not_isDir hdir _ _

end Lookup

/-- After `axfs_create` the node is found at its path, as an empty node of the type asked for, and
every path that does not name its entry is looked up as before. -/
def CreateVisible (v : Volume) (relpath : List UInt8) (type : NodeType) (cur : Option (ℕ × ℕ))
    (d : ℕ) : Prop :=
  (∃ node, axfsLookup (axfsCreate v relpath type cur).1 v.rootInodeBlock relpath = some node ∧
    node.type = type ∧ node.size = 0) ∧
  ∀ p, (0 : UInt8) ∉ p → ¬ Names v d ((baseName relpath).take maxName) (components p) →
    axfsLookup (axfsCreate v relpath type cur).1 v.rootInodeBlock p =
      axfsLookup v v.rootInodeBlock p

/-- **A created node is visible exactly when it had a place to go.**  On a volume with a free
block (two, if it has more blocks than its bitmap has bits), for a path whose parent is the
directory `d` and whose last component is not there, and an `axfs_create` that answers 0: the node
is found and all other paths are as before if `axfs_parent_dir` finds that same directory and the
directory has a free slot or can grow.  If what it finds is a node of the volume at all, then only
if. -/
theorem create_visible_iff (v : Volume) (S : ℕ → Prop) (hL : Linked v S) (hfree : 0 < v.freeBlocks)
    (hsearch : v.totalBlocks ≤ 32768 ∨ 1 < v.freeBlocks) (relpath : List UInt8)
    (hz : (0 : UInt8) ∉ relpath) (d : ℕ)
    (hparent : lookupFrom v v.rootInodeBlock (fullParent relpath) = some d)
    (hdir : isDir (v.blocks d))
    (hnew : findEntry v (v.blocks d) ((baseName relpath).take maxName) = none)
    (type : NodeType) (cur : Option (ℕ × ℕ)) (hok : (axfsCreate v relpath type cur).2 = 0) :
    ((axfsParentDir v relpath).1 = d ∧ HasRoom v d → CreateVisible v relpath type cur d) ∧
      (S (axfsParentDir v relpath).1 → CreateVisible v relpath type cur d →
        (axfsParentDir v relpath).1 = d ∧ HasRoom v d) := by
  have hd : S d := hL.lookupFrom_mem _ _ hL.root hparent
  have hzero : ∀ p : List UInt8, (0 : UInt8) ∉ p → ∀ c ∈ components p, (0 : UInt8) ∉ c :=
    fun p hp c hc h => hp ((mem_components hc).2 0 h)
  have hroot : S v.rootInodeBlock := hL.root
  refine ⟨?_, ?_⟩
  · rintro ⟨hpar, hroom⟩
    obtain ⟨hbase, n, hC⟩ := axfsCreate_created hL hfree hsearch hz hok (by rw [hpar]; exact hd)
    rw [hpar] at hC
    refine ⟨?_, fun p hp hnames => ?_⟩
    · -- the parent is reached as before, and has the entry
      have hcomps := components_split hbase
      have hz' : ∀ c ∈ fullParent relpath, (0 : UInt8) ∉ c := fun c hc =>
        hzero relpath hz c (by rw [hcomps]; exact mem_append_left _ hc)
      have hreach : lookupFrom (axfsCreate v relpath type cur).1 v.rootInodeBlock
          (fullParent relpath) = some d := by
        rcases hC.lookupFrom_cases hL (fullParent relpath) _ hroot hz' with
          h | ⟨pre, post, heq, hpre, -, -, -⟩
        · rw [h, hparent]
        · rw [heq, lookupFrom_missing hpre hnew] at hparent
          cases hparent
      have hentry := hC.found hroom hnew
      refine ⟨_, ?_, hC.newType, hC.newSize⟩
      rw [axfsLookup, hcomps, lookupFrom_append, hreach, bind_some,
        lookupFrom_cons ((hC.dir d hd).mpr hdir), hentry]
      rfl
    · rw [axfsLookup, axfsLookup]
      rcases hC.lookupFrom_cases hL (components p) _ hroot (hzero p hp) with
        h | ⟨pre, post, heq, hpre, -, -, hres⟩
      · rw [h]
        refine map_congr fun i hi => hC.node i (hL.lookupFrom_mem _ _ hroot hi)
      · have hpost : post ≠ [] := by
          rintro rfl
          exact hnames ⟨pre, heq, hpre⟩
        rw [hres, if_neg hpost, heq, lookupFrom_missing hpre hnew, map_none, map_none]
  · rintro hS ⟨⟨node, hfound, -, -⟩, -⟩
    obtain ⟨hbase, n, hC⟩ := axfsCreate_created hL hfree hsearch hz hok hS
    have hcomps := components_split hbase
    rw [axfsLookup, map_eq_some_iff] at hfound
    obtain ⟨i, hi, -⟩ := hfound
    rcases hC.lookupFrom_cases hL (components relpath) _ hroot (hzero relpath hz) with
      h | ⟨pre, post, heq, hpre, -, hentry, hres⟩
    · rw [h, hcomps, lookupFrom_missing hparent hnew] at hi
      cases hi
    · have hpost : post = [] := by
        by_contra hne
        rw [hres, if_neg hne] at hi
        cases hi
      rw [hpost, hcomps] at heq
      have hpre' : pre = fullParent relpath := (append_inj' heq rfl).1.symm
      rw [hpre', hparent] at hpre
      have hpar : (axfsParentDir v relpath).1 = d := (some.inj hpre).symm
      refine ⟨hpar, ?_⟩
      by_contra hno
      rw [hpar] at hC hentry
      rw [hC.lost hno, hnew] at hentry
      cases hentry

/-! ### A directory of 2400 files -/

/-- The root directory in block 5, with the `k` data blocks from 10 on. -/
def crowdedRoot (k : ℕ) : Block := fun j =>
  if j = 80 then 2
  else if j = 84 then UInt8.ofNat k
  else if 88 ≤ j ∧ (j - 88) % 24 = 0 ∧ (j - 88) / 24 < k then UInt8.ofNat (10 + (j - 88) / 24)
  else 0

/-- The inode of entry `i` of data block `e`. -/
def crowdedInode (e i : ℕ) : ℕ := 200 + 15 * e + i

/-- A data block with fifteen files, each with a name of two bytes. -/
def crowdedData (e : ℕ) : Block := fun j =>
  if j % 264 = 0 then UInt8.ofNat (crowdedInode e (j / 264) % 256)
  else if j % 264 = 1 then UInt8.ofNat (crowdedInode e (j / 264) / 256)
  else if j % 264 = 4 then 1
  else if j % 264 = 5 then 2
  else if j % 264 = 8 then UInt8.ofNat (48 + e)
  else if j % 264 = 9 then UInt8.ofNat (97 + j / 264)
  else 0

/-- A volume whose root directory has `k` data blocks, none with a free slot, and whose files are
the blocks from 200 to 2599.  The blocks from 2600 on are free. -/
def crowded (k : ℕ) : Volume where
  blocks b :=
    if b = 2 then fun j => if j < 325 then 255 else 0
    else if b = 5 then crowdedRoot k
    else if 10 ≤ b ∧ b < 170 then crowdedData (b - 10)
    else if 200 ≤ b ∧ b < 2600 then newInode b .file none
    else zeroBlock
  totalBlocks := 2700
  rootInodeBlock := 5
  freeBitmapBlock := 2
  transactionId := 2

/-- The root and the files. -/
def CrowdedNode (i : ℕ) : Prop := i = 5 ∨ (200 ≤ i ∧ i < 2600)

theorem crowdedData_apply (e s r : ℕ) (hr : r < 264) :
    crowdedData e (264 * s + r) =
      if r = 0 then UInt8.ofNat (crowdedInode e s % 256)
      else if r = 1 then UInt8.ofNat (crowdedInode e s / 256)
      else if r = 4 then 1
      else if r = 5 then 2
      else if r = 8 then UInt8.ofNat (48 + e)
      else if r = 9 then UInt8.ofNat (97 + s)
      else 0 := by
  have hmod : (264 * s + r) % 264 = r := by omega
  have hdiv : (264 * s + r) / 264 = s := by omega
  rw [crowdedData, hmod, hdiv]

theorem dentInode_crowdedData (he : e < 160) (hs : s < 15) :
    dentInode (crowdedData e) s = crowdedInode e s := by
  have hlt : crowdedInode e s < 2600 := by rw [crowdedInode]; omega
  have hlow : (UInt8.ofNat (crowdedInode e s % 256)).toNat = crowdedInode e s % 256 :=
    UInt8.toNat_ofNat_of_lt' (by show _ < 256; omega)
  have hhigh : (UInt8.ofNat (crowdedInode e s / 256)).toNat = crowdedInode e s / 256 :=
    UInt8.toNat_ofNat_of_lt' (by show _ < 256; omega)
  show 0 + (crowdedData e (264 * s + 0)).toNat * 256 ^ 0 +
    (crowdedData e (264 * s + 1)).toNat * 256 ^ 1 + (crowdedData e (264 * s + 2)).toNat * 256 ^ 2 +
    (crowdedData e (264 * s + 3)).toNat * 256 ^ 3 = _
  have h2 : crowdedData e (264 * s + 2) = 0 := by rw [crowdedData_apply e s 2 (by decide)]; rfl
  have h3 : crowdedData e (264 * s + 3) = 0 := by rw [crowdedData_apply e s 3 (by decide)]; rfl
  rw [crowdedData_apply e s 0 (by decide), crowdedData_apply e s 1 (by decide), h2, h3, if_pos rfl,
    if_neg (by decide), if_pos rfl, hlow, hhigh]
  show 0 + crowdedInode e s % 256 * 1 + crowdedInode e s / 256 * 256 + 0 * 65536 + 0 * 16777216 = _
  omega

theorem namelen_crowdedData (e s : ℕ) : (Dent.namelen s).get (crowdedData e) = 2 := by
  show 0 + (crowdedData e (264 * s + 5 + 0)).toNat * 256 ^ 0 = 2
  rw [Nat.add_zero, crowdedData_apply e s 5 (by decide)]
  rfl

theorem marked_crowded (k : ℕ) : (crowded k).marked i = decide (i < 2600) := by
  show ((if i / 8 < 325 then (255 : UInt8) else 0)).toBitVec.getLsbD (i % 8) = _
  by_cases h : i < 2600
  · rw [if_pos (by omega), decide_eq_true h]
    have hbits : ∀ r, r < 8 → (255 : UInt8).toBitVec.getLsbD r = true := by decide
    exact hbits _ (by omega)
  · rw [if_neg (by omega), decide_eq_false h]
    simp

section Crowded

variable {k : ℕ} (hk : k ≤ 160)

theorem blocks_file_crowded (h₁ : 200 ≤ i) (h₂ : i < 2600) :
    (crowded k).blocks i = newInode i .file none := by
  show (if i = 2 then _ else if i = 5 then _ else if 10 ≤ i ∧ i < 170 then _ else
    if 200 ≤ i ∧ i < 2600 then newInode i .file none else zeroBlock) = _
  rw [if_neg (by omega), if_neg (by omega), if_neg (by omega), if_pos ⟨h₁, h₂⟩]

include hk

theorem count_crowdedRoot : count (crowdedRoot k) = k := by
  decide +revert +kernel

theorem extent_crowdedRoot (he : e < k) : extent (crowdedRoot k) e = 10 + e := by
  have hall : ∀ e, e < 160 → extent (crowdedRoot 160) e = 10 + e := by decide +kernel
  rw [← hall e (by omega)]
  refine Field.get_congr _ fun j h1 h2 => ?_
  simp only [Inode.physicalBlock] at h1 h2
  have hdiv : (j - 88) / 24 = e := by omega
  have h80 : j ≠ 80 := by omega
  have h84 : j ≠ 84 := by omega
  rw [crowdedRoot, crowdedRoot, if_neg h80, if_neg h80, if_neg h84, if_neg h84, hdiv]
  by_cases hmod : (j - 88) % 24 = 0
  · rw [if_pos ⟨by omega, hmod, he⟩, if_pos ⟨by omega, hmod, by omega⟩]
  · rw [if_neg fun h => hmod h.2.1, if_neg fun h => hmod h.2.1]

theorem blocks_extent_crowded (he : e < k) :
    (crowded k).blocks (extent (crowdedRoot k) e) = crowdedData e := by
  rw [extent_crowdedRoot hk he]
  show (if 10 + e = 2 then _ else if 10 + e = 5 then _ else
    if 10 ≤ 10 + e ∧ 10 + e < 170 then crowdedData (10 + e - 10) else _) = _
  rw [if_neg (by omega), if_neg (by omega), if_pos (by omega), Nat.add_sub_cancel_left]

theorem findEntry_crowded : findEntry (crowded k) (crowdedRoot k) pathA = none := by
  rw [findEntry_eq, map_eq_none_iff, find?_eq_none]
  intro s hs hmatch
  rw [count_crowdedRoot hk] at hs
  rw [slotMatches, blocks_extent_crowded hk (mem_slots.mp hs).1, dentMatches_iff (by decide)]
    at hmatch
  have hlen := dentName_length (crowdedData s.1) s.2
  rw [hmatch.2.2, namelen_crowdedData] at hlen
  cases hlen

theorem scanDir_crowded :
    scanDir (crowded k) (crowdedRoot k) (fun blk i => (Dent.inodeId i).get blk = 0) = none := by
  rw [scanDir_eq, count_crowdedRoot hk, find?_eq_none]
  intro s hs hfree
  have hmem := mem_slots.mp hs
  have hdent := dentInode_crowdedData (show s.1 < 160 by omega) hmem.2
  rw [decide_eq_true_eq, ← dentInode, blocks_extent_crowded hk hmem.1, hdent, crowdedInode] at hfree
  omega

theorem owned_crowded : Owned (crowded k) CrowdedNode := by
  have hroot : (crowded k).blocks 5 = crowdedRoot k := rfl
  have hcount : ∀ i, CrowdedNode i → count ((crowded k).blocks i) = if i = 5 then k else 0 := by
    rintro i (rfl | ⟨h1, h2⟩)
    · rw [hroot, count_crowdedRoot hk, if_pos rfl]
    · rw [blocks_file_crowded h1 h2, count_newInode, if_neg (by omega)]
  have hextent : ∀ i e, CrowdedNode i → e < count ((crowded k).blocks i) →
      i = 5 ∧ e < k ∧ extent ((crowded k).blocks i) e = 10 + e := by
    intro i e hi he
    rw [hcount i hi] at he
    split at he
    · rename_i h5
      rw [h5, hroot, extent_crowdedRoot hk he]
      exact ⟨rfl, he, rfl⟩
    · exact absurd he (Nat.not_lt_zero e)
  have huse : ∀ b, b ≠ 0 → b ≠ 2 → b < 2600 → InUse (crowded k) b := fun b h0 h2 hlt =>
    ⟨show b < min 2700 32768 by omega, by rw [marked_crowded, decide_eq_true hlt], h0, h2⟩
  refine ⟨by rw [marked_crowded]; rfl,
    by rw [marked_crowded]; rfl, fun i hi => ?_, fun i hi => ?_, fun i e hi he => ?_,
    fun i e i' e' hi he hi' he' heq => ?_⟩
  · rcases hi with rfl | hi <;> exact huse _ (by omega) (by omega) (by omega)
  · rw [hcount i hi, maxExtents]
    split <;> omega
  · obtain ⟨-, hlt, h⟩ := hextent i e hi he
    rw [h]
    refine ⟨huse _ (by omega) (by omega) (by omega), ?_⟩
    rintro (h5 | h200) <;> omega
  · obtain ⟨h5, -, h⟩ := hextent i e hi he
    obtain ⟨h5', -, h'⟩ := hextent i' e' hi' he'
    rw [h, h'] at heq
    exact ⟨h5.trans h5'.symm, by omega⟩

theorem linked_crowded : Linked (crowded k) CrowdedNode where
  toOwned := owned_crowded hk
  root := .inl rfl
  closed := by
    intro i name n hi hdir hfind
    rcases hi with rfl | ⟨h1, h2⟩
    · rw [findEntry_eq, map_eq_some_iff] at hfind
      obtain ⟨s, hs, rfl⟩ := hfind
      have hmem := mem_slots.mp (mem_of_find?_eq_some hs)
      rw [show (crowded k).blocks 5 = crowdedRoot k from rfl] at hmem ⊢
      rw [count_crowdedRoot hk] at hmem
      rw [blocks_extent_crowded hk hmem.1, dentInode_crowdedData (by omega) hmem.2, crowdedInode]
      exact .inr (by omega)
    · -- a file is no directory
      exfalso
      rw [isDir, blocks_file_crowded h1 h2, inType_newInode] at hdir
      cases hdir

end Crowded

theorem freeBlocks_crowded (k : ℕ) : 0 < (crowded k).freeBlocks :=
  Finset.card_pos.mpr ⟨2600, Finset.mem_filter.mpr
    ⟨Finset.mem_range.mpr (show 2600 < 2700 by decide), by rw [marked_crowded]; rfl⟩⟩

theorem not_hasRoom_crowded : ¬ HasRoom (crowded 160) 5 := by
  have hcount := count_crowdedRoot (Nat.le_refl 160)
  rintro (h | h)
  · rw [show (crowded 160).blocks 5 = crowdedRoot 160 from rfl,
      scanDir_crowded (Nat.le_refl 160)] at h
    cases h
  · rw [show (crowded 160).blocks 5 = crowdedRoot 160 from rfl, hcount] at h
    exact Nat.lt_irrefl _ h

/-- **A full directory swallows a new file.**  The root directory holds 2400 files in 160 blocks.
Creating `a` is answered by 0, and a lookup of `a` finds nothing. -/
theorem create_lost_in_full_directory :
    Linked (crowded 160) CrowdedNode ∧ 0 < (crowded 160).freeBlocks ∧
      isDir ((crowded 160).blocks 5) ∧
      axfsLookup (crowded 160) 5 pathA = none ∧
      (axfsCreate (crowded 160) pathA .file none).2 = 0 ∧
      axfsLookup (axfsCreate (crowded 160) pathA .file none).1 5 pathA = none := by
  have hL := linked_crowded (Nat.le_refl 160)
  have hdir : isDir ((crowded 160).blocks 5) := by decide +kernel
  have hok : (axfsCreate (crowded 160) pathA .file none).2 = 0 := by decide +kernel
  have hnone : findEntry (crowded 160) ((crowded 160).blocks 5) pathA = none :=
    findEntry_crowded (Nat.le_refl 160)
  obtain ⟨-, n, hC⟩ := axfsCreate_created hL (freeBlocks_crowded 160) (.inl (by decide)) (by decide)
    hok (.inl rfl)
  have hmissing : ∀ v : Volume, findEntry v (v.blocks 5) pathA = none →
      axfsLookup v 5 pathA = none := by
    intro v h
    rw [axfsLookup, show components pathA = [] ++ pathA :: [] from rfl,
      lookupFrom_missing rfl h, map_none]
  rw [show (axfsParentDir (crowded 160) pathA).1 = 5 from rfl,
    show (baseName pathA).take maxName = pathA from rfl] at hC
  refine ⟨hL, freeBlocks_crowded 160, hdir, hmissing _ hnone, hok, hmissing _ ?_⟩
  rw [hC.lost not_hasRoom_crowded, hnone]

/-- The hypotheses hold when the directory has one block, full as well: it grows by a second one,
and the file is found. -/
theorem create_visible_iff_grown : CreateVisible (crowded 1) pathA .file none 5 := by
  have h := create_visible_iff (crowded 1) CrowdedNode (linked_crowded (by decide))
    (freeBlocks_crowded 1) (.inl (by decide)) pathA (by decide) 5 rfl (by decide +kernel)
    (findEntry_crowded (by decide)) .file none (by decide +kernel)
  exact h.1 ⟨rfl, .inr (by decide +kernel)⟩

end AxiomeOS.Axfs
