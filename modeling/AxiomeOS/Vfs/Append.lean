import AxiomeOS.Vfs.Truncate

/-!
# Appending through several descriptors

With `O_APPEND`, `sys_write` takes the offset from the size in the vnode of its descriptor.  On a
ramfs all opens of a file share its vnode.  Axiomefs makes one for each open, with the size that the
inode has at the open or after the last write through it.

`appends_iff`: the file is the old one followed by all accepted writes exactly if it had no gap at
its end and no descriptor is written to after another one, unless it is opened anew in between.
-/

namespace AxiomeOS.Append

open Axfs Runs Function
open Descriptor (RamNode ramfs ramfsWrite ramfsWrite_accepted ramfsWrite_refused
  contents_ramfsWrite)

/-! ### The ramfs -/

/-- Room for bytes means that there is a buffer. -/
def Buffered (n : RamNode) : Prop := n.cap = 0 ∨ n.data.isSome = true

/-- A write at the end of a file of a ramfs, with the bytes that the file should have. -/
def ramAppend (s : RamNode × List UInt8) (w : List UInt8 × Option (ℕ → UInt8)) :
    RamNode × List UInt8 :=
  let r := ramfsWrite s.1 s.1.size w.1 w.2
  (r.1, s.2 ++ w.1.take r.2)

theorem ramAppend_keeps {s : RamNode × List UInt8} (w : List UInt8 × Option (ℕ → UInt8))
    (hb : Buffered s.1) (hs : ramfs.contents (some s.1) = s.2) :
    Buffered (ramAppend s w).1 ∧ ramfs.contents (some (ramAppend s w).1) = (ramAppend s w).2 := by
  obtain ⟨n, whole⟩ := s
  obtain ⟨bytes, mem⟩ := w
  rw [ramAppend]
  by_cases hroom : n.size + bytes.length ≤ n.cap ∨ mem.isSome = true
  · have hcontents := contents_ramfsWrite hb hroom
    obtain ⟨n', heq, hb', -⟩ := ramfsWrite_accepted hb hroom
    rw [heq] at hcontents ⊢
    exact ⟨hb', by rw [hcontents, hs, List.take_length]⟩
  · obtain ⟨hless, hmem⟩ := not_or.mp hroom
    obtain rfl := Option.not_isSome_iff_eq_none.mp hmem
    rw [ramfsWrite_refused hless]
    exact ⟨hb, by rw [hs, List.take_zero, List.append_nil]⟩

/-! ### Axiomefs -/

inductive Event
  | openFile (k : ℕ)
  | write (k : ℕ) (bytes : List UInt8)

/-- A volume and the vnodes of the descriptors of one of its files.  No data of the kernel are
`whole`, the old file followed by what was written, and `current`, the descriptors since whose open
or last write nobody has written to another one. -/
structure State where
  v : Volume
  node : ℕ → Vnode
  whole : List UInt8
  current : ℕ → Bool

/-- What a write leaves, given its answer. -/
def wrote (s : State) (k : ℕ) (bytes : List UInt8) : Option (Volume × Vnode × ℕ) → State
  | none => s
  | some (v, n, _) => ⟨v, update s.node k n, s.whole ++ bytes, fun j => decide (j = k)⟩

/-- One call; `i` is the inode of the file. -/
def exec (i : ℕ) (s : State) : Event → State
  | .openFile k =>
    { s with
      node := update s.node k (axfsMakeVnode s.v i)
      current := update s.current k true }
  | .write k bytes => wrote s k bytes
      (axfsWrite s.v (s.node k) (s.node k).size (fun j => bytes.getD j 0) bytes.length)

/-- The write has bytes, ends within the limit of a file and has the free blocks it needs. -/
def Accepted (i : ℕ) (s : State) : Event → Prop
  | .openFile _ => True
  | .write k bytes => 0 < bytes.length ∧ (s.node k).size + bytes.length ≤ 160 * 4096 ∧
      blocksNeeded (s.v.blocks i) (s.node k).size bytes.length ≤ s.v.freeBlocks

def step (i : ℕ) (s : State) (e : Event) (s' : State) : Prop := Accepted i s e ∧ s' = exec i s e

/-- All descriptors are opened. -/
def start (v : Volume) (i : ℕ) : State :=
  ⟨v, fun _ => axfsMakeVnode v i, content v i, fun _ => true⟩

/-- The file is the old one followed by all accepted writes. -/
def Kept (i : ℕ) (s : State) : Prop :=
  size (s.v.blocks i) = s.whole.length ∧ content s.v i = s.whole

/-- The descriptor that is written to is current. -/
def Exclusive (s : State) : Event → Prop
  | .openFile _ => True
  | .write k _ => s.current k = true

structure Inv (i : ℕ) (s : State) : Prop where
  owned : Owned s.v (· = i)
  kept : Kept i s
  node : ∀ k, (s.node k).priv = i ∧ if s.current k then (s.node k).size = size (s.v.blocks i)
    else (s.node k).size < size (s.v.blocks i)

variable {i : ℕ} {s : State}

theorem Owned.writeBack {v v' : Volume} {d e : Block} (ho : Owned v (· = i))
    (he : Extended v (v.blocks i) v' d) (hmax : count d ≤ maxExtents) (hcount : count e = count d)
    (hextent : ∀ k, extent e k = extent d k) : Owned (writeInode v' i e) (· = i) := by
  have hw := (ho.writable rfl).extended he
  have hin := ho.inode i rfl
  have hbm : i ≠ v'.freeBitmapBlock := he.bitmap ▸ hin.ne_bitmap
  have hmarked := marked_writeInode v' hbm e
  have hself : count ((writeInode v' i e).blocks i) = count d :=
    (count_writeInode v' i e).trans hcount
  have hselfx : ∀ k, extent ((writeInode v' i e).blocks i) k = extent d k :=
    fun k => (extent_writeInode v' i e k).trans (hextent k)
  have hlimit : (writeInode v' i e).limit = v.limit := he.limit_eq
  refine ⟨(hmarked 0).trans hw.zero_used, (hmarked _).trans hw.bitmap_used, ?_, ?_, ?_, ?_⟩
  · rintro j rfl
    exact ⟨hlimit ▸ hin.lt, (hmarked j).trans (he.marked j hin.used), hin.ne_zero, hbm⟩
  · rintro j rfl
    rw [hself]
    exact hmax
  · rintro j k rfl hk
    rw [hself] at hk
    rw [hselfx]
    refine ⟨⟨?_, (hmarked _).trans (hw.extent_used k hk), (hw.extent_ne k hk).1,
      (hw.extent_ne k hk).2⟩, ho.extent_ne_self rfl he hk⟩
    rw [hlimit]
    by_cases hold : k < count (v.blocks j)
    · rw [he.old k hold]
      exact (ho.extents j k rfl hold).1.lt
    · exact (he.fresh k (by omega) hk).1
  · rintro j k j' k' rfl hk rfl hk' heq
    rw [hself] at hk hk'
    rw [hselfx, hselfx] at heq
    exact ⟨rfl, hw.extent_inj k k' hk hk' heq⟩

theorem Inv.size_le (h : Inv i s) (k : ℕ) : (s.node k).size ≤ size (s.v.blocks i) := by
  have hk := (h.node k).2
  split at hk
  · exact hk.le
  · exact hk.le

/-- A write at the size that the vnode has, on a file without a gap. -/
theorem axfsWrite_at_size {v : Volume} {n : Vnode} {bytes : List UInt8}
    (ho : Owned v (· = n.priv)) (hpos : 0 < bytes.length)
    (hend : n.size + bytes.length ≤ 160 * 4096)
    (hfree : blocksNeeded (v.blocks n.priv) n.size bytes.length ≤ v.freeBlocks)
    (hle : n.size ≤ size (v.blocks n.priv))
    (hcover : size (v.blocks n.priv) ≤ 4096 * count (v.blocks n.priv)) :
    ∃ v' n', axfsWrite v n n.size (fun j => bytes.getD j 0) bytes.length =
        some (v', n', bytes.length) ∧
      Owned v' (· = n.priv) ∧ n'.priv = n.priv ∧ n'.size = size (v'.blocks n.priv) ∧
      size (v'.blocks n.priv) = max (size (v.blocks n.priv)) (n.size + bytes.length) ∧
      ∀ p, (content v' n.priv)[p]? = if n.size ≤ p ∧ p < n.size + bytes.length then
        bytes[p - n.size]? else (content v n.priv)[p]? := by
  obtain ⟨v', d, hrun, he, hcount, hwrite⟩ := axfsWrite_run (ho.writable rfl)
    (fun j => bytes.getD j 0) (Nat.add_pos_right n.size hpos) hend hfree
  have hbytes := fileByte_axfsWrite ho rfl (fun j => bytes.getD j 0) hpos hend hfree
    (by omega) hrun he
  have hreach := blocksNeeded_reaches bytes.length
    (show n.size / 4096 ≤ count (v.blocks n.priv) by omega)
  have hsize : size (finishInode n.size bytes.length d) =
      max (size (v.blocks n.priv)) (n.size + bytes.length) := by
    rw [size_finishInode (by omega), show size d = size (v.blocks n.priv) from
      he.head Inode.size (by decide)]
  have hsize' : size ((writeInode v' n.priv (finishInode n.size bytes.length d)).blocks n.priv) =
      max (size (v.blocks n.priv)) (n.size + bytes.length) :=
    (get_writeInode v' n.priv _ (by decide)).trans hsize
  refine ⟨_, _, hwrite, ?_, rfl, hsize.trans hsize'.symm, hsize', fun p => ?_⟩
  · refine Owned.writeBack ho he ?_ (count_finishInode ..) (extent_finishInode _ _ d)
    have hmax := ho.count_le n.priv rfl
    have hspan := span_le hend (Nat.add_pos_right n.size hpos)
    rw [hcount, blocksNeeded]
    generalize (n.size + bytes.length - 1) / 4096 + 1 = a at hspan ⊢
    clear hfree hrun hwrite hbytes hend hsize hsize' hreach hcount
    omega
  · rw [content_getElem?, content_getElem?, hbytes, hcount, fileByte, oldBlock]
    have hold : count (v.blocks n.priv) ≤ count (v.blocks n.priv) +
      blocksNeeded (v.blocks n.priv) n.size bytes.length := Nat.le_add_right ..
    generalize count (v.blocks n.priv) + blocksNeeded (v.blocks n.priv) n.size bytes.length = c
      at hreach hold ⊢
    clear hfree hrun hwrite hbytes hend hsize hsize' hcount he
    by_cases hin : n.size ≤ p ∧ p < n.size + bytes.length
    · rw [if_pos hin, if_pos hin, if_pos (by omega), List.getD, List.getElem?_eq_getElem (by omega),
        Option.getD_some]
    · rw [if_neg hin, if_neg hin]
      by_cases hp : p < size (v.blocks n.priv)
      · have hext : p / 4096 < count (v.blocks n.priv) := by omega
        rw [if_pos (by omega), if_pos hext, if_pos ⟨hp, hext⟩]
      · rw [if_neg (by omega), if_neg fun hcon => hp hcon.1]

theorem Inv.openFile (h : Inv i s) (k : ℕ) : Inv i (exec i s (.openFile k)) := by
  refine ⟨h.owned, h.kept, fun j => ?_⟩
  show (update s.node k _ j).priv = i ∧ if update s.current k true j then
    (update s.node k _ j).size = _ else (update s.node k _ j).size < _
  by_cases hj : j = k
  · rw [hj, update_self, update_self]
    exact ⟨rfl, rfl⟩
  · rw [update_of_ne hj, update_of_ne hj]
    exact h.node j

/-- The extents of the file reach its end. -/
theorem Inv.reached (h : Inv i s) : size (s.v.blocks i) ≤ 4096 * count (s.v.blocks i) := by
  obtain ⟨hlen, hcontent⟩ := h.kept
  by_contra hgap
  have hbyte := content_getElem? s.v i (size (s.v.blocks i) - 1)
  rw [hcontent, List.getElem?_eq_getElem (by omega)] at hbyte
  have := fileByte_some hbyte.symm
  omega

theorem max_add_eq_iff {a w l : ℕ} (hl : 0 < l) : max w (a + l) = w + l ↔ a = w := by
  omega

/-- **One call** leaves the file as it should be exactly if the descriptor is current. -/
theorem Inv.step (h : Inv i s) {e : Event} {s' : State} (hs : step i s e s') :
    (Kept i s' → Exclusive s e) ∧ (Exclusive s e → Inv i s') := by
  obtain ⟨ha, rfl⟩ := hs
  cases e with
  | openFile k => exact ⟨fun _ => trivial, fun _ => h.openFile k⟩
  | write k bytes =>
    obtain ⟨hpos, hend, hfree⟩ := ha
    obtain ⟨hlen, hcontent⟩ := h.kept
    obtain ⟨hpriv, hk⟩ := h.node k
    have hwrite := axfsWrite_at_size (hpriv ▸ h.owned) hpos hend (hpriv ▸ hfree)
      (hpriv ▸ h.size_le k) (hpriv ▸ h.reached)
    rw [hpriv] at hwrite
    obtain ⟨v', n', hwrite, ho, hpriv', hself, hsize, hbytes⟩ := hwrite
    have hexec : exec i s (.write k bytes) =
        ⟨v', update s.node k n', s.whole ++ bytes, fun j => decide (j = k)⟩ := by
      rw [exec, hwrite, wrote]
    have hend' : size (v'.blocks i) = (s.whole ++ bytes).length ↔
        (s.node k).size = s.whole.length := by
      rw [List.length_append, hsize, hlen]
      exact max_add_eq_iff hpos
    rw [hexec]
    constructor
    · rintro ⟨hlen', -⟩
      show s.current k = true
      by_contra hold
      rw [if_neg hold, hlen, hend'.mp hlen'] at hk
      exact lt_irrefl _ hk
    · intro hold
      rw [show s.current k = true from hold, if_pos rfl, hlen] at hk
      refine ⟨ho, ⟨hend'.mpr hk, ?_⟩, fun j => ?_⟩
      · apply List.ext_getElem?
        intro p
        rw [hbytes, hcontent, List.getElem?_append, hk]
        clear hsize hself hlen hk hend hfree hwrite hexec
        by_cases hp : p < s.whole.length
        · rw [if_neg (by omega), if_pos hp]
        · rw [if_neg hp]
          by_cases hp' : p < s.whole.length + bytes.length
          · rw [if_pos (by omega)]
          · rw [if_neg (by omega), List.getElem?_eq_none (by omega),
              List.getElem?_eq_none (by omega)]
      · show (update s.node k n' j).priv = i ∧ if decide (j = k) = true then
          (update s.node k n' j).size = size (v'.blocks i)
          else (update s.node k n' j).size < size (v'.blocks i)
        by_cases hj : j = k
        · rw [hj, update_self, decide_eq_true rfl, if_pos rfl]
          exact ⟨hpriv', hself⟩
        · rw [update_of_ne hj, decide_eq_false hj, if_neg Bool.false_ne_true, hsize]
          refine ⟨(h.node j).1, lt_max_of_lt_right ?_⟩
          rw [hk, ← hlen]
          exact (h.size_le j).trans_lt (Nat.lt_add_of_pos_right hpos)

/-- The extents of the file reach its end. -/
def Covered (v : Volume) (i : ℕ) : Prop := size (v.blocks i) = (content v i).length

/-- **The file is the old one followed by all accepted writes**: on a ramfs always, on axiomefs
exactly if it had no gap and each write goes to a current descriptor. -/
theorem appends_iff (n : RamNode) (ws : List (List UInt8 × Option (ℕ → UInt8))) (v : Volume)
    (i : ℕ) (es : List Event) :
    (Buffered n →
      let r := ws.foldl ramAppend (n, ramfs.contents (some n))
      ramfs.contents (some r.1) = r.2) ∧
    (Owned v (· = i) →
      ((∀ pre, pre <+: es → ∀ s, Run (step i) (start v i) pre s → Kept i s) ↔
        Covered v i ∧ ∀ pre e, pre ++ [e] <+: es → ∀ s s', Run (step i) (start v i) pre s →
          step i s e s' → Exclusive s e)) := by
  constructor
  · intro hn
    exact (List.foldlRecOn (motive := fun s : RamNode × List UInt8 =>
      Buffered s.1 ∧ ramfs.contents (some s.1) = s.2) ws ramAppend
      (b := (n, ramfs.contents (some n))) ⟨hn, rfl⟩ fun s hs w _ => ramAppend_keeps w hs.1 hs.2).2
  · intro ho
    by_cases hgap : Covered v i
    · have hstart : Inv i (start v i) := ⟨ho, ⟨hgap, rfl⟩, fun k => ⟨rfl, rfl⟩⟩
      rw [and_iff_right hgap]
      exact run_property_iff (fun _ h => h.kept) (fun _ _ _ h hs => h.step hs) hstart es
    · refine iff_of_false (fun hall => ?_) fun h => hgap h.1
      exact hgap (hall [] List.nil_prefix _ (.nil _)).1

/-- Two descriptors of the file of one byte, 66 written to the first and 67 to the second. -/
theorem append_overwritten :
    let s := exec 7 (exec 7 (start oneByteVolume 7) (.write 0 [66])) (.write 1 [67])
    Run (step 7) (start oneByteVolume 7) [.write 0 [66], .write 1 [67]] s ∧
      content oneByteVolume 7 = [65] ∧ content s.v 7 = [65, 67] := by
  refine ⟨.cons ⟨?_, rfl⟩ (.cons ⟨?_, rfl⟩ (.nil _)), ?_, ?_⟩
  · rw [Accepted]
    decide +kernel
  · rw [Accepted]
    decide +kernel
  · decide +kernel
  · decide +kernel

end AxiomeOS.Append
