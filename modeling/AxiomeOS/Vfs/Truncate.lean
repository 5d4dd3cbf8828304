import AxiomeOS.Axfs.Create
import AxiomeOS.Axfs.Limits
import AxiomeOS.Vfs.Write

/-!
# Truncating a file

`O_TRUNC` empties the vnode of the open.  A file of a ramfs has no other vnode, but axiomefs makes
one for each open, and the inode keeps its size and its blocks: a write from the start of the file
leaves the old bytes behind it.

`truncate_replaces_iff`: after `sys_open` and a `sys_write` of a buffer the file holds the buffer
exactly if, on a ramfs, there is memory for it, and on axiomefs, it is not empty, it is within the
limit of a file, and it covers what the file held.
-/

namespace AxiomeOS.Descriptor

open Security
open Vfs (OpenFlags)

variable {σ ν μ : Type} {F : FileSystem σ ν μ} {s : State σ ν} {fs : σ} {n : ν} {c : Cred}
variable {d : ℕ} {bytes : List UInt8} {m m' : μ}

/-- `O_WRONLY | O_TRUNC`. -/
def truncFlags : OpenFlags := ⟨true, false, false, true, false⟩

/-- The process opens the file, which gives it descriptor `d`, and writes the buffer there. -/
def openWrite (F : FileSystem σ ν μ) (s : State σ ν) (c : Cred) (d : ℕ) (bytes : List UInt8)
    (m m' : μ) : State σ ν × ℤ :=
  sysWrite F (sysOpen F s c truncFlags (some d) m).1 c d bytes true m'

/-- The path leads to the vnode `n` of a file that the process may write. -/
structure Openable (F : FileSystem σ ν μ) (s : State σ ν) (c : Cred) (fs : σ) (n : ν) : Prop where
  lookup : F.lookup s.fs = some (fs, n)
  file : F.type fs n ≠ .dir
  mode : mayWrite F fs c n = true
  caps : mayUseWrite c = true

/-- All of the buffer is written, and a fresh open reads it and no more. -/
def Replaces (F : FileSystem σ ν μ) (s : State σ ν) (c : Cred) (d : ℕ) (bytes : List UInt8)
    (m m' : μ) : Prop :=
  (openWrite F s c d bytes m m').2 = bytes.length ∧
    F.contents (openWrite F s c d bytes m m').1.fs = bytes

/-- **The two calls** come down to `ops->write` at offset 0 of the emptied vnode. -/
theorem Openable.replaces_iff (h : Openable F s c fs n) {write : σ → ν → ℕ → List UInt8 → μ → σ × ℕ}
    (hwrite : F.write = some write) (hattr : F.attr (F.truncate fs n) n = F.attr fs n) {fs' : σ}
    {k : ℕ} (hres : write (F.truncate fs n) n 0 bytes m' = (fs', k)) :
    Replaces F s c d bytes m m' ↔ k = bytes.length ∧ F.contents fs' = bytes := by
  have hopen : sysOpen F s c truncFlags (some d) m = install s (F.truncate fs n) (some d)
      (openedFile F (F.truncate fs n) n truncFlags false true) := by
    simp [sysOpen, h.lookup, h.file, h.mode, truncFlags]
  have hmode : mayWrite F (F.truncate fs n) c n = true := by
    rw [mayWrite, hattr]
    exact h.mode
  have hdone : vfsWrite F (F.truncate fs n) c n 0 bytes m' = (fs', (k : ℤ)) := by
    simp [vfsWrite, hwrite, hmode, h.caps, hres]
  have hcalls : (openWrite F s c d bytes m m').1.fs = fs' ∧
      (openWrite F s c d bytes m m').2 = (k : ℤ) := by
    rw [openWrite, hopen]
    simp [sysWrite, install, writeOff, truncFlags, openedFile, hdone]
  rw [Replaces, hcalls.1, hcalls.2, Int.natCast_inj]

theorem ramfs_replaces_iff {s : State (Option RamNode) Unit} {fs : Option RamNode} {m m' : Answers}
    (h : Openable ramfs s c fs ()) :
    Replaces ramfs s c d bytes m m' ↔ bytes = [] ∨ m'.mem.isSome = true := by
  obtain ⟨n, -, heq⟩ := Option.map_eq_some_iff.mp h.lookup
  cases heq
  let e : RamNode := { n with data := none, size := 0, cap := 0 }
  have hcalls : Replaces ramfs s c d bytes m m' ↔ (ramfsWrite e 0 bytes m'.mem).2 = bytes.length ∧
      ramfs.contents (some (ramfsWrite e 0 bytes m'.mem).1) = bytes := h.replaces_iff rfl rfl rfl
  have hroom : 0 + bytes.length ≤ e.cap ↔ bytes = [] := by simp [e]
  rw [hcalls]
  constructor
  · rintro ⟨hret, -⟩
    by_contra hno
    obtain ⟨hne, hmem⟩ := not_or.mp hno
    rw [Option.not_isSome_iff_eq_none.mp hmem, ramfsWrite_refused (mt hroom.mp hne)] at hret
    exact hne (List.length_eq_zero_iff.mp hret.symm)
  · intro hfits
    have hfits' := hfits.imp_left hroom.mpr
    obtain ⟨n', heq, -⟩ := ramfsWrite_accepted (.inl rfl) hfits'
    exact ⟨congrArg Prod.snd heq, contents_ramfsWrite (.inl rfl) hfits'⟩

end AxiomeOS.Descriptor

namespace AxiomeOS.Axfs

open Descriptor List

variable {v v' : Volume} {di di' : Block} {buf : ℕ → UInt8} {len : ℕ}

/-- The bytes that a fresh open reads up to the end of the file. -/
def content (v : Volume) (i : ℕ) : List UInt8 :=
  axfsRead v (axfsMakeVnode v i) 0 (size (v.blocks i))

/-- The vnode that `O_TRUNC` leaves of a file. -/
def truncated (v : Volume) (i : ℕ) : Vnode := { axfsMakeVnode v i with size := 0 }

/-- `axfs_write` through the truncated vnode writes the buffer, and a read of the inode gives that
and no more. -/
def WritesOver (v : Volume) (i : ℕ) (buf : ℕ → UInt8) (len : ℕ) : Prop :=
  ∃ v' node, axfsWrite v (truncated v i) 0 buf len = some (v', node, len) ∧
    content v' i = (List.range len).map buf

/-- The buffer is not empty, is within the limit of a file and reaches the end of the file, or, at
the end of a block, that of the last extent. -/
def Covers (v : Volume) (i len : ℕ) : Prop :=
  0 < len ∧ len ≤ 160 * 4096 ∧
    (size (v.blocks i) ≤ len ∨ 4096 * count (v.blocks i) ≤ len ∧ len % 4096 = 0)

theorem content_getElem? (v : Volume) (i k : ℕ) : (content v i)[k]? = fileByte v i k := by
  -- asking for more than the file holds changes nothing
  have hmin : min (max (size (v.blocks i)) (k + 1)) (size (v.blocks i) - 0) =
      min (size (v.blocks i)) (size (v.blocks i) - 0) := by omega
  have hask : content v i = axfsRead v (axfsMakeVnode v i) 0 (max (size (v.blocks i)) (k + 1)) := by
    rw [content, axfsRead_eq, axfsRead_eq, show (axfsMakeVnode v i).priv = i from rfl, hmin]
  rw [hask, axfsRead_getElem? v _ 0
    (Nat.lt_of_lt_of_le (Nat.lt_succ_self k) (Nat.le_max_right _ _)),
    Nat.zero_add]
  rfl

/-- Turns from block 0 on leave an extent for each. -/
theorem le_count_of_writeBlocks (k : ℕ) (h : writeBlocks buf 0 len k 0 v di = some (v', di')) :
    k ≤ count di' := by
  induction k generalizing v' di' with
  | zero => exact Nat.zero_le _
  | succ k ih =>
    rw [writeBlocks_snoc] at h
    obtain ⟨t, hfirst, hlast⟩ := Option.bind_eq_some_iff.mp h
    have hle := ih hfirst
    have hcount := (writeBlock_count hlast).2
    split at hcount <;> omega

theorem axfsWrite_beyond (v : Volume) (node : Vnode) (buf : ℕ → UInt8) (hlen : len ≤ 2 ^ 64)
    (hbeyond : 4096 * maxExtents < len) : axfsWrite v node 0 buf len = none := by
  rw [axfsWrite_eq, Option.map_eq_none_iff, Option.eq_none_iff_forall_ne_some]
  intro s hs
  have hturns : turns 0 len = (0 + len - 1) / 4096 + 1 - 0 / 4096 :=
    turns_of_pos (by omega) (by omega)
  obtain ⟨n, hn⟩ : ∃ n, turns 0 len = n + 1 := ⟨(len - 1) / 4096, by omega⟩
  rw [hn, writeBlocks_snoc] at hs
  obtain ⟨t, hfirst, hlast⟩ := Option.bind_eq_some_iff.mp hs
  have hindex := (writeBlock_count hlast).1
  have hcount := le_count_of_writeBlocks n hfirst
  rw [extentIndex] at hindex
  omega

theorem axfsWrite_fits {i : ℕ} {r : Volume × Vnode × ℕ} (hlen : len ≤ 2 ^ 64)
    (h : axfsWrite v (truncated v i) 0 buf len = some r) : 0 < len ∧ len ≤ 160 * 4096 := by
  constructor
  · refine Nat.pos_of_ne_zero ?_
    rintro rfl
    rw [axfsWrite_nothing_at_zero] at h
    cases h
  · by_contra hfits
    rw [axfsWrite_beyond v _ buf hlen (Nat.mul_comm 160 4096 ▸ Nat.lt_of_not_le hfits)] at h
    cases h

/-- **The truncating writes that replace a file** of axiomefs.  The last alternative is a file with
a gap at its end: what follows the buffer has no extent. -/
theorem writesOver_iff {S : ℕ → Prop} {i : ℕ} (ho : Owned v S) (hi : S i) (hlen : len ≤ 2 ^ 64)
    (hfree : len ≤ 160 * 4096 → blocksNeeded (v.blocks i) 0 len ≤ v.freeBlocks) :
    WritesOver v i buf len ↔ Covers v i len := by
  by_cases hin : 0 < len ∧ len ≤ 160 * 4096
  swap
  · refine iff_of_false ?_ (fun h => hin ⟨h.1, h.2.1⟩)
    rintro ⟨v', node, hwrite, -⟩
    exact hin (axfsWrite_fits hlen hwrite)
  obtain ⟨hpos, hfits⟩ := hin
  have hend : 0 + len ≤ 160 * 4096 := (Nat.zero_add len).symm ▸ hfits
  have hmem : S (truncated v i).priv := hi
  obtain ⟨v', d, hrun, he, hcount, hwrite⟩ :=
    axfsWrite_run (ho.writable hmem) buf (Nat.add_pos_right 0 hpos) hend (hfree hfits)
  have hbytes : ∀ k, fileByte (writeInode v' i (finishInode 0 len d)) i k =
      if k < max (size (v.blocks i)) (0 + len) ∧ k / 4096 < count d then
        some (if 0 ≤ k ∧ k < 0 + len then buf (k - 0)
          else oldBlock v (v.blocks i) (k / 4096) (k % 4096))
      else none :=
    fileByte_axfsWrite ho hmem buf hpos hend (hfree hfits) (Nat.zero_le _) hrun he
  have htotal : count d = max (count (v.blocks i)) ((len - 1) / 4096 + 1) := by
    rw [show count d = _ from hcount, blocksNeeded]
    show count (v.blocks i) + ((0 + len - 1) / 4096 + 1 - max (0 / 4096) (count (v.blocks i))) = _
    omega
  have hold : WritesOver v i buf len ↔ ∀ k, ((List.range len).map buf)[k]? =
      fileByte (writeInode v' i (finishInode 0 len d)) i k := by
    refine ⟨?_, fun h => ⟨_, _, hwrite, ?_⟩⟩
    · rintro ⟨w, node, hw, hcontent⟩ k
      cases hw.symm.trans hwrite
      rw [← hcontent]
      exact content_getElem? _ i k
    · apply List.ext_getElem?
      intro k
      exact (content_getElem? _ i k).trans (h k).symm
  rw [hold]
  constructor
  · intro h
    refine ⟨hpos, hfits, ?_⟩
    have hlast := h len
    rw [List.getElem?_eq_none (by simp), hbytes] at hlast
    have hnot : ¬(len < max (size (v.blocks i)) (0 + len) ∧ len / 4096 < count d) := by
      intro hin
      rw [if_pos hin] at hlast
      cases hlast
    rw [htotal] at hnot
    clear hrun hwrite hlast hbytes hold h
    omega
  · rintro ⟨-, -, hcover⟩ k
    rw [hbytes, List.getElem?_map, htotal]
    by_cases hk : k < len
    · rw [List.getElem?_range hk, if_pos (by omega), if_pos (by omega)]
      rfl
    · rw [List.getElem?_eq_none (by simp; omega), if_neg (by omega)]
      rfl

/-- **A lookup after a write to a file** passes directories only, which the write leaves alone. -/
theorem Linked.lookupFrom_frame {S : ℕ → Prop} {i : ℕ} (hL : Linked v S)
    (hfile : ¬isDir (v.blocks i)) (hframe : ∀ j, S j → j ≠ i → v'.blocks j = v.blocks j ∧
      ∀ k, k < count (v.blocks j) →
        v'.blocks (extent (v.blocks j) k) = v.blocks (extent (v.blocks j) k))
    (comps : List (List UInt8)) (j : ℕ) (hj : S j) (h : lookupFrom v j comps = some i) :
    lookupFrom v' j comps = some i := by
  induction comps generalizing j with
  | nil => exact h
  | cons comp comps ih =>
    by_cases hdir : isDir (v.blocks j)
    · obtain ⟨hinode, hdata⟩ := hframe j hj fun heq => hfile (heq ▸ hdir)
      rw [lookupFrom_cons hdir] at h
      obtain ⟨next, hnext, hrest⟩ := Option.bind_eq_some_iff.mp h
      rw [lookupFrom_cons (hinode ▸ hdir), findEntry_frame hinode hdata, hnext]
      exact ih next (hL.closed j comp next hj hdir hnext) hrest
    · rw [lookupFrom_of_not_isDir hdir] at h
      cases h

/-- The path still leads to the file after a write to it. -/
theorem Linked.lookupFrom_writeInode {S : ℕ → Prop} {i : ℕ} (hL : Linked v S)
    (hfile : ¬isDir (v.blocks i)) {comps : List (List UInt8)}
    (hi : lookupFrom v v.rootInodeBlock comps = some i) (he : Extended v (v.blocks i) v' di)
    (e : Block) :
    lookupFrom (writeInode v' i e) (writeInode v' i e).rootInodeBlock comps = some i := by
  have hS : S i := hL.lookupFrom_mem comps _ hL.root hi
  have hroot : (writeInode v' i e).rootInodeBlock = v.rootInodeBlock := he.root
  refine hroot ▸ hL.lookupFrom_frame hfile (fun j hj hne => ⟨?_, fun k hk => ?_⟩) comps _ hL.root hi
  · rw [blocks_writeInode_of_ne v' hne]
    exact hL.inode_frame hS he hj
  · have hself : extent (v.blocks j) k ≠ i := fun h => (hL.extents j k hj hk).2 (h ▸ hS)
    rw [blocks_writeInode_of_ne v' hself]
    exact hL.extent_frame hS he hj hne.symm hk

/-- `axfs_write` returns, without leaving the array of extents. -/
def WriteReturns (fs : AxNodes) (n off : ℕ) (bytes : List UInt8) : Prop :=
  (axfsWrite fs.volume (fs.node n) off (fun k => bytes.getD k 0) bytes.length).isSome = true

theorem axiomefs_write_of_some {path bytes : List UInt8} {s : AxNodes} {k off : ℕ} {m : Bool}
    {r : Volume × Vnode × ℕ} {write : AxNodes → ℕ → ℕ → List UInt8 → Bool → AxNodes × ℕ}
    (h : axfsWrite s.volume (s.node k) off (fun i => bytes.getD i 0) bytes.length = some r)
    (hwrite : (axiomefs path).write = some write) : write s k off bytes m =
      ({ s with volume := r.1, node := Function.update s.node k r.2.1 }, r.2.2) := by
  cases hwrite
  dsimp only
  rw [h]

theorem axiomefs_contents_of_lookup {path : List UInt8} {s : AxNodes} {i : ℕ}
    (h : lookupFrom s.volume s.volume.rootInodeBlock (components path) = some i) :
    (axiomefs path).contents s = content s.volume i := by
  dsimp only [axiomefs]
  rw [axfsLookup, h]
  rfl

theorem axiomefs_lookup_some {path : List UInt8} {s fs : AxNodes} {n : ℕ}
    (h : (axiomefs path).lookup s = some (fs, n)) :
    ∃ i, lookupFrom s.volume s.volume.rootInodeBlock (components path) = some i ∧
      fs.volume = s.volume ∧ fs.node n = axfsMakeVnode s.volume i := by
  obtain ⟨node, hnode, heq⟩ := Option.map_eq_some_iff.mp h
  obtain ⟨i, hi, rfl⟩ := Option.map_eq_some_iff.mp hnode
  cases heq
  exact ⟨i, hi, rfl, Function.update_self ..⟩

/-- **Truncating and writing replaces a file of axiomefs** exactly if the buffer covers it. -/
theorem axiomefs_replaces_iff {path : List UInt8} {s : State AxNodes ℕ} {fs : AxNodes} {n d : ℕ}
    {c : Security.Cred} {bytes : List UInt8} {m m' : Bool} {S : ℕ → Prop}
    (h : Openable (axiomefs path) s c fs n) (hL : Linked fs.volume S)
    (hlen : bytes.length ≤ 2 ^ 64) (hfree : bytes.length ≤ 160 * 4096 →
      blocksNeeded (fs.volume.blocks (fs.node n).priv) 0 bytes.length ≤ fs.volume.freeBlocks) :
    WriteReturns ((axiomefs path).truncate fs n) n 0 bytes ∧
        Replaces (axiomefs path) s c d bytes m m' ↔
      Covers fs.volume (fs.node n).priv bytes.length := by
  obtain ⟨i, hi, hvol, hnode⟩ := axiomefs_lookup_some h.lookup
  rw [← hvol] at hi hnode
  have hpriv : (fs.node n).priv = i := congrArg Vnode.priv hnode
  have hS : S i := hL.lookupFrom_mem _ _ hL.root hi
  have hfile : ¬isDir (fs.volume.blocks i) := by
    intro hdir
    have hdir' : Inode.inType.get (fs.volume.afsReadBlock i) = NodeType.dir.code := hdir
    exact h.file (by simp [axiomefs, hnode, axfsMakeVnode, hdir'])
  have hattr :
      (axiomefs path).attr ((axiomefs path).truncate fs n) n = (axiomefs path).attr fs n := by
    simp [axiomefs]
  have hempty : ((axiomefs path).truncate fs n).node n = truncated fs.volume i := by
    simp [axiomefs, truncated, hnode]
  have hvol' : ((axiomefs path).truncate fs n).volume = fs.volume := rfl
  have hbuf : (range bytes.length).map (fun k => bytes.getD k 0) = bytes := by
    apply ext_getElem <;> simp +contextual
  rw [hpriv] at hfree ⊢
  rw [← writesOver_iff hL.toOwned hS hlen hfree, WriteReturns]
  cases hres : axfsWrite ((axiomefs path).truncate fs n).volume
      (((axiomefs path).truncate fs n).node n) 0 (fun k => bytes.getD k 0) bytes.length with
  | none =>
    rw [hvol', hempty] at hres
    refine iff_of_false (fun hw => by cases hw.1) ?_
    rintro ⟨v', node, hw, -⟩
    cases hres.symm.trans hw
  | some r =>
    obtain ⟨write, hwrite⟩ : ∃ write, (axiomefs path).write = some write := ⟨_, rfl⟩
    have hcalls : Replaces (axiomefs path) s c d bytes m m' ↔ _ :=
      h.replaces_iff hwrite hattr (axiomefs_write_of_some hres hwrite)
    rw [hvol', hempty] at hres
    obtain ⟨hpos, hfits⟩ := axfsWrite_fits hlen hres
    obtain ⟨w, e, -, he, -, hrun⟩ := axfsWrite_run
      (hL.writable (show S (truncated fs.volume i).priv from hS)) (fun k => bytes.getD k 0)
      (Nat.add_pos_right 0 hpos) ((Nat.zero_add bytes.length).symm ▸ hfits) (hfree hfits)
    cases hres.symm.trans hrun
    rw [hcalls, axiomefs_contents_of_lookup (hL.lookupFrom_writeInode hfile hi he _)]
    constructor
    · rintro ⟨-, -, hcontent⟩
      exact ⟨_, _, hres, hcontent.trans hbuf.symm⟩
    · rintro ⟨v', node, hw, hcontent⟩
      cases hres.symm.trans hw
      exact ⟨rfl, rfl, hcontent.trans hbuf⟩

/-- **A write alters a file of axiomefs** if it brings another byte, or one where there was none. -/
theorem axiomefs_alters_iff {path bytes : List UInt8} {fs : AxNodes} {k off i : ℕ} {m : Bool}
    {S : ℕ → Prop} (hL : Linked fs.volume S) (hfile : ¬isDir (fs.volume.blocks i))
    (hi : lookupFrom fs.volume fs.volume.rootInodeBlock (components path) = some i)
    (hpriv : (fs.node k).priv = i) (hpos : 0 < bytes.length)
    (hend : off + bytes.length ≤ 160 * 4096) (hstart : off / 4096 ≤ count (fs.volume.blocks i))
    (hfree : blocksNeeded (fs.volume.blocks i) off bytes.length ≤ fs.volume.freeBlocks) :
    Alters (axiomefs path) fs k off bytes m ↔
      ∃ p, p < bytes.length ∧ fileByte fs.volume i (off + p) ≠ some (bytes.getD p 0) := by
  subst hpriv
  have hS := hL.lookupFrom_mem _ _ hL.root hi
  obtain ⟨w, e, hrun, he, hcount, hwrite⟩ := axfsWrite_run (hL.writable hS)
    (fun j => bytes.getD j 0) (Nat.add_pos_right off hpos) hend hfree
  have hbytes := fileByte_axfsWrite hL.toOwned hS (fun j => bytes.getD j 0) hpos hend hfree hstart
    hrun he
  have hcover : ∀ q, q < off + bytes.length →
      q < max (size (fs.volume.blocks (fs.node k).priv)) (off + bytes.length) ∧
        q / 4096 < count e := by
    intro q hq
    have hreach := blocksNeeded_reaches bytes.length hstart
    exact ⟨lt_max_of_lt_right hq, by omega⟩
  obtain ⟨write, hw⟩ : ∃ write, (axiomefs path).write = some write := ⟨_, rfl⟩
  have hafter : (axiomefs path).contents (write fs k off bytes m).1 =
      content (writeInode w (fs.node k).priv (finishInode off bytes.length e))
        (fs.node k).priv := by
    rw [axiomefs_write_of_some hwrite hw]
    exact axiomefs_contents_of_lookup (hL.lookupFrom_writeInode hfile hi he _)
  have halters : ¬Alters (axiomefs path) fs k off bytes m ↔ ∀ q,
      fileByte (writeInode w (fs.node k).priv (finishInode off bytes.length e)) (fs.node k).priv q =
        fileByte fs.volume (fs.node k).priv q := by
    simp only [Alters, hw, Option.some.injEq, exists_eq_left', not_not, hafter,
      axiomefs_contents_of_lookup hi, ← content_getElem?]
    exact ⟨fun h q => by rw [h], ext_getElem?⟩
  rw [← not_iff_not, halters]
  constructor
  · rintro h ⟨p, hp, hne⟩
    refine hne ?_
    rw [← h, hbytes, if_pos (hcover _ (by omega)), if_pos (by omega), Nat.add_sub_cancel_left]
  · intro h q
    have hall : ∀ p, p < bytes.length →
        fileByte fs.volume (fs.node k).priv (off + p) = some (bytes.getD p 0) :=
      fun p hp => not_not.mp fun hne => h ⟨p, hp, hne⟩
    by_cases hin : off ≤ q ∧ q < off + bytes.length
    · rw [hbytes, if_pos (hcover q hin.2), if_pos hin, ← hall (q - off) (by omega),
        Nat.add_sub_cancel' hin.1]
    · -- the last byte is there already, so the write needs no further block
      have hlast := fileByte_some (hall (bytes.length - 1) (by omega))
      have hsame : count e = count (fs.volume.blocks (fs.node k).priv) := by
        rw [hcount, blocksNeeded]
        omega
      rw [hbytes, fileByte, if_neg hin, oldBlock, hsame, Nat.max_eq_left (by omega)]
      split
      case isTrue hq => rw [if_pos hq.2]
      case isFalse => rfl

/-- **Truncating and writing replaces the file** on a ramfs exactly if the buffer is empty or there
is memory, and on axiomefs, with the blocks it needs, exactly if it covers the old file. -/
theorem truncate_replaces_iff (c : Security.Cred) (d : ℕ) (bytes : List UInt8)
    (hlen : bytes.length ≤ 2 ^ 64) :
    (∀ s fs m m', Openable ramfs s c fs () →
      (Replaces ramfs s c d bytes m m' ↔ bytes = [] ∨ m'.mem.isSome = true)) ∧
    ∀ path s fs n m m' S, Openable (axiomefs path) s c fs n → Linked fs.volume S →
      (bytes.length ≤ 160 * 4096 → blocksNeeded (fs.volume.blocks (fs.node n).priv) 0 bytes.length ≤
        fs.volume.freeBlocks) →
      (WriteReturns ((axiomefs path).truncate fs n) n 0 bytes ∧
          Replaces (axiomefs path) s c d bytes m m' ↔
        Covers fs.volume (fs.node n).priv bytes.length) :=
  ⟨fun _ _ _ _ h => ramfs_replaces_iff h,
    fun _ _ _ _ _ _ _ h hL hfree => axiomefs_replaces_iff h hL hlen hfree⟩

/-- The process of root. -/
def rootUser : Security.Cred :=
  ⟨0, 0, 0, 0, 0, 0, .admin, Security.roleCaps .admin, Security.roleCaps .admin, 0⟩

/-- A volume of which nothing is open yet, and after a lookup that has led to the inode `i`. -/
def mounted (v : Volume) : State AxNodes ℕ := start ⟨v, axfsMakeVnode v, 0⟩

def found (v : Volume) (i : ℕ) : AxNodes :=
  ⟨v, Function.update (axfsMakeVnode v) 0 (axfsMakeVnode v i), 1⟩

theorem lookup_mounted {path : List UInt8} {i : ℕ}
    (h : lookupFrom v v.rootInodeBlock (components path) = some i) :
    (axiomefs path).lookup (mounted v).fs = some (found v i, 0) := by
  dsimp only [axiomefs, axfsLookup, mounted, start]
  rw [h]
  rfl

/-- A file of a ramfs, and the empty file `0a` in a directory with fifteen files, take one byte. -/
theorem truncate_replaces_iff_one_byte :
    Replaces ramfs (start rootFile) rootUser 3 [66] ⟨true, none⟩ ⟨true, some fun _ => 0⟩ ∧
      Replaces (axiomefs [48, 97]) (mounted (crowded 1)) rootUser 3 [66] true true := by
  have hpath :
      lookupFrom (crowded 1) (crowded 1).rootInodeBlock (components [48, 97]) = some 200 := by
    decide +kernel
  have hempty : (crowded 1).blocks 200 = newInode 200 .file none := rfl
  have hiff := truncate_replaces_iff rootUser 3 [66] (by decide)
  refine ⟨(hiff.1 _ rootFile _ _ ⟨rfl, by decide, by decide, by decide⟩).mpr (.inr rfl), ?_⟩
  refine ((hiff.2 _ _ _ 0 true true CrowdedNode
    ⟨lookup_mounted hpath, by decide, by decide, by decide⟩
    (linked_crowded (by decide)) fun _ => ?_).mpr ?_).2
  · show blocksNeeded ((crowded 1).blocks 200) 0 1 ≤ _
    rw [hempty, blocksNeeded, count_newInode]
    exact freeBlocks_crowded 1
  · show Covers (crowded 1) 200 1
    rw [Covers, hempty]
    decide

/-- The file `a` in block 7 of the directory in block 5, with the bytes 65 and 0. -/
def twoByteVolume : Volume :=
  { oneByteVolume with
    rootInodeBlock := 5
    blocks := fun b =>
      if b = 5 then appendExtent (newInode 5 .dir none) 6
      else if b = 6 then putDent zeroBlock 0 [97] 7 NodeType.file.code
      else if b = 7 then Inode.size.put 2 (oneByteVolume.blocks 7)
      else oneByteVolume.blocks b }

/-- **The byte 66 written to a truncated file of two bytes** is followed by the old second byte. -/
theorem truncate_keeps_rest :
    let s := mounted twoByteVolume
    (axiomefs [97]).contents s.fs = [65, 0] ∧
      (openWrite (axiomefs [97]) s rootUser 3 [66] true true).2 = 1 ∧
      (axiomefs [97]).contents (openWrite (axiomefs [97]) s rootUser 3 [66] true true).1.fs =
        [66, 0] ∧
      ¬Replaces (axiomefs [97]) s rootUser 3 [66] true true := by
  have hrest : (axiomefs [97]).contents
      (openWrite (axiomefs [97]) (mounted twoByteVolume) rootUser 3 [66] true true).1.fs =
      [66, 0] := by
    decide +kernel
  refine ⟨by decide +kernel, by decide +kernel, hrest, fun h => ?_⟩
  exact absurd (hrest.symm.trans h.2) (by decide)

end AxiomeOS.Axfs
