import AxiomeOS.Lib.Bytes
import AxiomeOS.Lib.Chain
import Mathlib.Algebra.GroupWithZero.Nat

/-!
# Network buffers

The buffer pool of `net_buf.c`.  An mbuf is an entry of the static table `g_mbuf_pool`, so a
pointer to one is an index below `MBUF_POOL_SIZE`.  An entry has two links: `next` threads the
free list, `next_seg` the fragments of one packet.

`mbuf_free` gives back the buffer *and every fragment behind it*; it clears the `next_seg` of
the first one only, so the fragments keep theirs while they stand on the free list.

The loops of the source that follow links run with the size of the pool as fuel: a chain has no
more nodes than that (`Chain.length_le`).
-/

namespace AxiomeOS.Net

open Bytes Chains Function

variable {j k : MbufPtr}

/-- A pointer into `g_mbuf_pool` (`MBUF_POOL_SIZE` entries). -/
abbrev MbufPtr := Fin 256

scoped instance mbufs_ne : NeZero 256 := ⟨by decide⟩

scoped instance : LawfulBEq MbufPtr := inferInstance

/-- `MBUF_DATA_SIZE`, the bytes of a buffer that may hold packet data. -/
def mbufDataSize : ℕ := 2048

/-- `struct mbuf`; `phys` is the driver's business. -/
structure Mbuf where
  data : Buffer
  dataOff : ℕ
  len : ℕ
  refcount : ℕ
  next : Option MbufPtr
  nextSeg : Option MbufPtr
  rxSrcIp : UInt32
  rxSrcPort : UInt16

/-- `g_mbuf_pool` and `g_mbuf_free`. -/
structure Pool where
  mbuf : MbufPtr → Mbuf
  free : Option MbufPtr

namespace Pool

/-- The `next` links, which thread the free list. -/
def nextFree (p : Pool) (k : MbufPtr) : Option MbufPtr := (p.mbuf k).next

/-- The `next_seg` links, which thread the fragments of a packet. -/
def nextSeg (p : Pool) (k : MbufPtr) : Option MbufPtr := (p.mbuf k).nextSeg

/-- Write to the entry `k`. -/
def modify (p : Pool) (k : MbufPtr) (f : Mbuf → Mbuf) : Pool :=
  { p with mbuf := update p.mbuf k (f (p.mbuf k)) }

@[simp] theorem modify_mbuf_self (p : Pool) (k : MbufPtr) (f : Mbuf → Mbuf) :
    (p.modify k f).mbuf k = f (p.mbuf k) := update_self _ _ _

theorem modify_mbuf_of_ne (p : Pool) (f : Mbuf → Mbuf) (h : j ≠ k) :
    (p.modify k f).mbuf j = p.mbuf j := update_of_ne h _ _

theorem modify_nextSeg (p : Pool) (k : MbufPtr) {f : Mbuf → Mbuf}
    (hf : (f (p.mbuf k)).nextSeg = (p.mbuf k).nextSeg) : (p.modify k f).nextSeg = p.nextSeg := by
  funext j
  by_cases hj : j = k
  · rw [hj]
    exact (congrArg Mbuf.nextSeg (p.modify_mbuf_self k f)).trans hf
  · exact congrArg Mbuf.nextSeg (p.modify_mbuf_of_ne f hj)

/-- Write the fragment link of the entry `k`. -/
def setNextSeg (p : Pool) (k : MbufPtr) (q : Option MbufPtr) : Pool :=
  p.modify k fun m => { m with nextSeg := q }

@[simp] theorem setNextSeg_nextSeg_self (p : Pool) (k : MbufPtr) (q : Option MbufPtr) :
    (p.setNextSeg k q).nextSeg k = q :=
  congrArg Mbuf.nextSeg (p.modify_mbuf_self k fun m => { m with nextSeg := q })

theorem setNextSeg_mbuf_of_ne (p : Pool) (q : Option MbufPtr) (h : j ≠ k) :
    (p.setNextSeg k q).mbuf j = p.mbuf j :=
  p.modify_mbuf_of_ne _ h

theorem setNextSeg_nextSeg_of_ne (p : Pool) (q : Option MbufPtr) (h : j ≠ k) :
    (p.setNextSeg k q).nextSeg j = p.nextSeg j :=
  congrArg Mbuf.nextSeg (p.setNextSeg_mbuf_of_ne q h)

/-- Put the entry `k` in front of the free list. -/
def pushFree (p : Pool) (k : MbufPtr) : Pool :=
  { p.modify k fun m => { m with refcount := 1, next := p.free } with free := some k }

theorem pushFree_mbuf_of_ne (p : Pool) (h : j ≠ k) : (p.pushFree k).mbuf j = p.mbuf j :=
  update_of_ne h _ _

@[simp] theorem pushFree_nextSeg (p : Pool) (k : MbufPtr) : (p.pushFree k).nextSeg = p.nextSeg :=
  p.modify_nextSeg (f := fun m => { m with refcount := 1, next := p.free }) k rfl

end Pool

/-- The table after `memset`. -/
def zeroPool : Pool where
  mbuf := fun _ => ⟨fun _ => 0, 0, 0, 0, none, none, 0, 0⟩
  free := none

/-- `mbuf_init`, from the last entry to the first; `page i` is the page `pmm_alloc_frame` gives
for entry `i`, if it gives one. -/
def mbufInit (page : MbufPtr → Option Buffer) : Pool :=
  (List.finRange 256).foldr
    (fun i p =>
      match page i with
      | none => p
      | some data =>
        { p.modify i fun m =>
            { m with
              data := data, len := 0, dataOff := 0, refcount := 1, next := p.free
              nextSeg := none } with
          free := some i })
    zeroPool

/-- The fields `mbuf_alloc` resets; the data stays as the last user left it. -/
def Mbuf.fresh (m : Mbuf) : Mbuf :=
  { m with
    next := none, nextSeg := none, len := 0, dataOff := 0, refcount := 1
    rxSrcIp := 0, rxSrcPort := 0 }

/-- `mbuf_alloc`. -/
def mbufAlloc (p : Pool) : Option (MbufPtr × Pool) :=
  match p.free with
  | none => none
  | some k => some (k, { p.modify k Mbuf.fresh with free := p.nextFree k })

/-- `mbuf_alloc0`. -/
def mbufAlloc0 (p : Pool) : Option (MbufPtr × Pool) :=
  match mbufAlloc p with
  | none => none
  | some (k, p) =>
    some (k, p.modify k fun m => { m with data := blit m.data 0 (fun _ => 0) mbufDataSize })

/-- The loop of `mbuf_free` over the fragments behind `k`. -/
def freeSegs : ℕ → Pool → MbufPtr → Pool
  | 0, p, _ => p
  | fuel + 1, p, k =>
    match p.nextSeg k with
    | none => p
    | some seg =>
      freeSegs fuel ((p.setNextSeg k (p.nextSeg seg)).pushFree seg) k

/-- `mbuf_free` of a pointer that is not null. -/
def mbufFree (p : Pool) (k : MbufPtr) : Pool :=
  if (p.mbuf k).refcount > 1 then
    p.modify k fun m => { m with refcount := m.refcount - 1 }
  else (freeSegs 256 p k).pushFree k

/-- What `mbuf_clone` copies from one buffer into a newly allocated one. -/
def copyInto (src : Mbuf) (m : Mbuf) : Mbuf :=
  { m with
    data := blit m.data 0 src.data mbufDataSize, dataOff := src.dataOff, len := src.len
    refcount := 1, nextSeg := none }

/-- The loop of `mbuf_clone`: `seg` is the next fragment to copy, `dst` the last copy made. -/
def cloneSegs : ℕ → Pool → MbufPtr → MbufPtr → Option MbufPtr → Pool × Option MbufPtr
  | 0, p, c, _, _ => (p, some c)
  | _ + 1, p, c, _, none => (p, some c)
  | fuel + 1, p, c, dst, some seg =>
    match mbufAlloc p with
    | none => (mbufFree p c, none)
    | some (dc, p) =>
      let p := p.modify dc (copyInto (p.mbuf seg))
      let p := p.setNextSeg dst (some dc)
      cloneSegs fuel p c dc (p.nextSeg seg)

/-- `mbuf_clone` of a pointer that is not null. -/
def mbufClone (p : Pool) (k : MbufPtr) : Pool × Option MbufPtr :=
  match mbufAlloc p with
  | none => (p, none)
  | some (c, p) =>
    let p := p.modify c (copyInto (p.mbuf k))
    cloneSegs 256 p c c (p.nextSeg k)

/-- The `len` bytes of valid data of an mbuf. -/
def Mbuf.bytes (m : Mbuf) : List UInt8 := (List.range m.len).map fun j => m.data (m.dataOff + j)

/-- `mbuf_copyout`: at most `dstLen` bytes of the packet from `off` on. -/
def mbufCopyout : ℕ → Pool → ℕ → Option MbufPtr → ℕ → List UInt8
  | 0, _, _, _, _ => []
  | _ + 1, _, _, none, _ => []
  | fuel + 1, p, dstLen, some k, off =>
    let m := p.mbuf k
    if dstLen = 0 then []
    else if off < m.len then
      let n := min (m.len - off) dstLen
      (List.range n).map (fun j => m.data (m.dataOff + off + j)) ++
        mbufCopyout fuel p (dstLen - n) m.nextSeg 0
    else mbufCopyout fuel p dstLen m.nextSeg (off - m.len)

end AxiomeOS.Net
