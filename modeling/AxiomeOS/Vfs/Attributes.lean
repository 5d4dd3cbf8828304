import AxiomeOS.Axfs.Volume
import AxiomeOS.Security.Perms

/-!
# Modes and owners

`sys_chmod` and `sys_chown` store the new mode or owner in the vnode that `vfs_lookup` gives them.
A ramfs has one vnode for each file, and an axiomefs volume keeps the vnode of its root.  For every
other path of the volume a lookup makes a vnode from the inode, and neither call writes the inode.

`attributes_kept_iff`: later lookups find what was asked for exactly when it was stored in a vnode
that is kept, or stood in the inode already.
-/

namespace AxiomeOS.Attributes

open Axfs Bits Security

/-- What a path names: a file of a ramfs, if there is one, or what an axiomefs volume has under
`rel`, with the attributes of the vnode of its root. -/
inductive Place
  | ramfs (node : Option Attr)
  | axiomefs (v : Volume) (root : Attr) (rel : List UInt8)

def vfsLookup : Place → Option Attr
  | .ramfs node => node
  | .axiomefs v root rel =>
    if rel = [] then some root
    else (axfsLookup v v.rootInodeBlock rel).map fun n => ⟨n.uid, n.gid, n.mode⟩

/-- The vnode that a lookup of the path gives is still there at the next one. -/
def Place.cached : Place → Bool
  | .ramfs _ => true
  | .axiomefs _ _ rel => decide (rel = [])

/-- A store into the vnode that a lookup has given. -/
def Place.store (f : Attr → Attr) : Place → Place
  | .ramfs node => .ramfs (node.map f)
  | .axiomefs v root rel => .axiomefs v (if rel = [] then f root else root) rel

/-- The test of both calls. -/
def permitted (c : Cred) (a : Attr) : Bool :=
  decide (a.uid = c.euid.toNat) || decide (c.role = .system) || flagSet c.capsPrm capSysAdmin

/-- What `sys_chmod` and `sys_chown` have in common. -/
def sysSetAttr (p : Place) (c : Cred) (f : Attr → Attr) : Place × ℤ :=
  match vfsLookup p with
  | none => (p, -2)
  | some a => if permitted c a then (p.store f, 0) else (p, -1)

def sysChmod (p : Place) (c : Cred) (mode : ℕ) : Place × ℤ :=
  sysSetAttr p c fun a => { a with mode := mode % 4096 }

def sysChown (p : Place) (c : Cred) (uid gid : ℕ) : Place × ℤ :=
  sysSetAttr p c fun a => { a with uid := uid % 2 ^ 32, gid := gid % 2 ^ 32 }

/-! ### Histories -/

/-- The path, with the mode and the owner that were set last. -/
structure State where
  place : Place
  mode : Option ℕ
  owner : Option (ℕ × ℕ)

inductive Event
  | chmod (c : Cred) (mode : ℕ)
  | chown (c : Cred) (uid gid : ℕ)
  /-- Reads, writes, lookups and whatever else is done to the volume. -/
  | other (v : Volume)
  /-- The file is removed, or another one made in its place. -/
  | replace (p : Place)

def Place.withVolume (v : Volume) : Place → Place
  | .ramfs node => .ramfs node
  | .axiomefs _ root rel => .axiomefs v root rel

def exec (s : State) : Event → State
  | .chmod c mode =>
    let r := sysChmod s.place c mode
    { s with place := r.1, mode := if r.2 = 0 then some (mode % 4096) else s.mode }
  | .chown c uid gid =>
    let r := sysChown s.place c uid gid
    { s with
      place := r.1
      owner := if r.2 = 0 then some (uid % 2 ^ 32, gid % 2 ^ 32) else s.owner }
  | .other v => { s with place := s.place.withVolume v }
  | .replace p => ⟨p, none, none⟩

def start (p : Place) : State := ⟨p, none, none⟩

/-- Every vnode that a lookup gives satisfies `Q`. -/
def Found (p : Place) (Q : Attr → Prop) : Prop := ∀ a, vfsLookup p = some a → Q a

/-- The vnode has what was asked for, if anything was. -/
def Has {β : Type} (field : Attr → β) (asked : Option β) (a : Attr) : Prop :=
  ∀ x, asked = some x → field a = x

def owner (a : Attr) : ℕ × ℕ := (a.uid, a.gid)

/-- A lookup finds the mode and the owner that were set. -/
def Kept (s : State) : Prop :=
  Found s.place (Has Attr.mode s.mode) ∧ Found s.place (Has owner s.owner)

/-- The condition on a call: what is set is stored in a vnode that is kept, or stands in the inode
already; and what else is done to a volume leaves it there. -/
def Stored (s : State) : Event → Prop
  | .chmod c mode => s.place.cached = true ∨
      Found s.place fun a => permitted c a = true → a.mode = mode % 4096
  | .chown c uid gid => s.place.cached = true ∨
      Found s.place fun a => permitted c a = true → owner a = (uid % 2 ^ 32, gid % 2 ^ 32)
  | .other v => s.place.cached = true ∨
      Found (s.place.withVolume v) fun a => Has Attr.mode s.mode a ∧ Has owner s.owner a
  | .replace _ => True

section Calls

variable {p : Place} {c : Cred} {f : Attr → Attr} {Q : Attr → Prop} {β : Type} {field : Attr → β}

theorem vfsLookup_store (hcached : p.cached = true) :
    vfsLookup (p.store f) = (vfsLookup p).map f := by
  cases p with
  | ramfs node => rfl
  | axiomefs v root rel =>
    have hrel : rel = [] := of_decide_eq_true hcached
    simp [vfsLookup, Place.store, hrel]

theorem store_of_not_cached (hcached : p.cached = false) : p.store f = p := by
  cases p with
  | ramfs node => cases hcached
  | axiomefs v root rel =>
    have hrel : rel ≠ [] := of_decide_eq_false hcached
    simp [Place.store, hrel]

/-- A call keeps what its store does not change. -/
theorem Found.sysSetAttr (h : Found p Q) (hf : ∀ a, Q a → Q (f a)) :
    Found (sysSetAttr p c f).1 Q := by
  unfold Attributes.sysSetAttr
  split
  case h_1 => exact h
  case h_2 a ha =>
    split
    case isFalse => exact h
    case isTrue =>
      cases hcached : p.cached with
      | false =>
        rw [store_of_not_cached hcached]
        exact h
      | true =>
        intro a' ha'
        rw [vfsLookup_store hcached, ha] at ha'
        cases ha'
        exact hf a (h a ha)

/-- **What a call sets** is found afterwards exactly if the vnode is kept or the file had it. -/
theorem found_sysSetAttr_iff {new : β} {old : Option β} (hf : ∀ a, field (f a) = new)
    (h : Found p (Has field old)) :
    Found (sysSetAttr p c f).1 (Has field (if (sysSetAttr p c f).2 = 0 then some new else old)) ↔
      p.cached = true ∨ Found p fun a => permitted c a = true → field a = new := by
  unfold Attributes.sysSetAttr
  cases ha : vfsLookup p with
  | none => exact ⟨fun _ => .inr fun a ha' => (by cases ha.symm.trans ha'), fun _ => h⟩
  | some a =>
    by_cases hperm : permitted c a = true
    · simp only [hperm, if_true]
      cases hcached : p.cached with
      | false =>
        rw [store_of_not_cached hcached]
        constructor
        · exact fun hfound => .inr fun a' ha' _ => hfound a' ha' new rfl
        · rintro (hfalse | hfound) a' ha' x ⟨⟩
          · cases hfalse
          · cases ha.symm.trans ha'
            exact hfound a ha hperm
      | true =>
        refine ⟨fun _ => .inl rfl, fun _ a' ha' x hx => ?_⟩
        rw [vfsLookup_store hcached, ha] at ha'
        cases ha'
        cases hx
        exact hf a
    · simp only [hperm, Bool.false_eq_true, if_false]
      refine ⟨fun _ => .inr fun a' ha' hperm' => ?_, fun _ => h⟩
      cases ha.symm.trans ha'
      exact absurd hperm' hperm

end Calls

/-- **One call.** -/
theorem Kept.exec_iff {s : State} (h : Kept s) (e : Event) : Kept (exec s e) ↔ Stored s e := by
  cases e with
  | chmod c mode =>
    have howner : Found (sysChmod s.place c mode).1 (Has owner s.owner) :=
      h.2.sysSetAttr fun a ha => ha
    exact (and_iff_left howner).trans (found_sysSetAttr_iff (fun _ => rfl) h.1)
  | chown c uid gid =>
    have hmode : Found (sysChown s.place c uid gid).1 (Has Attr.mode s.mode) :=
      h.1.sysSetAttr fun a ha => ha
    exact (and_iff_right hmode).trans (found_sysSetAttr_iff (fun _ => rfl) h.2)
  | other v =>
    have hcached : s.place.cached = true → Kept (exec s (.other v)) := by
      intro hc
      have hsame : vfsLookup (s.place.withVolume v) = vfsLookup s.place := by
        cases hp : s.place with
        | ramfs node => rfl
        | axiomefs w root rel =>
          rw [hp] at hc
          have hrel : rel = [] := of_decide_eq_true hc
          simp [Place.withVolume, vfsLookup, hrel]
      refine ⟨fun a ha => h.1 a ?_, fun a ha => h.2 a ?_⟩
      · exact hsame.symm.trans ha
      · exact hsame.symm.trans ha
    constructor
    · exact fun hk => .inr fun a ha => ⟨hk.1 a ha, hk.2 a ha⟩
    · rintro (hc | hfound)
      · exact hcached hc
      · exact ⟨fun a ha => (hfound a ha).1, fun a ha => (hfound a ha).2⟩
  | replace p =>
    exact ⟨fun _ => trivial,
      fun _ => ⟨fun _ _ _ hm => (by cases hm), fun _ _ _ ho => (by cases ho)⟩⟩

/-- **Modes and owners.**  For every path on a ramfs or an axiomefs volume and all calls, by any
processes and with any arguments: after each call a lookup finds the mode and the owner that were
set last, exactly when each call met the condition. -/
theorem attributes_kept_iff (p : Place) (es : List Event) :
    (∀ pre, pre <+: es → Kept (pre.foldl exec (start p))) ↔
      ∀ pre e, pre ++ [e] <+: es → Stored (pre.foldl exec (start p)) e := by
  refine Runs.foldl_property_iff (fun s h => h) (fun s e h => (h.exec_iff e).mp)
    (fun s e h => (h.exec_iff e).mpr) ?_ es
  exact ⟨fun _ _ _ hm => (by cases hm), fun _ _ _ ho => (by cases ho)⟩

/-- A volume whose root directory, in block 5, has the file `a`, in block 7. -/
def oneFile : Volume where
  blocks b :=
    if b = 5 then appendExtent (newInode 5 .dir none) 6
    else if b = 6 then putDent zeroBlock 0 [97] 7 1
    else if b = 7 then newInode 7 .file none
    else zeroBlock
  totalBlocks := 16
  rootInodeBlock := 5
  freeBitmapBlock := 2
  transactionId := 2

/-- **A mode that is forgotten**: `chmod` succeeds, and the next lookup finds the mode of the
inode. -/
theorem chmod_forgotten :
    let p := Place.axiomefs oneFile ⟨0, 0, 0o755⟩ [97]
    let c : Cred := ⟨0, 0, 0, 0, 0, 0, .system, 0, 0, 0⟩
    vfsLookup p = some ⟨0, 0, 0o644⟩ ∧ (sysChmod p c 0o600).2 = 0 ∧
      vfsLookup (sysChmod p c 0o600).1 = some ⟨0, 0, 0o644⟩ := by
  decide +kernel

end AxiomeOS.Attributes
