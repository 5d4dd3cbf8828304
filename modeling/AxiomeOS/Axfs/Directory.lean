import AxiomeOS.Axfs.Owned
import Mathlib.Data.List.Find
import Mathlib.Data.List.TakeWhile

/-!
# axiomefs: directories as lists of entries

A directory search visits fifteen slots in each data block and stops at the first live entry with
the wanted name.  For names without a zero byte, which all C strings are, the comparison by
`strncmp` and length is equality of names (`dentMatches_iff`), so a search is a first match in the
list of the names of the live entries.

* `putDent` writes one slot: that slot then carries the name and the inode number, and every other
  slot of the block is as before;
* `components_split` — the components of a path are those of the path before its last slash and
  the last component.
-/

namespace AxiomeOS.Axfs

open Bytes List

/-! ### One entry -/

/-- The inode number of entry `i` of a block. -/
def dentInode (blk : Block) (i : ℕ) : ℕ := (Dent.inodeId i).get blk

/-- The name of entry `i` of a block, `namelen` bytes. -/
def dentName (blk : Block) (i : ℕ) : List UInt8 :=
  (List.range ((Dent.namelen i).get blk)).map fun j => blk (Dent.name i + j)

theorem dentName_length (blk : Block) (i : ℕ) :
    (dentName blk i).length = (Dent.namelen i).get blk := by
  rw [dentName, length_map, length_range]

/-- Comparing up to a length at which the second string has not ended is comparing bytes. -/
theorem strncmpZero_iff {a b : ℕ → UInt8} (n i : ℕ) (hb : ∀ j, j < n → b (i + j) ≠ 0) :
    strncmpZero a b i n = true ↔ ∀ j, j < n → a (i + j) = b (i + j) := by
  induction n generalizing i with
  | zero => exact ⟨fun _ j hj => absurd hj (Nat.not_lt_zero j), fun _ => rfl⟩
  | succ n ih =>
    have hshift : ∀ j, i + 1 + j = i + (j + 1) := fun j => by omega
    have hrest := ih (i + 1) fun j hj => by rw [hshift]; exact hb (j + 1) (by omega)
    rw [strncmpZero]
    by_cases hne : a i = b i
    · have hb0 : b i ≠ 0 := hb 0 (Nat.succ_pos n)
      rw [if_neg (not_not_intro hne), if_neg (by rw [hne]; exact hb0), hrest]
      constructor
      · intro h j hj
        cases j with
        | zero => exact hne
        | succ j => rw [← hshift]; exact h j (by omega)
      · intro h j hj
        rw [hshift]
        exact h (j + 1) (by omega)
    · rw [if_pos hne]
      exact ⟨nofun, fun h => absurd (h 0 (Nat.succ_pos n)) hne⟩

variable {name p relpath : List UInt8} {b b' : Block} {i : ℕ} {α : Type}

/-- **A directory search compares names.** -/
theorem dentMatches_iff (hz : (0 : UInt8) ∉ name) (blk : Block) (i : ℕ) :
    dentMatches name blk i = true ↔
      dentInode blk i ≠ 0 ∧ name ≠ [] ∧ dentName blk i = name := by
  have hbyte : ∀ j, j < name.length → nameByte name (0 + j) ≠ 0 := by
    intro j hj h
    rw [Nat.zero_add, nameByte, getD_eq_getElem?_getD, getElem?_eq_getElem hj] at h
    exact hz (h ▸ getElem_mem hj)
  have hname : (∀ j, j < name.length → blk (Dent.name i + (0 + j)) = nameByte name (0 + j)) ↔
      (range name.length).map (fun j => blk (Dent.name i + j)) = name := by
    constructor
    · intro h
      apply ext_getElem
      · rw [length_map, length_range]
      · intro j h1 h2
        have := h j h2
        rw [Nat.zero_add, nameByte, getD_eq_getElem?_getD, getElem?_eq_getElem h2] at this
        rw [getElem_map, getElem_range, this]
        rfl
    · intro h j hj
      rw [Nat.zero_add, nameByte, getD_eq_getElem?_getD, ← h, getElem?_map, getElem?_range hj]
      rfl
  by_cases hlen : (Dent.namelen i).get blk = name.length
  · rw [dentMatches, hlen]
    simp only [Bool.and_eq_true, decide_eq_true_eq, and_true]
    rw [strncmpZero_iff name.length 0 hbyte, dentName, hlen, hname, ne_eq name.length,
      length_eq_zero_iff, and_assoc]
    rfl
  · constructor
    · intro h
      simp only [dentMatches, Bool.and_eq_true, decide_eq_true_eq] at h
      exact absurd h.2 hlen
    · rintro ⟨-, -, h⟩
      rw [← h, dentName_length] at hlen
      exact absurd rfl hlen

/-! ### Writing one entry -/

theorem namelen_put (hname : name.length < 256) (slot : ℕ) (b : Block) :
    (Dent.namelen slot).get ((Dent.namelen slot).put name.length b) = name.length :=
  Field.get_put _ b hname

theorem putDent_outside (nb : Block) {slot : ℕ} (hname : name.length < 256)
    (child type : ℕ) {j : ℕ} (hj : j < 264 * slot ∨ 264 * (slot + 1) ≤ j) :
    putDent nb slot name child type j = nb j := by
  rw [putDent, namelen_put hname, blit_apply_of_outside _ _ _ _ (by simp only [Dent.name]; omega),
    Field.put_apply_of_outside _ _ _ (by simp only [Dent.namelen]; omega),
    Field.put_apply_of_outside _ _ _ (by simp only [Dent.type]; omega),
    Field.put_apply_of_outside _ _ _ (by simp only [Dent.inodeId]; omega)]

theorem dentInode_congr (h : ∀ j, 264 * i ≤ j → j < 264 * (i + 1) → b j = b' j) :
    dentInode b i = dentInode b' i := by
  refine Field.get_congr _ fun j h1 h2 => h j ?_ ?_ <;> simp only [Dent.inodeId] at h1 h2 <;> omega

theorem dentName_congr (h : ∀ j, 264 * i ≤ j → j < 264 * (i + 1) → b j = b' j) :
    dentName b i = dentName b' i := by
  have hlen : (Dent.namelen i).get b = (Dent.namelen i).get b' :=
    Field.get_congr _ fun j h1 h2 => h j (by simp only [Dent.namelen] at h1 h2; omega)
      (by simp only [Dent.namelen] at h1 h2; omega)
  have hlt : (Dent.namelen i).get b' < 256 := Field.get_lt _ _
  rw [dentName, dentName, hlen]
  refine map_congr_left fun j hj => h _ ?_ ?_ <;>
    rw [mem_range] at hj <;> simp only [Dent.name] <;> omega

section PutDent

variable (nb : Block) (slot : ℕ) {name : List UInt8} (hname : name.length < 256) (type : ℕ)

include hname

theorem dentInode_putDent {child : ℕ} (hc : child < 2 ^ 32) :
    dentInode (putDent nb slot name child type) slot = child := by
  have hd1 : (Dent.type slot).Disjoint (Dent.inodeId slot) := by
    simp only [Field.Disjoint, Dent.type, Dent.inodeId]
    omega
  have hd2 : (Dent.namelen slot).Disjoint (Dent.inodeId slot) := by
    simp only [Field.Disjoint, Dent.namelen, Dent.inodeId]
    omega
  rw [dentInode, putDent, namelen_put hname, Field.get_blit_of_disjoint _ _ _ _ _
    (by simp only [Dent.inodeId, Dent.name]; omega), Field.get_put_of_disjoint _ _ hd2,
    Field.get_put_of_disjoint _ _ hd1, Field.get_put _ _ hc]

theorem dentName_putDent (child : ℕ) : dentName (putDent nb slot name child type) slot = name := by
  have hget : (Dent.namelen slot).get (putDent nb slot name child type) = name.length := by
    rw [putDent, namelen_put hname, Field.get_blit_of_disjoint _ _ _ _ _
      (by simp only [Dent.namelen, Dent.name]; omega), namelen_put hname]
  rw [dentName, hget, putDent, namelen_put hname]
  apply ext_getElem
  · rw [length_map, length_range]
  · intro j h1 h2
    rw [getElem_map, getElem_range, blit_apply_of_inside _ _ _ _ (by omega) (by omega),
      Nat.add_sub_cancel_left, nameByte, getD_eq_getElem?_getD, getElem?_eq_getElem h2]
    rfl

end PutDent

theorem dentInode_zeroBlock (i : ℕ) : dentInode zeroBlock i = 0 := by
  have h := Field.get_put_mod (Dent.inodeId i) 0 zeroBlock
  have hput : (Dent.inodeId i).put 0 zeroBlock = zeroBlock := by
    funext j
    simp only [Field.put, setLe, Nat.zero_div]
    split <;> rfl
  rw [hput] at h
  exact h

/-! ### Searching a directory -/

theorem mem_slots {n : ℕ} {s : ℕ × ℕ} : s ∈ slots n ↔ s.1 < n ∧ s.2 < 15 := by
  obtain ⟨e, i⟩ := s
  simp only [slots, mem_flatMap, mem_map, mem_range, Prod.mk.injEq]
  constructor
  · rintro ⟨e', he, i', hi, rfl, rfl⟩
    exact ⟨he, hi⟩
  · rintro ⟨he, hi⟩
    exact ⟨e, he, i, hi, rfl, rfl⟩

theorem slots_succ (n : ℕ) : slots (n + 1) = slots n ++ (range 15).map fun i => (n, i) := by
  rw [slots, slots, range_succ (n := n), flatMap_append, flatMap_singleton]

theorem scanDir_eq (v : Volume) (di : Block) (p : Block → ℕ → Bool) :
    scanDir v di p = (slots (count di)).find? fun s => p (v.blocks (extent di s.1)) s.2 := rfl

/-- Entry `i` of data block `e` of a directory is live and called `name`. -/
def slotMatches (v : Volume) (di : Block) (name : List UInt8) (s : ℕ × ℕ) : Bool :=
  dentMatches name (v.blocks (extent di s.1)) s.2

theorem findEntry_eq (v : Volume) (di : Block) (name : List UInt8) :
    findEntry v di name = ((slots (count di)).find? (slotMatches v di name)).map fun s =>
      dentInode (v.blocks (extent di s.1)) s.2 := rfl

theorem findEntry_congr {v v' : Volume} {di di' : Block} (hcount : count di' = count di)
    (h : ∀ s ∈ slots (count di), slotMatches v' di' name s = slotMatches v di name s ∧
      (slotMatches v di name s = true → dentInode (v'.blocks (extent di' s.1)) s.2 =
      dentInode (v.blocks (extent di s.1)) s.2)) : findEntry v' di' name = findEntry v di name := by
  have hfind : (slots (count di)).find? (slotMatches v' di' name) =
      (slots (count di)).find? (slotMatches v di name) :=
    find?_congr fun s hs => (h s hs).1
  rw [findEntry_eq, findEntry_eq, hcount, hfind]
  refine Option.map_congr fun s hs => ?_
  exact (h s (mem_of_find?_eq_some hs)).2 (find?_some hs)

/-- A first match, when one more element passes the test. -/
theorem find?_of_one [DecidableEq α] {p p' : α → Bool} {x : α} (hx : p' x = true)
    (l : List α) (h : ∀ y ∈ l, y ≠ x → p' y = p y) (hmem : x ∈ l) :
    l.find? p' = some x ∨ (l.find? p' = l.find? p ∧ l.find? p ≠ none) := by
  induction l with
  | nil => cases hmem
  | cons y l ih =>
    by_cases hy : y = x
    · left
      rw [hy, find?_cons, hx]
    · have hmem' : x ∈ l := (mem_cons.mp hmem).resolve_left (Ne.symm hy)
      have hsame := h y (mem_cons_self ..) hy
      rw [find?_cons, find?_cons, hsame]
      cases p y with
      | true => exact .inr ⟨rfl, by simp⟩
      | false => exact ih (fun z hz => h z (mem_cons_of_mem y hz)) hmem'

/-! ### Paths -/

theorem segments_append_slash (p q seg : List UInt8) :
    segments seg (p ++ slash :: q) = segments seg p ++ segments [] q := by
  induction p generalizing seg with
  | nil =>
    rw [nil_append, segments.eq_2, if_pos rfl, segments.eq_1]
    split <;> rfl
  | cons c p ih =>
    rw [cons_append, segments, segments, ih, ih]
    split
    · split <;> rfl
    · rfl

theorem segments_of_not_mem (h : slash ∉ p) :
    ∀ seg, segments seg p = if seg ++ p = [] then [] else [seg ++ p] := by
  induction p with
  | nil => intro seg; rw [append_nil, segments]
  | cons c p ih =>
    intro seg
    rw [mem_cons, not_or] at h
    rw [segments, if_neg (Ne.symm h.1), ih h.2, append_assoc, singleton_append]

theorem slash_not_mem_baseName (p : List UInt8) : slash ∉ baseName p := by
  intro h
  rw [baseName, mem_reverse] at h
  have := mem_takeWhile_imp h
  simp at this

/-- The components of the path before the last slash, none of them cut short. -/
def fullParent (relpath : List UInt8) : List (List UInt8) :=
  match parentPath relpath with
  | none => []
  | some p => components p

/-- A path is the path before its last slash, the slash, and its last component. -/
theorem parentPath_append (h : parentPath relpath = some p) :
    relpath = p ++ slash :: baseName relpath := by
  unfold parentPath at h
  split at h
  case isFalse => cases h
  case isTrue hmem =>
    cases h
    have hsplit := takeWhile_append_dropWhile (p := (· ≠ slash)) (l := relpath.reverse)
    have hne : relpath.reverse.dropWhile (· ≠ slash) ≠ [] := by
      intro hnil
      rw [dropWhile_eq_nil_iff] at hnil
      have := hnil slash (mem_reverse.mpr hmem)
      simp at this
    obtain ⟨c, rest, hrest⟩ := exists_cons_of_ne_nil hne
    have hc : c = slash := by
      have := head_dropWhile_not (fun x => decide (x ≠ slash)) hne
      simp only [hrest, head_cons, decide_eq_false_iff_not, not_not] at this
      exact this
    have hrev := congrArg reverse hsplit
    rw [hrest, hc, reverse_append, reverse_reverse, reverse_cons] at hrev
    rw [hrest, drop_one, tail_cons, baseName]
    simpa using hrev.symm

theorem baseName_of_parentPath_none (h : parentPath relpath = none) :
    baseName relpath = relpath ∧ slash ∉ relpath := by
  unfold parentPath at h
  split at h
  case isTrue => cases h
  case isFalse hmem =>
    refine ⟨?_, hmem⟩
    rw [baseName, takeWhile_eq_self_iff.mpr, reverse_reverse]
    intro c hc
    have : c ≠ slash := fun heq => hmem (heq ▸ mem_reverse.mp hc)
    simpa using this

/-- **The components of a path**: those of the path before its last slash, and its last one. -/
theorem components_split (h : baseName relpath ≠ []) :
    components relpath = fullParent relpath ++ [(baseName relpath).take maxName] := by
  have hbase := segments_of_not_mem (slash_not_mem_baseName relpath) []
  rw [nil_append, if_neg h] at hbase
  unfold fullParent
  cases hp : parentPath relpath with
  | none =>
    obtain ⟨hself, -⟩ := baseName_of_parentPath_none hp
    rw [hself] at hbase ⊢
    rw [components, hbase]
    rfl
  | some p =>
    show components relpath = components p ++ _
    rw [components, components, parentPath_append hp, segments_append_slash, map_append,
      ← parentPath_append hp, hbase]
    rfl

/-- Components are cut to `MAX_NAME` bytes, are not empty, and have no byte the path has not. -/
theorem mem_components {c : List UInt8} (h : c ∈ components p) :
    c.length < 256 ∧ ∀ x ∈ c, x ∈ p := by
  have hseg : ∀ (p seg c : List UInt8), c ∈ segments seg p → ∀ x ∈ c, x ∈ seg ∨ x ∈ p := by
    intro p
    induction p with
    | nil =>
      intro seg c hc x hx
      rw [segments] at hc
      split at hc
      · cases hc
      · rw [mem_singleton.mp hc] at hx
        exact .inl hx
    | cons d p ih =>
      intro seg c hc x hx
      have hrest : ∀ seg', c ∈ segments seg' p → (∀ y ∈ seg', y ∈ seg ∨ y ∈ d :: p) →
          x ∈ seg ∨ x ∈ d :: p := by
        intro seg' hc' hsub
        rcases ih seg' c hc' x hx with h | h
        · exact hsub x h
        · exact .inr (mem_cons_of_mem d h)
      rw [segments] at hc
      split at hc
      · split at hc
        · exact hrest [] hc (nofun)
        · rcases mem_cons.mp hc with rfl | hc
          · exact .inl hx
          · exact hrest [] hc (nofun)
      · refine hrest _ hc fun y hy => ?_
        rcases mem_append.mp hy with hy | hy
        · exact .inl hy
        · exact .inr (by rw [mem_singleton.mp hy]; exact mem_cons_self ..)
  obtain ⟨seg, hmem, rfl⟩ := mem_map.mp h
  refine ⟨?_, fun x hx => ?_⟩
  · rw [length_take]
    have : maxName = 255 := rfl
    omega
  · rcases hseg p [] seg hmem x (mem_of_mem_take hx) with h | h
    · cases h
    · exact h

end AxiomeOS.Axfs
