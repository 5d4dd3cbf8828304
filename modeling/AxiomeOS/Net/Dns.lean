import Mathlib.Data.List.Basic

/-!
# The DNS resolver

`dns_encode_name` writes a host name as labels and `dns_skip_name` steps over an encoded name.  A
read outside the datagram is `none`.  An encoded name is stepped over exactly if it has at most 63
labels (`skip_encoded_iff`).
-/

namespace AxiomeOS.Dns

open List

/-! ### Names -/

/-- A label is refused if it is empty or too long, and else stands behind its length. -/
def putLabel (total : ℕ) (label : List UInt8) (rest : ℕ → Option (List UInt8)) :
    Option (List UInt8) :=
  if label = [] ∨ 63 < label.length ∨ 255 < total + 1 + label.length then none
  else (rest (total + 1 + label.length)).map fun out => UInt8.ofNat label.length :: label ++ out

/-- The loops of `dns_encode_name`; `label` is what stands between `p` and `dot`. -/
def encode : ℕ → List UInt8 → List UInt8 → Option (List UInt8)
  | total, label, [] => if label = [] then some [0] else putLabel total label fun _ => some [0]
  | total, label, c :: s =>
    if c = 46 then putLabel total label fun total => encode total [] s
    else encode total (label ++ [c]) s

def dnsEncodeName (name : List UInt8) : Option (List UInt8) := encode 0 [] name

/-- The loop of `dns_skip_name`, with `guard` rounds left; `off` is known from the first jump on. -/
def skipLoop (buf : List UInt8) : ℕ → ℕ → Option ℕ → Option (Option ℕ)
  | 0, _, _ => some none
  | guard + 1, pos, off =>
    if buf.length ≤ pos then some none
    else
      buf[pos]?.bind fun len =>
        if len = 0 then some (some (off.getD (pos + 1)))
        else if len &&& 0xC0 = 0xC0 then
          if buf.length ≤ pos + 1 then some none
          else
            buf[pos + 1]?.bind fun low =>
              skipLoop buf guard ((len &&& 0x3F).toNat * 256 + low.toNat)
                (some (off.getD (pos + 2)))
        else if len &&& 0xC0 = 0 then
          if buf.length ≤ pos + 1 + len.toNat then some none
          else skipLoop buf guard (pos + 1 + len.toNat) off
        else some none

def dnsSkipName (buf : List UInt8) (off : ℕ) : Option (Option ℕ) := skipLoop buf 64 off none

/-- The number of labels of a name; `inLabel` says whether one has begun. -/
def labels : Bool → List UInt8 → ℕ
  | inLabel, [] => inLabel.toNat
  | inLabel, c :: s => if c = 46 then inLabel.toNat + labels false s else labels true s

/-- `dns_skip_name` steps over the bytes `out`, wherever they stand, in `k` rounds and a last
one. -/
def Steps (out : List UInt8) (k : ℕ) : Prop :=
  out ≠ [] ∧ ∀ pre post guard, skipLoop (pre ++ out ++ post) guard pre.length none =
    some (if k < guard then some (pre.length + out.length) else none)

theorem steps_end : Steps [0] 0 := by
  refine ⟨by simp, fun pre post guard => ?_⟩
  cases guard with
  | zero => rfl
  | succ guard => simp [skipLoop]

theorem Steps.putLabel {total k : ℕ} {label out : List UInt8} {rest : ℕ → Option (List UInt8)}
    (hrest : ∀ total out, rest total = some out → Steps out k)
    (h : putLabel total label rest = some out) : Steps out (k + 1) := by
  rw [Dns.putLabel] at h
  split at h
  · cases h
  rename_i hlabel
  obtain ⟨out, hout, rfl⟩ := Option.map_eq_some_iff.mp h
  obtain ⟨hne, hsteps⟩ := hrest _ out hout
  refine ⟨by simp, fun pre post guard => ?_⟩
  have hpos : 0 < label.length := by
    rw [length_pos_iff]
    exact fun h => hlabel (.inl h)
  have hend := length_pos_of_ne_nil hne
  have hbits : ∀ n < 64, 0 < n → UInt8.ofNat n ≠ 0 ∧ UInt8.ofNat n &&& 0xC0 = 0 ∧
      (UInt8.ofNat n).toNat = n := by decide
  obtain ⟨hzero, hand, hnat⟩ := hbits label.length (by omega) hpos
  -- the round for the label leads to the bytes behind it
  cases guard with
  | zero => rfl
  | succ guard =>
    have hnext := hsteps (pre ++ UInt8.ofNat label.length :: label) post guard
    simp only [append_assoc, cons_append, length_append, length_cons] at hnext ⊢
    rw [skipLoop, if_neg (by simp), getElem?_append_right (Nat.le_refl _), Nat.sub_self,
      getElem?_cons_zero, Option.bind_some, if_neg hzero, hand, if_neg (by decide), if_pos rfl,
      hnat, if_neg (by simp; omega), Nat.add_assoc, Nat.add_comm 1, hnext]
    simp only [Nat.add_lt_add_iff_right, Nat.add_assoc]
    congr 4
    omega

theorem encode_steps {total : ℕ} {label s out : List UInt8} (h : encode total label s = some out) :
    Steps out (labels (label ≠ []) s) := by
  induction s generalizing total label out with
  | nil =>
    rw [encode] at h
    split at h
    case isTrue hl =>
      cases h
      simpa [labels, hl] using steps_end
    case isFalse hl =>
      have hlast := Steps.putLabel (fun _ out h => by cases h; exact steps_end) h
      simpa [labels, hl] using hlast
  | cons c s ih =>
    rw [encode] at h
    split at h
    case isTrue hc =>
      have hlabel : label ≠ [] := fun hl => by simp [putLabel, hl] at h
      have hput := Steps.putLabel (fun _ out h => ih h) h
      simpa [labels, hc, hlabel, Nat.add_comm 1] using hput
    case isFalse hc =>
      have hmore := ih h
      simpa [labels, hc] using hmore

/-- **An encoded name is stepped over** exactly if it has at most 63 labels. -/
theorem skip_encoded_iff (name enc : List UInt8) (h : dnsEncodeName name = some enc)
    (pre post : List UInt8) :
    dnsSkipName (pre ++ enc ++ post) pre.length = some (some (pre.length + enc.length)) ↔
      labels false name ≤ 63 := by
  rw [dnsSkipName, (encode_steps h).2]
  simp [Nat.lt_succ_iff]

/-- The name `a`. -/
theorem skip_encoded_iff_a : dnsEncodeName [97] = some [1, 97, 0] ∧
    dnsSkipName [1, 97, 0, 7] 0 = some (some 3) :=
  ⟨rfl, (skip_encoded_iff [97] [1, 97, 0] rfl [] [7]).mpr (by decide)⟩

/-- **64 labels are too many.**  The name `a.a. … .a` is encoded, and the encoding is refused. -/
theorem skip_refuses_labels :
    (dnsEncodeName (replicate 64 [97, 46]).flatten).map (fun enc => dnsSkipName (enc ++ [7]) 0) =
      some (some none) := by
  decide +kernel

end AxiomeOS.Dns
