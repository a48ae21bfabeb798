import Mathlib.Data.List.Zip

/-!
# Networks

Addresses and masks are words of bits with the most significant one first.  A mask picks the bits
that two addresses of one network have in common.
-/

namespace NextBSD.Netmask

def leading (n w : Nat) : List Bool := List.replicate (min n w) true ++ List.replicate (w - n) false

def masked (addr mask : List Bool) : List Bool := List.zipWith (· && ·) addr mask

theorem masked_append {addr mask : List Bool} (h : addr.length = mask.length)
    (addr' mask' : List Bool) :
    masked (addr ++ addr') (mask ++ mask') = masked addr mask ++ masked addr' mask' :=
  List.zipWith_append h

theorem leading_add (n v w : Nat) : leading n (v + w) = leading n v ++ leading (n - v) w := by
  unfold leading
  rcases Nat.le_total n v with h | h
  · have hmin : min n (v + w) = n ∧ min n v = n ∧ min (n - v) w = 0 := by omega
    have hrest : v + w - n = (v - n) + w ∧ w - (n - v) = w := by omega
    rw [hmin.1, hmin.2.1, hmin.2.2, hrest.1, hrest.2, List.replicate_add, List.replicate_zero,
      List.nil_append, List.append_assoc]
  · have hmin : min n (v + w) = v + min (n - v) w ∧ min n v = v ∧ v - n = 0 := by omega
    have hrest : v + w - n = w - (n - v) := by omega
    rw [hmin.1, hmin.2.1, hmin.2.2, hrest, List.replicate_add, List.replicate_zero,
      List.append_nil, List.append_assoc]

theorem leading_eq_map (n w : Nat) : leading n w = (List.range w).map fun i => decide (i < n) := by
  induction w with
  | zero =>
    unfold leading
    rw [Nat.min_zero, Nat.zero_sub]
    rfl
  | succ w ih =>
    have hlast : leading (n - w) 1 = [decide (w < n)] := by
      unfold leading
      by_cases h : w < n
      · have hone : min (n - w) 1 = 1 ∧ 1 - (n - w) = 0 := by omega
        rw [hone.1, hone.2, decide_eq_true h]
        rfl
      · have hzero : min (n - w) 1 = 0 ∧ 1 - (n - w) = 1 := by omega
        rw [hzero.1, hzero.2, decide_eq_false h]
        rfl
    rw [leading_add, ih, hlast, List.range_succ, List.map_append]
    rfl

theorem masked_masked (addr mask : List Bool) :
    masked (masked addr mask) mask = masked addr mask := by
  unfold masked
  induction addr generalizing mask with
  | nil => rfl
  | cons b addr ih =>
    cases mask with
    | nil => rfl
    | cons m mask =>
      rw [List.zipWith_cons_cons, List.zipWith_cons_cons, ih, Bool.and_assoc, Bool.and_self]

theorem masked_of_masked_eq {net addr mask : List Bool} (h : masked net mask = addr) :
    masked addr mask = addr := by
  rw [← h]
  exact masked_masked net mask

def bitsOf {w : Nat} (x : BitVec w) : List Bool := (List.range w).map x.getMsbD

theorem length_bitsOf {w : Nat} (x : BitVec w) : (bitsOf x).length = w := by
  unfold bitsOf
  rw [List.length_map, List.length_range]

theorem bitsOf_inj {w : Nat} {x y : BitVec w} : bitsOf x = bitsOf y ↔ x = y := by
  constructor
  · intro h
    refine BitVec.eq_of_getMsbD_eq fun i hi => ?_
    exact List.map_inj_left.mp h i (List.mem_range.mpr hi)
  · rintro rfl
    rfl

theorem bitsOf_and {w : Nat} (x y : BitVec w) : bitsOf (x &&& y) = masked (bitsOf x) (bitsOf y) := by
  unfold bitsOf masked
  rw [List.zipWith_map, List.zipWith_self]
  exact List.map_congr_left fun i _ => BitVec.getMsbD_and

theorem bitsOf_shiftLeft {n w : Nat} (h : n ≤ w) :
    bitsOf (BitVec.allOnes w <<< (w - n)) = leading n w := by
  rw [leading_eq_map]
  refine List.map_congr_left fun i hi => ?_
  have hlt := List.mem_range.mp hi
  rw [BitVec.getMsbD_shiftLeft, BitVec.getMsbD_allOnes]
  exact decide_eq_decide.mpr (by omega)

def bytesBits (bytes : List UInt8) : List Bool := bytes.flatMap fun b => bitsOf b.toBitVec

theorem bytesBits_cons (b : UInt8) (bytes : List UInt8) :
    bytesBits (b :: bytes) = bitsOf b.toBitVec ++ bytesBits bytes := List.flatMap_cons

theorem bytesBits_inj {bytes bytes' : List UInt8} (h : bytes.length = bytes'.length) :
    bytesBits bytes = bytesBits bytes' ↔ bytes = bytes' := by
  constructor
  · intro heq
    induction bytes generalizing bytes' with
    | nil => exact (List.eq_nil_of_length_eq_zero h.symm).symm
    | cons b bytes ih =>
      cases bytes' with
      | nil => exact absurd h (Nat.succ_ne_zero _)
      | cons b' bytes' =>
        rw [bytesBits_cons, bytesBits_cons] at heq
        obtain ⟨hb, hrest⟩ := List.append_inj heq (by rw [length_bitsOf, length_bitsOf])
        rw [UInt8.toBitVec_inj.mp (bitsOf_inj.mp hb), ih (Nat.succ.inj h) hrest]
  · rintro rfl
    rfl

theorem bytesBits_and {addr mask : List UInt8} (h : addr.length = mask.length) :
    bytesBits (List.zipWith (· &&& ·) addr mask) = masked (bytesBits addr) (bytesBits mask) := by
  induction addr generalizing mask with
  | nil =>
    obtain rfl := List.eq_nil_of_length_eq_zero h.symm
    rfl
  | cons a addr ih =>
    cases mask with
    | nil => exact absurd h (Nat.succ_ne_zero _)
    | cons m mask =>
      have hlength : (bitsOf a.toBitVec).length = (bitsOf m.toBitVec).length := by
        rw [length_bitsOf, length_bitsOf]
      rw [List.zipWith_cons_cons, bytesBits_cons, bytesBits_cons, bytesBits_cons,
        masked_append hlength, ih (Nat.succ.inj h), UInt8.toBitVec_and, bitsOf_and]

end NextBSD.Netmask
