import Mathlib.Data.List.Infix

/-!
# Blocks of memory

A block has a number of allocated bytes.  Reading or writing outside of them is `none`.
-/

namespace NextBSD

structure Block where
  allocated : Nat
  byte : Nat → UInt8

namespace Block

def bytes (b : Block) (pos n : Nat) : List UInt8 := (List.range n).map (fun i => b.byte (pos + i))

def read (b : Block) (pos n : Nat) : Option (List UInt8) :=
  if pos + n ≤ b.allocated then some (b.bytes pos n) else none

def overwrite (b : Block) (pos : Nat) (data : List UInt8) : Block :=
  { b with
    byte := fun i =>
      if pos ≤ i ∧ i < pos + data.length then data.getD (i - pos) 0 else b.byte i }

def write (b : Block) (pos : Nat) (data : List UInt8) : Option Block :=
  if pos + data.length ≤ b.allocated then some (b.overwrite pos data) else none

variable {b : Block} {pos n k : Nat} {data : List UInt8}

theorem length_bytes (b : Block) (pos n : Nat) : (b.bytes pos n).length = n := by
  unfold bytes
  rw [List.length_map, List.length_range]

theorem getElem?_bytes {i : Nat} (h : i < n) : (b.bytes pos n)[i]? = some (b.byte (pos + i)) := by
  unfold bytes
  rw [List.getElem?_map, List.getElem?_range h]
  rfl

theorem bytes_add (b : Block) (pos n k : Nat) :
    b.bytes pos (n + k) = b.bytes pos n ++ b.bytes (pos + n) k := by
  unfold bytes
  rw [List.range_add, List.map_append, List.map_map]
  congr 1
  refine List.map_congr_left (fun i _ => ?_)
  show b.byte (pos + (n + i)) = b.byte (pos + n + i)
  rw [Nat.add_assoc]

theorem bytes_overwrite_before (h : pos + n ≤ k) :
    (b.overwrite k data).bytes pos n = b.bytes pos n := by
  unfold bytes
  refine List.map_congr_left (fun i hi => ?_)
  have hlt := List.mem_range.mp hi
  exact if_neg (by omega)

theorem bytes_overwrite_self (b : Block) (pos : Nat) (data : List UInt8) :
    (b.overwrite pos data).bytes pos data.length = data := by
  refine List.ext_getElem? (fun i => ?_)
  by_cases hi : i < data.length
  · rw [getElem?_bytes hi, List.getElem?_eq_getElem hi]
    show some (if pos ≤ pos + i ∧ pos + i < pos + data.length then _ else _) = _
    rw [if_pos (by omega), Nat.add_sub_cancel_left, List.getD_eq_getElem?_getD,
      List.getElem?_eq_getElem hi]
    rfl
  · have hlength := length_bytes (b.overwrite pos data) pos data.length
    rw [List.getElem?_eq_none (by omega), List.getElem?_eq_none (by omega)]

theorem bytes_overwrite_after (h : k + data.length ≤ pos) :
    (b.overwrite k data).bytes pos n = b.bytes pos n := by
  unfold bytes
  refine List.map_congr_left (fun i _ => ?_)
  exact if_neg (by omega)

theorem bytes_foldl_overwrite {writes : List (Nat × List UInt8)} {w : Nat × List UInt8}
    (hw : w ∈ writes ∨ b.bytes w.1 w.2.length = w.2)
    (happart : ∀ v ∈ writes, v = w ∨ v.1 + v.2.length ≤ w.1 ∨ w.1 + w.2.length ≤ v.1) :
    (writes.foldl (fun b v => b.overwrite v.1 v.2) b).bytes w.1 w.2.length = w.2 := by
  induction writes generalizing b with
  | nil => exact hw.resolve_left List.not_mem_nil
  | cons v writes ih =>
    have htail := fun u hu => happart u (List.mem_cons_of_mem _ hu)
    rw [List.foldl_cons]
    by_cases hv : v = w
    · rw [hv]
      exact ih (.inr (bytes_overwrite_self b w.1 w.2)) htail
    · refine ih (hw.imp (fun hm => (List.mem_cons.mp hm).resolve_left (Ne.symm hv)) fun hb => ?_)
        htail
      rcases (happart v List.mem_cons_self).resolve_left hv with hafter | hbefore
      · exact (bytes_overwrite_after hafter).trans hb
      · exact (bytes_overwrite_before hbefore).trans hb

theorem drop_bytes (b : Block) (pos n k : Nat) :
    (b.bytes pos n).drop k = b.bytes (pos + k) (n - k) := by
  rcases Nat.le_total k n with hle | hle
  · obtain ⟨m, rfl⟩ := Nat.exists_eq_add_of_le hle
    rw [bytes_add, List.drop_left' (length_bytes b pos k), Nat.add_sub_cancel_left]
  · rw [Nat.sub_eq_zero_of_le hle]
    exact List.drop_eq_nil_of_le (by rw [length_bytes]; exact hle)

theorem take_bytes (b : Block) (pos : Nat) (h : k ≤ n) : (b.bytes pos n).take k = b.bytes pos k := by
  obtain ⟨m, rfl⟩ := Nat.exists_eq_add_of_le h
  rw [bytes_add, List.take_left' (length_bytes b pos k)]

theorem read_eq_some (h : pos + n ≤ b.allocated) : b.read pos n = some (b.bytes pos n) := if_pos h

theorem write_eq_some (h : pos + data.length ≤ b.allocated) :
    b.write pos data = some (b.overwrite pos data) := if_pos h

end Block
end NextBSD
