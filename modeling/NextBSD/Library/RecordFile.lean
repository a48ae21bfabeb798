import Mathlib.Data.List.Basic
import Mathlib.Data.List.Flatten

/-!
# Files of records of one size

A file is a list of bytes.  Where every record takes `size` bytes, a read or a write at a
multiple of `size` is a read or a write of one record of a list.
-/

namespace NextBSD.RecordFile

universe u v

variable {α : Type u} {β : Type v}

def pread (file : List β) (offset n : Nat) : List β := (file.drop offset).take n

def pwrite (zero : β) (file : List β) (offset : Nat) (bytes : List β) : List β :=
  file.take offset ++ List.replicate (offset - file.length) zero ++ bytes ++
    file.drop (offset + bytes.length)

theorem length_pwrite (zero : β) {file : List β} {offset : Nat} {bytes : List β}
    (h : offset + bytes.length ≤ file.length) :
    (pwrite zero file offset bytes).length = file.length := by
  unfold pwrite
  simp only [List.length_append, List.length_take, List.length_replicate, List.length_drop]
  omega

theorem length_pread (file : List β) (offset n : Nat) :
    (pread file offset n).length = min n (file.length - offset) := by
  unfold pread
  rw [List.length_take, List.length_drop]

def layOut (encode : α → List β) (records : List α) : List β := records.flatMap encode

variable {encode : α → List β} {size : Nat}

theorem length_layOut (hsize : ∀ a, (encode a).length = size) (records : List α) :
    (layOut encode records).length = records.length * size := by
  induction records with
  | nil => rw [List.length_nil, Nat.zero_mul]; rfl
  | cons a records ih =>
    show (encode a ++ layOut encode records).length = (records.length + 1) * size
    rw [List.length_append, hsize, ih, Nat.succ_mul, Nat.add_comm]

theorem drop_layOut (hsize : ∀ a, (encode a).length = size) (records : List α) (k : Nat) :
    (layOut encode records).drop (k * size) = layOut encode (records.drop k) := by
  induction k generalizing records with
  | zero => rw [Nat.zero_mul, List.drop_zero, List.drop_zero]
  | succ k ih =>
    cases records with
    | nil => rw [List.drop_nil]; exact List.drop_nil
    | cons a records =>
      show (encode a ++ layOut encode records).drop ((k + 1) * size) = _
      rw [Nat.succ_mul, Nat.add_comm, ← List.drop_drop, ← hsize a, List.drop_left, hsize a]
      exact ih records

theorem take_layOut (hsize : ∀ a, (encode a).length = size) (records : List α) (k : Nat) :
    (layOut encode records).take (k * size) = layOut encode (records.take k) := by
  induction k generalizing records with
  | zero => rw [Nat.zero_mul, List.take_zero, List.take_zero]; rfl
  | succ k ih =>
    cases records with
    | nil => rw [List.take_nil]; exact List.take_nil
    | cons a records =>
      show (encode a ++ layOut encode records).take ((k + 1) * size) =
        encode a ++ layOut encode (records.take k)
      rw [Nat.succ_mul, Nat.add_comm, ← hsize a, List.take_length_add_append, hsize a, ih records]

theorem pread_layOut (hsize : ∀ a, (encode a).length = size) (records : List α) (k : Nat) :
    pread (layOut encode records) (k * size) size = (records[k]?.map encode).getD [] := by
  unfold pread
  rw [drop_layOut hsize, ← List.head?_drop]
  cases records.drop k with
  | nil => exact List.take_nil
  | cons a rest =>
    show (encode a ++ layOut encode rest).take size = encode a
    rw [← hsize a, List.take_left]

theorem pwrite_layOut (zero : β) (hsize : ∀ a, (encode a).length = size) {records : List α}
    {k : Nat} (hk : k ≤ records.length) (a : α) :
    pwrite zero (layOut encode records) (k * size) (encode a) =
      layOut encode (records.take k ++ a :: records.drop (k + 1)) := by
  have hgap : k * size - (layOut encode records).length = 0 := by
    rw [length_layOut hsize]
    exact Nat.sub_eq_zero_of_le (Nat.mul_le_mul_right size hk)
  unfold pwrite
  rw [hgap, hsize a, ← Nat.succ_mul, take_layOut hsize, drop_layOut hsize]
  simp [layOut]

theorem pwrite_set (zero : β) (hsize : ∀ a, (encode a).length = size) {records : List α}
    {k : Nat} (hk : k < records.length) (a : α) :
    pwrite zero (layOut encode records) (k * size) (encode a) =
      layOut encode (records.set k a) := by
  rw [pwrite_layOut zero hsize (Nat.le_of_lt hk), List.set_eq_take_append_cons_drop, if_pos hk]

theorem pwrite_append (zero : β) (hsize : ∀ a, (encode a).length = size) (records : List α)
    (a : α) :
    pwrite zero (layOut encode records) (records.length * size) (encode a) =
      layOut encode (records ++ [a]) := by
  rw [pwrite_layOut zero hsize (Nat.le_refl _), List.take_length,
    List.drop_of_length_le (Nat.le_succ _)]

end NextBSD.RecordFile
