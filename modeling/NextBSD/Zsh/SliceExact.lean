import NextBSD.Zsh.Slice

/-!
# When an assignment to a slice is a splice

A string is metafied, and a subscript becomes an offset into it.  Where the offset is that of the
byte which is meant, the assignment is a splice.
-/

namespace NextBSD.Zsh.Slice

open Padding (int ztrlen ztrlen_metafy)

/-! ## Strings -/

def place (x : Bytes) (r : Int) : Int :=
  if 0 < r then offset x r.toNat + (r.toNat - x.length : Nat)
  else if r = 0 then 0
  else if x.length + r < 0 then r - (metafy x).length
  else offset x (x.length + r).toNat - (metafy x).length

def Splits (x : Bytes) (j : Int) : Prop :=
  j < 0 ∧ 0 ≤ x.length + j ∧ imeta (x.getD (x.length + j).toNat 0) = true

instance (x : Bytes) (j : Int) : Decidable (Splits x j) := inferInstanceAs (Decidable (_ ∧ _))

section

variable {x w : Bytes} {i j : Int} {kshzerosubscript : Bool}

theorem getargScalar_r (x : Bytes) (r : Int) : (getargScalar (metafy x) r).r = place x r := by
  unfold getargScalar place
  rw [ztrlen_metafy]
  by_cases hpos : 0 < r
  · obtain ⟨hrest, hleft⟩ := overChars_metafy x r.toNat 1
    have hlength := length_drop_offset x r.toNat
    rw [if_pos hpos, if_pos hpos]
    dsimp only
    rw [hrest, hleft]
    omega
  · by_cases hzero : r = 0
    · rw [if_neg hpos, if_neg hpos, if_pos hzero, if_pos hzero]
    · rw [if_neg hpos, if_neg hpos, if_neg hzero, if_neg hzero]
      dsimp only
      by_cases hneg : (x.length : Int) + r < 0
      · rw [if_pos hneg, if_pos hneg]
      · have hrest := (overChars_metafy x (x.length + r).toNat 1).1
        have hlength := length_drop_offset x (x.length + r).toNat
        rw [if_neg hneg, if_neg hneg]
        dsimp only
        rw [hrest]
        omega

theorem getargScalar_prev (x : Bytes) {r : Int} (h : 0 < r) :
    place x r - (getargScalar (metafy x) r).prevcharlen =
      offset x (r - 1).toNat + ((r - 1).toNat - x.length : Nat) := by
  unfold getargScalar place
  rw [if_pos h, if_pos h]
  obtain ⟨-, hleft⟩ := overChars_metafy x r.toNat 1
  have hlast := @overChars_last x (r.toNat - 1) 1
  rw [show r.toNat - 1 + 1 = r.toNat by omega] at hlast
  generalize overChars (metafy x) r.toNat 1 = loop at hleft hlast ⊢
  obtain ⟨t, nchars, lastcharlen⟩ := loop
  dsimp only at hleft hlast ⊢
  rw [hleft, show (r - 1).toNat = r.toNat - 1 by omega]
  by_cases hin : r.toNat ≤ x.length
  · have hlast := hlast (by omega)
    rw [if_pos (by omega)]
    omega
  · rw [if_neg (by omega), offset_all (x := x) (k := r.toNat) (by omega),
      offset_all (x := x) (k := r.toNat - 1) (by omega)]
    omega

theorem place_pos (h : 0 < i) : 0 < place x i := by
  unfold place
  rw [if_pos h]
  by_cases hin : i.toNat ≤ x.length
  · have hlt := offset_lt x (k := 0) (m := i.toNat) (by omega) hin
    omega
  · omega

theorem place_neg (h : i < 0) : place x i < 0 := by
  unfold place
  rw [if_neg (by omega), if_neg (by omega)]
  split_ifs with hout
  · omega
  · have hlt := offset_lt x (k := (x.length + i).toNat) (m := x.length) (by omega) (Nat.le_refl _)
    rw [offset_all (Nat.le_refl _)] at hlt
    omega

theorem startOffset_of_nonneg (zlen : Nat) {start : Int} (h : 0 ≤ start) :
    startOffset zlen start = min zlen start.toNat := by
  unfold startOffset
  dsimp only
  rw [if_neg (show ¬start < 0 by omega)]
  split_ifs <;> omega

theorem startOffset_of_neg (zlen : Nat) {start : Int} (h : start < 0) :
    startOffset zlen start = (start + zlen).toNat := by
  unfold startOffset
  dsimp only
  rw [if_pos h]
  split_ifs <;> omega

theorem endOffset_of_nonneg (zlen : Nat) {stop : Int} (h : 0 ≤ stop) :
    endOffset zlen stop = min zlen stop.toNat := by
  unfold endOffset
  rw [if_neg (by omega)]
  split_ifs <;> omega

theorem endOffset_of_neg (zlen : Nat) {stop : Int} (h : stop < 0) :
    endOffset zlen stop = if stop + zlen < 0 then 0 else (stop + zlen).toNat + 1 := by
  unfold endOffset
  dsimp only
  rw [if_pos h]
  split_ifs <;> omega

theorem place_of_in (hj : j < 0) (hin : 0 ≤ x.length + j) :
    place x j = offset x (x.length + j).toNat - (metafy x).length := by
  unfold place
  rw [if_neg (by omega), if_neg (by omega), if_neg (by omega)]

theorem place_of_out (hj : j < 0) (hout : x.length + j < 0) :
    place x j = j - (metafy x).length := by
  unfold place
  rw [if_neg (by omega), if_neg (by omega), if_pos hout]

theorem place_of_pos (hj : 0 < j) :
    place x j = offset x j.toNat + (j.toNat - x.length : Nat) := if_pos hj

theorem getindex_start (hne : i ≠ 0) (hi : int (place x i) = place x i) (r : Int) :
    ∃ start, getindex kshzerosubscript (getargScalar (metafy x) i) r =
        some { start := start, stop := int r } ∧
      startOffset (metafy x).length start = offset x (before x.length i) ∧
      (start = 0 ↔ i = 1) := by
  unfold getindex
  rw [getargScalar_r, hi]
  dsimp only
  rcases lt_or_gt_of_ne hne with hneg | hpos
  · have hplace := place_neg (x := x) hneg
    have hbefore : before x.length i = (x.length + i).toNat := by
      unfold before
      rw [if_neg (by omega)]
    rw [if_neg (by omega), if_neg (by omega)]
    refine ⟨place x i, rfl, ?_, by omega⟩
    rw [startOffset_of_neg _ hplace, hbefore]
    by_cases hin : 0 ≤ x.length + i
    · rw [place_of_in hneg hin]
      omega
    · rw [place_of_out hneg (by omega), show (x.length + i).toNat = 0 by omega, offset_zero]
      omega
  · have hplace := place_pos (x := x) hpos
    have hprev := getargScalar_prev x hpos
    have hbefore : before x.length i = (i - 1).toNat := by
      unfold before
      rw [if_pos (by omega)]
    have hle := offset_le x (i - 1).toNat
    rw [if_pos hplace, hprev]
    refine ⟨_, rfl, ?_, ?_⟩
    · rw [startOffset_of_nonneg _ (by omega), hbefore]
      by_cases hin : (i - 1).toNat ≤ x.length
      · omega
      · rw [offset_all (x := x) (k := (i - 1).toNat) (by omega)]
        omega
    · constructor
      · intro hzero
        by_contra hone
        have hlt := offset_lt x (k := 0) (m := (i - 1).toNat) (by omega) (by omega)
        omega
      · rintro rfl
        rw [show ((1 : Int) - 1).toNat = 0 by rfl, offset_zero, Nat.zero_sub]
        rfl

theorem place_fromEnd (hj : j < 0) (hin : 0 ≤ x.length + j) :
    place x j + (metafy x).length + 1 + (if Splits x j then 1 else 0 : Nat) =
      offset x (x.length + j + 1).toNat := by
  have hlt : (x.length + j).toNat < x.length := by omega
  have hsucc := offset_succ hlt
  rw [show (x.length + j).toNat + 1 = (x.length + j + 1).toNat by omega] at hsucc
  have hsplits : Splits x j ↔ imeta x[(x.length + j).toNat] = true := by
    unfold Splits
    rw [List.getD_eq_getElem _ _ hlt]
    exact ⟨fun h => h.2.2, fun h => ⟨hj, hin, h⟩⟩
  rw [place_of_in hj hin]
  by_cases h : Splits x j
  · rw [if_pos (hsplits.mp h)] at hsucc
    rw [if_pos h]
    omega
  · rw [if_neg fun h' => h (hsplits.mpr h')] at hsucc
    rw [if_neg h]
    omega

/-- The end of a slice is behind the byte that `j` names, unless that byte is metafied and counted
from the end: only the first of its two bytes is passed. -/
theorem endOffset_place (x : Bytes) (j : Int) :
    endOffset (metafy x).length (place x j) + (if Splits x j then 1 else 0) =
      offset x (upto x.length j) := by
  rcases lt_trichotomy j 0 with hneg | rfl | hpos
  · have hplace := place_neg (x := x) hneg
    have hupto : upto x.length j = (x.length + j + 1).toNat := by
      unfold upto
      rw [if_neg (by omega)]
    rw [endOffset_of_neg _ hplace, hupto]
    by_cases hin : 0 ≤ x.length + j
    · have hend := place_fromEnd hneg hin
      rw [place_of_in hneg hin] at hend ⊢
      rw [if_neg (by omega)]
      omega
    · rw [place_of_out hneg (by omega), show (x.length + j + 1).toNat = 0 by omega, offset_zero,
        if_pos (by omega), if_neg fun h => hin h.2.1]
  · rw [if_neg fun h => absurd h.1 (by decide)]
    rfl
  · have hupto : upto x.length j = j.toNat := by
      unfold upto
      rw [if_pos (by omega)]
    have hle := offset_le x j.toNat
    rw [if_neg fun h => absurd h.1 (by omega), hupto, place_of_pos hpos,
      endOffset_of_nonneg _ (by omega)]
    by_cases hin : j.toNat ≤ x.length
    · omega
    · rw [offset_all (x := x) (k := j.toNat) (by omega)]
      omega

theorem place_eq_neg_one : place x j = -1 ↔ j = -1 ∧ ¬Splits x j := by
  rcases lt_trichotomy j 0 with hneg | rfl | hpos
  · by_cases hin : 0 ≤ x.length + j
    · have hend := place_fromEnd hneg hin
      have hall : offset x x.length = (metafy x).length := offset_all (Nat.le_refl _)
      by_cases hlast : j = -1
      · rw [show (x.length + j + 1).toNat = x.length by omega, hall] at hend
        by_cases h : Splits x j
        · rw [if_pos h] at hend
          exact iff_of_false (by omega) fun h' => h'.2 h
        · rw [if_neg h] at hend
          exact iff_of_true (by omega) ⟨hlast, h⟩
      · have hlt := offset_lt x (k := (x.length + j + 1).toNat) (m := x.length) (by omega)
          (Nat.le_refl _)
        exact iff_of_false (by omega) fun h => hlast h.1
    · have hlength := length_metafy x
      rw [place_of_out hneg (by omega)]
      constructor
      · exact fun h => ⟨by omega, fun h' => hin h'.2.1⟩
      · rintro ⟨rfl, -⟩
        have hnil : x = [] := List.eq_nil_of_length_eq_zero (by omega)
        rw [hnil]
        rfl
  · exact iff_of_false (by show ¬(0 : Int) = -1; decide) fun h => absurd h.1 (by decide)
  · have hplace := place_pos (x := x) hpos
    exact iff_of_false (by omega) fun h => by omega

end

theorem startOffset_le (zlen : Nat) (start : Int) : startOffset zlen start ≤ zlen := by
  unfold startOffset
  dsimp only
  split_ifs <;> omega

theorem endOffset_le (zlen : Nat) (stop : Int) : endOffset zlen stop ≤ zlen := by
  unfold endOffset
  dsimp only
  split_ifs <;> omega

theorem assignstrvalue_iff (z : Bytes) (v : Value) (val out : Bytes) :
    assignstrvalue z v val = some out ↔
      (v.start = 0 ∧ v.stop = -1 ∨ z.length < 2 ^ 31 ∧ out.length < 2 ^ 31) ∧
      z.take (startOffset z.length v.start) ++ val ++ z.drop (endOffset z.length v.stop) = out := by
  unfold assignstrvalue
  dsimp only
  by_cases hwhole : v.start = 0 ∧ v.stop = -1
  · have hstart : startOffset z.length v.start = 0 := by
      rw [hwhole.1, startOffset_of_nonneg _ (Int.le_refl 0)]
      exact Nat.min_zero _
    have hstop : endOffset z.length v.stop = z.length := by
      rw [hwhole.2]
      unfold endOffset
      dsimp only
      split_ifs <;> omega
    rw [if_pos hwhole, hstart, hstop, List.take_zero, List.drop_length, List.append_nil,
      List.nil_append, Option.some_inj]
    exact ⟨fun h => ⟨.inl hwhole, h⟩, fun h => h.2⟩
  · have hs := startOffset_le z.length v.start
    have he := endOffset_le z.length v.stop
    generalize startOffset z.length v.start = s at *
    generalize endOffset z.length v.stop = e at *
    have hlength : (z.take s ++ val ++ z.drop e).length = s + val.length + (z.length - e) := by
      rw [List.length_append, List.length_append, List.length_take, List.length_drop]
      omega
    rw [if_neg hwhole, or_iff_right hwhole, ← hlength]
    have hstored : (if (z.take s ++ val ++ z.drop e).length ≠ z.length then
        some (z.take s ++ val ++ z.drop e) else some (overwrite z s val)) =
          some (z.take s ++ val ++ z.drop e) := by
      split_ifs with hsame
      · rfl
      · rw [overwrite_eq z val s (by omega), show s + val.length = e by omega]
    rw [hstored]
    split_ifs with hbig
    · refine iff_of_false nofun ?_
      rintro ⟨hroom, rfl⟩
      omega
    · rw [Option.some_inj]
      constructor
      · rintro rfl
        exact ⟨by omega, rfl⟩
      · exact fun h => h.2

section

variable {x w : Bytes} {i j : Int} {kshzerosubscript : Bool}

theorem metafy_spliceBytes (x w : Bytes) (s e : Nat) :
    metafy (spliceBytes x s e w) = (metafy x).take (offset x s) ++ metafy w ++
      (metafy x).drop (offset x (max s e)) := by
  rw [take_offset, drop_offset, ← metafy_append, ← metafy_append]
  rfl

/-- The values of both subscripts, in bytes, are an `int`. -/
def InRange (x : Bytes) (i j : Int) : Prop :=
  int (place x i) = place x i ∧ int (place x j) = place x j

instance (x : Bytes) (i j : Int) : Decidable (InRange x i j) := inferInstanceAs (Decidable (_ ∧ _))

/-- The lengths of a string and of what it becomes are an `int`. -/
def Room (x out : Bytes) : Prop := (metafy x).length < 2 ^ 31 ∧ (metafy out).length < 2 ^ 31

/-- When an assignment to bytes of a string is a splice: the end is not before the start, and a byte
that is counted from the end is not metafied.  Subscripts that are not an `int` are cut, and this
must happen to make no difference. -/
def ScalarPlain (kshzerosubscript : Bool) (i j : Int) (x w : Bytes) : Prop :=
  let out := spliceBytes x (before x.length i) (upto x.length j) w
  if InRange x i j then
    min (before x.length i) x.length ≤ upto x.length j ∧ ¬Splits x j ∧
      (i = 1 ∧ j = -1 ∨ Room x out)
  else
    ∃ v, getindex kshzerosubscript (getargScalar (metafy x) i) (place x j) = some v ∧
      (v.start = 0 ∧ v.stop = -1 ∨ Room x out) ∧
      (metafy x).take (startOffset (metafy x).length v.start) ++ metafy w ++
        (metafy x).drop (endOffset (metafy x).length v.stop) = metafy out

theorem splice_eq_iff {z v : Bytes} {p q m : Nat} (hq : q ≤ z.length) (hm : m ≤ z.length) :
    z.take p ++ v ++ z.drop q = z.take p ++ v ++ z.drop m ↔ q = m := by
  constructor
  · intro h
    have hlength := congrArg List.length (List.append_cancel_left h)
    rw [List.length_drop, List.length_drop] at hlength
    omega
  · rintro rfl
    rfl

theorem endOffset_eq_iff (x : Bytes) (j : Int) (s : Nat) :
    endOffset (metafy x).length (place x j) = offset x (max s (upto x.length j)) ↔
      min s x.length ≤ upto x.length j ∧ ¬Splits x j := by
  have hstop := endOffset_place x j
  have hmono := offset_mono x (Nat.le_max_right s (upto x.length j))
  by_cases hsplits : Splits x j
  · rw [if_pos hsplits] at hstop
    exact iff_of_false (by omega) fun h => h.2 hsplits
  · rw [if_neg hsplits, Nat.add_zero] at hstop
    rw [hstop, and_iff_left hsplits]
    constructor
    · intro h
      by_contra hlt
      have hless := offset_lt x (Nat.lt_of_not_le hlt) (Nat.min_le_right _ _)
      have hle := offset_mono x (show min s x.length ≤ max s (upto x.length j) by omega)
      omega
    · intro h
      by_cases hle : s ≤ upto x.length j
      · rw [Nat.max_eq_right hle]
      · rw [offset_all (x := x) (k := upto x.length j) (by omega),
          offset_all (x := x) (k := max s (upto x.length j)) (by omega)]

theorem splices_scalar_iff (hne : i ≠ 0) :
    Splices kshzerosubscript i j (.scalar x w) ↔ ScalarPlain kshzerosubscript i j x w := by
  show assignsparam kshzerosubscript false (metafy x) i j (metafy w) = some _ ↔ _
  unfold assignsparam ScalarPlain
  dsimp only
  rw [getargScalar_r]
  by_cases hrange : InRange x i j
  · obtain ⟨start, hindex, hstart, hone⟩ :=
      @getindex_start x i kshzerosubscript hne hrange.1 (place x j)
    rw [hindex, Option.bind_some, if_neg Bool.false_ne_true, if_pos hrange, assignstrvalue_iff,
      hrange.2, hstart, place_eq_neg_one, hone]
    have heq : (metafy x).take (offset x (before x.length i)) ++ metafy w ++
        (metafy x).drop (endOffset (metafy x).length (place x j)) =
          metafy (spliceBytes x (before x.length i) (upto x.length j) w) ↔
        min (before x.length i) x.length ≤ upto x.length j ∧ ¬Splits x j := by
      rw [metafy_spliceBytes, splice_eq_iff (endOffset_le _ _) (offset_le x _), endOffset_eq_iff]
    rw [heq]
    constructor
    · rintro ⟨hroom, hle, hsplits⟩
      exact ⟨hle, hsplits, hroom.imp (fun h => ⟨h.1, h.2.1⟩) id⟩
    · rintro ⟨hle, hsplits, hroom⟩
      exact ⟨hroom.imp (fun h => ⟨h.1, h.2, hsplits⟩) id, hle, hsplits⟩
  · rw [if_neg hrange, Option.bind_eq_some_iff]
    refine exists_congr fun v => and_congr_right fun _ => ?_
    rw [if_neg Bool.false_ne_true, assignstrvalue_iff]
    rfl

/-! ## What is added to bytes of a string -/

/-- Where `x[i,j]+=…` puts the value. -/
def addedPlace (x : Bytes) (j : Int) : Int :=
  if 0 < place x j then place x j else (metafy x).length + place x j + 1

def secondByte (x : Bytes) (j : Int) : UInt8 := x.getD (x.length + j).toNat 0 ^^^ 32

/-- When an addition to bytes of a string is a splice.  With `j = 0` the value is put at the end; a
byte that is counted from the end and metafied is split; and the first byte is lost when `j` is
just out of the string.  Subscripts that are not an `int` are cut. -/
def AddedPlain (kshzerosubscript : Bool) (i j : Int) (x w : Bytes) : Prop :=
  let out := spliceBytes x (upto x.length j) (upto x.length j) w
  if InRange x i j ∧ int (addedPlace x j) = addedPlace x j then
    (j = 0 → metafy x ++ metafy w = metafy w ++ metafy x) ∧
      (Splits x j → metafy w ++ [secondByte x j] = [secondByte x j] ++ metafy w) ∧
      (x.length + j < 0 → x = [] ∧ j = -1 ∨ (metafy x).length + j + 1 < 0) ∧ Room x out
  else
    ∃ v, getindex kshzerosubscript (getargScalar (metafy x) i) (place x j) = some v ∧ Room x out ∧
      (metafy x).take (startOffset (metafy x).length (augment (metafy x) v).start) ++ metafy w ++
        (metafy x).drop (endOffset (metafy x).length (augment (metafy x) v).stop) = metafy out

theorem augment_not_whole (z : Bytes) (v : Value) :
    ¬((augment z v).start = 0 ∧ (augment z v).stop = -1) := by
  unfold augment
  dsimp only
  split_ifs with hwhole hpos
  · exact fun h => absurd h.1 (by norm_num)
  · dsimp only
    omega
  · dsimp only
    omega

theorem augment_offsets {start : Int} (hzlen : (metafy x).length < 2 ^ 31)
    (h : int (addedPlace x j) = addedPlace x j) :
    let v := augment (metafy x) { start := start, stop := place x j }
    startOffset (metafy x).length v.start = startOffset (metafy x).length (addedPlace x j) ∧
      endOffset (metafy x).length v.stop = endOffset (metafy x).length (addedPlace x j) := by
  unfold augment
  dsimp only
  unfold addedPlace at h ⊢
  by_cases hwhole : start = 0 ∧ place x j = -1
  · rw [if_pos hwhole, if_neg (by omega), hwhole.2]
    dsimp only
    rw [startOffset_of_nonneg _ (by norm_num), startOffset_of_nonneg _ (by omega),
      endOffset_of_neg _ (by omega), endOffset_of_nonneg _ (by omega)]
    constructor
    · omega
    · split_ifs <;> omega
  · rw [if_neg hwhole]
    by_cases hpos : 0 < place x j
    · rw [if_pos hpos, if_pos hpos]
      exact ⟨rfl, rfl⟩
    · rw [if_neg hpos] at h
      rw [if_neg hpos, if_neg hpos, h]
      exact ⟨rfl, rfl⟩

theorem early_iff (front back w : Bytes) (d : UInt8) :
    front ++ w ++ d :: back = front ++ [d] ++ w ++ back ↔ w ++ [d] = [d] ++ w := by
  rw [List.append_cons (front ++ w) d back, List.append_left_inj, List.append_assoc,
    List.append_assoc front [d] w, List.append_right_inj]

theorem metafy_secondByte (h : Splits x j) :
    metafy x = metafy (x.take (x.length + j).toNat) ++ [0x83] ++
      secondByte x j :: metafy (x.drop ((x.length + j).toNat + 1)) := by
  obtain ⟨hneg, hin, hmeta⟩ := h
  have hlt : (x.length + j).toNat < x.length := by omega
  unfold secondByte
  rw [List.getD_eq_getElem _ _ hlt] at hmeta ⊢
  conv_lhs => rw [← metafy_take_drop x (x.length + j).toNat, List.drop_eq_getElem_cons hlt,
    metafy_cons, if_pos hmeta]
  rw [List.append_assoc]
  rfl

theorem added_eq_iff (x w : Bytes) (j : Int) :
    (metafy x).take (startOffset (metafy x).length (addedPlace x j)) ++ metafy w ++
        (metafy x).drop (endOffset (metafy x).length (addedPlace x j)) =
          metafy (spliceBytes x (upto x.length j) (upto x.length j) w) ↔
      (j = 0 → metafy x ++ metafy w = metafy w ++ metafy x) ∧
        (Splits x j → metafy w ++ [secondByte x j] = [secondByte x j] ++ metafy w) ∧
        (x.length + j < 0 → x = [] ∧ j = -1 ∨ (metafy x).length + j + 1 < 0) := by
  have hstop := endOffset_place x j
  have hle := offset_le x (upto x.length j)
  rw [metafy_spliceBytes, Nat.max_self]
  rcases lt_trichotomy j 0 with hneg | rfl | hpos
  · have hplace := place_neg (x := x) hneg
    have hadded : addedPlace x j = (metafy x).length + place x j + 1 := by
      unfold addedPlace
      rw [if_neg (by omega)]
    have hupto : upto x.length j = (x.length + j + 1).toNat := by
      unfold upto
      rw [if_neg (by omega)]
    by_cases hin : 0 ≤ x.length + j
    · have hend := place_fromEnd hneg hin
      rw [← hupto] at hend
      by_cases hsplits : Splits x j
      · have hbytes := metafy_secondByte hsplits
        have hfront : offset x (upto x.length j) =
            (metafy (x.take (x.length + j).toNat) ++ [0x83]).length + 1 := by
          have hsucc := offset_succ (show (x.length + j).toNat < x.length by omega)
          have hmeta := hsplits.2.2
          rw [List.getD_eq_getElem _ _ (by omega)] at hmeta
          rw [if_pos hmeta, show (x.length + j).toNat + 1 = upto x.length j by omega] at hsucc
          rw [hsucc, List.length_append]
          rfl
        rw [if_pos hsplits] at hend
        rw [startOffset_of_nonneg _ (by omega), endOffset_of_nonneg _ (by omega),
          show min (metafy x).length (addedPlace x j).toNat =
            (metafy (x.take (x.length + j).toNat) ++ [0x83]).length by omega, hfront]
        conv_lhs => rw [hbytes]
        rw [List.take_left, List.drop_left, List.take_length_add_append,
          List.drop_length_add_append, List.take_succ_cons, List.take_zero, List.drop_succ_cons,
          List.drop_zero, early_iff]
        exact ⟨fun h => ⟨fun hzero => absurd hzero (by omega), fun _ => h, by omega⟩,
          fun h => h.2.1 hsplits⟩
      · rw [if_neg hsplits] at hend
        rw [startOffset_of_nonneg _ (by omega), endOffset_of_nonneg _ (by omega),
          show min (metafy x).length (addedPlace x j).toNat = offset x (upto x.length j) by omega]
        exact iff_of_true rfl ⟨by omega, fun h => absurd h hsplits, by omega⟩
    · have hsplits : ¬Splits x j := fun h => hin h.2.1
      have hout := place_of_out (x := x) hneg (by omega)
      have hzero : upto x.length j = 0 := by omega
      rw [hzero, offset_zero]
      rcases lt_or_ge (j + 1) 0 with hfar | hnear
      · rw [startOffset_of_neg _ (by omega), endOffset_of_neg _ (by omega)]
        by_cases hbefore : (metafy x).length + j + 1 < 0
        · rw [if_pos (by omega), show (addedPlace x j + (metafy x).length).toNat = 0 by omega]
          exact iff_of_true rfl ⟨by omega, fun h => absurd h hsplits, fun _ => .inr hbefore⟩
        · rw [if_neg (by omega)]
          refine iff_of_false (fun h => ?_) fun h => ?_
          · have hlength := congrArg List.length h
            simp only [List.length_append, List.length_take, List.length_drop] at hlength
            omega
          · rcases h.2.2 (by omega) with ⟨-, hlast⟩ | hbefore'
            · omega
            · exact hbefore hbefore'
      · have hlast : j = -1 := by omega
        have hnil : x = [] := List.eq_nil_of_length_eq_zero (by omega)
        rw [show addedPlace x j = 0 by omega]
        exact iff_of_true rfl ⟨by omega, fun h => absurd h hsplits, fun _ => .inl ⟨hnil, hlast⟩⟩
  · have hadded : addedPlace x 0 = (metafy x).length + 1 := by
      show (if (0 : Int) < 0 then _ else ((metafy x).length : Int) + 0 + 1) = _
      rw [if_neg (Int.lt_irrefl 0), Int.add_zero]
    rw [hadded, startOffset_of_nonneg _ (by omega), endOffset_of_nonneg _ (by omega),
      show min (metafy x).length (((metafy x).length : Int) + 1).toNat = (metafy x).length by omega,
      List.take_length, List.drop_length, List.append_nil]
    exact ⟨fun h => ⟨fun _ => h, fun h' => absurd h'.1 (by decide), by omega⟩, fun h => h.1 rfl⟩
  · have hplace := place_pos (x := x) hpos
    have hsplits : ¬Splits x j := fun h => absurd h.1 (by omega)
    have hadded : addedPlace x j = place x j := if_pos hplace
    rw [if_neg hsplits, Nat.add_zero] at hstop
    rw [hadded, hstop, ← hstop, endOffset_of_nonneg _ (by omega),
      startOffset_of_nonneg _ (by omega)]
    exact iff_of_true rfl ⟨by omega, fun h => absurd h hsplits, by omega⟩

theorem splices_added_iff (hne : i ≠ 0) :
    Splices kshzerosubscript i j (.added x w) ↔ AddedPlain kshzerosubscript i j x w := by
  show assignsparam kshzerosubscript true (metafy x) i j (metafy w) = some _ ↔ _
  unfold assignsparam AddedPlain
  dsimp only
  rw [getargScalar_r]
  by_cases hrange : InRange x i j ∧ int (addedPlace x j) = addedPlace x j
  · obtain ⟨start, hindex, -, -⟩ := @getindex_start x i kshzerosubscript hne hrange.1.1 (place x j)
    rw [hindex, Option.bind_some, if_pos rfl, if_pos hrange, assignstrvalue_iff, hrange.1.2,
      or_iff_right (augment_not_whole _ _)]
    constructor
    · rintro ⟨hroom, h⟩
      obtain ⟨hstart, hstop⟩ := @augment_offsets x j start hroom.1 hrange.2
      rw [hstart, hstop, added_eq_iff] at h
      exact ⟨h.1, h.2.1, h.2.2, hroom⟩
    · rintro ⟨hzero, hsplits, hout, hroom⟩
      obtain ⟨hstart, hstop⟩ := @augment_offsets x j start hroom.1 hrange.2
      rw [hstart, hstop, added_eq_iff]
      exact ⟨hroom, hzero, hsplits, hout⟩
  · rw [if_neg hrange, Option.bind_eq_some_iff]
    refine exists_congr fun v => and_congr_right fun _ => ?_
    rw [if_pos rfl, assignstrvalue_iff, or_iff_right (augment_not_whole _ _)]
    rfl

def Plain (kshzerosubscript : Bool) (i j : Int) : Target → Prop
  | .array a vs => ArrayPlain kshzerosubscript i j a vs
  | .scalar x w => ScalarPlain kshzerosubscript i j x w
  | .added x w => AddedPlain kshzerosubscript i j x w

theorem splices_iff_plain (hne : i ≠ 0) (t : Target) :
    Splices kshzerosubscript i j t ↔ Plain kshzerosubscript i j t := by
  cases t with
  | array a vs => exact splices_array_iff kshzerosubscript i j a vs
  | scalar x w => exact splices_scalar_iff hne
  | added x w => exact splices_added_iff hne

/-- One element of two is replaced. -/
theorem splices_second : Splices false 2 2 (.array [[97], [98]] [[99]]) :=
  (splices_iff_plain (by decide) _).mpr
    ((arrayPlain_of_int false (by decide) (by decide) (by decide) _ _).mpr (.inr (by decide)))

/-- Of a `NUL` that is replaced, the second byte stays. -/
theorem not_splices_nul : ¬Splices false 1 (-1) (.scalar [0] [97]) := by
  show ¬(assignsparam false false (metafy [0]) 1 (-1) (metafy [97]) = _)
  decide

end

end NextBSD.Zsh.Slice
